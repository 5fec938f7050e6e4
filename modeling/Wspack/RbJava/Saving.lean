import Wspack.Lib.Scan
import Wspack.RbJava.Fingerprint

namespace Wspack.RbJava

open Lib

def txtHashAt (txt : List UInt16) : (k : Nat) → Int64
  | 0 => hash txt chunkNum
  | k + 1 => roll txt (txtHashAt txt k) (chunkNum + k)

def inTable (hashmap : Int64 → Option String) (txtHash : Int64) : Bool :=
  decide (txtHash &&& zeroValue = 0 ∧ hashmap (key txtHash) ≠ none)

def found (hashmap : Int64 → Option String) (txt : List UInt16) (i : Nat) : Bool :=
  inTable hashmap (txtHashAt txt (i + 1 - chunkNum))

def subtracts (hashmap : Int64 → Option String) (s : Caching) : List (Nat × Int64) → List Nat
  | [] => []
  | x :: xs =>
    if (cachePoint hashmap s x.2).cacheNum ≠ s.cacheNum then
      x.1 :: subtracts hashmap (cachePoint hashmap s x.2) xs
    else subtracts hashmap (cachePoint hashmap s x.2) xs

def subtracted (hashmap : Int64 → Option String) (txt : List UInt16) : List Nat :=
  (if inTable hashmap (hash txt chunkNum) then [chunkNum - 1] else []) ++
    subtracts hashmap ⟨txt.length, 0, 0⟩ (examined txt).tail

variable {hashmap : Int64 → Option String} {txt : List UInt16} {s t : Caching} {txtHash : Int64}

theorem cachePoint_delayed (h : s.delayTime ≠ 0) :
    cachePoint hashmap s txtHash = { s with delayTime := s.delayTime - 1 } := if_neg h

theorem cachePoint_found (h : s.delayTime = 0) (hf : inTable hashmap txtHash = true) :
    cachePoint hashmap s txtHash =
      ⟨s.cacheNum - chunkNum + remedy, s.countComp + 1, chunkNum⟩ := by
  rw [cachePoint, if_pos h, if_pos (of_decide_eq_true hf)]

theorem cachePoint_missed (h : s.delayTime = 0) (hf : inTable hashmap txtHash = false) :
    cachePoint hashmap s txtHash = s := by
  rw [cachePoint, if_pos h, if_neg (of_decide_eq_false hf)]

theorem cacheNum_found (n : Int) : n - chunkNum + remedy = n - 52 := by
  simp only [chunkNum, remedy]
  omega

theorem cacheNum_foldl (s : Caching) (l : List (Nat × Int64)) :
    (l.foldl (fun s x => cachePoint hashmap s x.2) s).cacheNum =
      s.cacheNum - 52 * (subtracts hashmap s l).length := by
  induction l generalizing s with
  | nil => simp [subtracts]
  | cons x l ih =>
    have hstep : (cachePoint hashmap s x.2).cacheNum = s.cacheNum ∨
        (cachePoint hashmap s x.2).cacheNum = s.cacheNum - 52 := by
      by_cases hd : s.delayTime = 0
      · cases hf : inTable hashmap x.2 with
        | true =>
          rw [cachePoint_found hd hf]
          exact .inr (cacheNum_found _)
        | false => exact .inl (by rw [cachePoint_missed hd hf])
      · exact .inl (by rw [cachePoint_delayed hd])
    rw [List.foldl_cons, ih, subtracts]
    rcases hstep with hstep | hstep
    · rw [if_neg (by simp [hstep]), hstep]
    · rw [if_pos (by omega), hstep, List.length_cons]
      push_cast
      omega

theorem subtracts_eq_scan (k n : Nat) (s : Caching) :
    subtracts hashmap s (rolled (roll txt) n (chunkNum + k) (txtHashAt txt k)) =
      scan (found hashmap txt) chunkNum s.delayTime (chunkNum + k) n := by
  induction n generalizing k s with
  | zero => simp [rolled, subtracts, scan]
  | succ n ih =>
    have hrest := ih (k + 1)
    rw [txtHashAt, ← Nat.add_assoc] at hrest
    have hfound : found hashmap txt (chunkNum + k) =
        inTable hashmap (roll txt (txtHashAt txt k) (chunkNum + k)) := by
      rw [found, Nat.add_assoc, Nat.add_sub_cancel_left, txtHashAt]
    rw [rolled, subtracts, hrest]
    cases hd : s.delayTime with
    | succ d =>
      rw [cachePoint_delayed (by omega), if_neg (by simp), hd, scan]
      rfl
    | zero =>
      cases hf : inTable hashmap (roll txt (txtHashAt txt k) (chunkNum + k)) with
      | true =>
        rw [cachePoint_found hd hf, if_pos (by rw [cacheNum_found]; simp), scan, hfound, hf, if_pos rfl]
      | false =>
        rw [cachePoint_missed hd hf, if_neg (by simp), hd, scan, hfound, hf, if_neg Bool.false_ne_true]

theorem subtracted_eq_scan : subtracted hashmap txt =
    (if found hashmap txt (chunkNum - 1) then [chunkNum - 1] else []) ++
      scan (found hashmap txt) chunkNum 0 chunkNum (txt.length - chunkNum) := by
  have hloop := @subtracts_eq_scan hashmap txt 0 (txt.length - chunkNum) ⟨txt.length, 0, 0⟩
  rw [Nat.add_zero] at hloop
  rw [subtracted, examined, List.tail_cons, ← hloop]
  rfl

theorem cacheNum_cacheLoop (s : Caching) (hs : s.delayTime = 0) :
    (cacheLoop hashmap txt (hash txt chunkNum) s chunkNum (txt.length - chunkNum)).cacheNum =
      s.cacheNum - 52 * (scan (found hashmap txt) chunkNum 0 chunkNum (txt.length - chunkNum)).length := by
  have hscan := @subtracts_eq_scan hashmap txt 0 (txt.length - chunkNum) s
  rw [Nat.add_zero, hs, txtHashAt] at hscan
  rw [cacheLoop_eq_foldl, cacheNum_foldl, hscan]

theorem cacheFingrprint_eq (h : chunkNum ≤ txt.length) (s : TCPRE) :
    ∃ t, cacheFingrprint txt s =
      .ok (t, txt.length - 52 * (subtracted s.hashmap txt).length) := by
  have hfirst : found s.hashmap txt (chunkNum - 1) = inTable s.hashmap (hash txt chunkNum) := rfl
  rw [cacheFingrprint, if_neg (Nat.not_lt.mpr h), subtracted_eq_scan, hfirst, inTable]
  by_cases hf : hash txt chunkNum &&& zeroValue = 0 ∧ s.hashmap (key (hash txt chunkNum)) ≠ none
  · simp only [hf, decide_true, if_true, cacheNum_cacheLoop, cacheNum_found, and_self, ne_eq,
      not_false_eq_true]
    refine ⟨_, congrArg (fun n => Except.ok (_, n)) ?_⟩
    rw [List.singleton_append, List.length_cons]
    push_cast
    omega
  · simp only [hf, decide_false, Bool.false_eq_true, if_false, cacheNum_cacheLoop, List.nil_append]
    exact ⟨_, rfl⟩

theorem mem_subtracted {i : Nat} (hc : chunkNum ≤ txt.length) (h : i ∈ subtracted hashmap txt) :
    chunkNum ≤ i + 1 ∧ i < txt.length := by
  rw [subtracted_eq_scan, List.mem_append] at h
  rcases h with h | h
  · split at h
    · rw [List.mem_singleton.mp h]
      simp only [chunkNum] at hc ⊢
      omega
    · cases h
  · have := mem_scan h
    omega

theorem subtracted_disjoint_iff : (subtracted hashmap txt).Pairwise
      (fun i j => Disjoint (windowOf chunkNum i) (windowOf chunkNum j)) ↔
    (found hashmap txt (chunkNum - 1) = true →
      ∀ i, chunkNum ≤ i → i < 2 * chunkNum - 1 → i < txt.length → found hashmap txt i = false) := by
  have hloop : (scan (found hashmap txt) chunkNum 0 chunkNum (txt.length - chunkNum)).Pairwise
      (fun i j => Disjoint (windowOf chunkNum i) (windowOf chunkNum j)) :=
    scan_pairwise.imp (fun hij => disjoint_windowOf hij.le)
  rw [subtracted_eq_scan]
  cases hf : found hashmap txt (chunkNum - 1) with
  | false => simpa using hloop
  | true =>
    rw [if_pos rfl, List.singleton_append, List.pairwise_cons, and_iff_left hloop]
    refine ⟨fun h _ i hi hlt hn => ?_, fun h j hj => ?_⟩
    · -- the first selection comes no later than `i`
      by_contra hfi
      obtain ⟨j, hj, hji⟩ := @exists_mem_scan_le (found hashmap txt) chunkNum chunkNum
        (txt.length - chunkNum) i (by simpa using hfi) hi (by omega)
      have hj' := mem_scan hj
      exact not_disjoint_windowOf (by decide) (by omega) (by omega) (h j hj)
    · obtain ⟨hj, hn, hfj⟩ := mem_scan hj
      apply disjoint_windowOf
      by_contra hlt
      have hmiss := h rfl j (by omega) (by omega) (by omega)
      rw [hfj] at hmiss
      cases hmiss

/-- Whatever the table holds: the windows that 52 characters each are taken off for are disjoint,
and what is left of the length is between 1 and the length, exactly when the first window is not
found or none of the next 63 is. -/
theorem saving_within_text_iff (cache : List UInt16) (s : TCPRE) (hc : chunkNum ≤ cache.length) :
    ∃ t n, cacheFingrprint cache s = .ok (t, n) ∧
      n = cache.length - 52 * (subtracted s.hashmap cache).length ∧
      (((subtracted s.hashmap cache).Pairwise
          (fun i j => Disjoint (windowOf chunkNum i) (windowOf chunkNum j)) ∧
        0 < n ∧ n ≤ cache.length) ↔
      (found s.hashmap cache 63 = true →
        ∀ i, 64 ≤ i → i < 127 → i < cache.length → found s.hashmap cache i = false)) := by
  obtain ⟨t, ht⟩ := cacheFingrprint_eq hc s
  refine ⟨t, _, ht, rfl, ?_⟩
  have hiff := @subtracted_disjoint_iff s.hashmap cache
  refine ⟨fun h => hiff.mp h.1, fun h => ?_⟩
  have hdisjoint := hiff.mpr h
  have hle := mul_length_le hdisjoint (fun i hi => mem_subtracted hc hi)
  refine ⟨hdisjoint, ?_, by omega⟩
  simp only [chunkNum] at hle hc
  omega

def twiceInText : List UInt16 := List.replicate 64 83 ++ List.replicate 40 97 ++ List.replicate 64 83

theorem saving_within_text_twice :
    let s := (calculateFingerprint (List.replicate 64 83) .new).1
    subtracted s.hashmap twiceInText = [63, 167] ∧
      ∃ t n, cacheFingrprint twiceInText s = .ok (t, n) ∧ n = 64 ∧
        (subtracted s.hashmap twiceInText).Pairwise
          (fun i j => Disjoint (windowOf chunkNum i) (windowOf chunkNum j)) := by
  intro s
  have hsub : subtracted s.hashmap twiceInText = [63, 167] := by decide +kernel
  have hlater : ∀ i < 127, 64 ≤ i → i < twiceInText.length → found s.hashmap twiceInText i = false := by
    decide +kernel
  clear_value s
  obtain ⟨t, n, hret, hn, hiff⟩ := saving_within_text_iff twiceInText s (by decide +kernel)
  refine ⟨hsub, t, n, hret, ?_, (hiff.mpr fun _ i hi hlt hlen => hlater i hlt hi hlen).1⟩
  rw [hn, hsub, show twiceInText.length = 168 by decide +kernel]
  rfl

theorem saving_beyond_text :
    let s := (calculateFingerprint (List.replicate 64 83) .new).1
    let cache : List UInt16 := List.replicate 65 83
    subtracted s.hashmap cache = [63, 64] ∧
      ¬Disjoint (windowOf chunkNum 63) (windowOf chunkNum 64) ∧
      (cacheFingrprint cache s).toOption.map (·.2) = some (-39) := by
  refine ⟨by decide +kernel, ?_, by decide +kernel⟩
  exact not_disjoint_windowOf (by decide) (by decide) (by decide)

end Wspack.RbJava
