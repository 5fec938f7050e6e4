import Wspack.Pack.Rolling

namespace Wspack.RbJava

open Lib
open Wspack.Chunk (residue)

def zeroNum : Nat := 5
def chunkNum : Nat := 64
def remedy : Int := 12
def R : Int32 := 1048583

def Q : Int64 := (List.range 60).foldl (fun q _ => 2 * q) 1
def RM : Int64 := (List.range (chunkNum - 1)).foldl (fun rm _ => R.toInt64 * rm % Q) 1
def zeroValue : Int64 := (List.range zeroNum).foldl (fun z _ => 2 * z) 1 - 1

def char (c : UInt16) : Int64 := c.toUInt64.toInt64

def hash (key : List UInt16) (M : Nat) : Int64 :=
  (key.take M).foldl (fun h c => (R.toInt64 * h + char c) % Q) 0

def removeLeading (txtHash : Int64) (c : UInt16) : Int64 := (txtHash + Q - RM * char c % Q) % Q

def roll (txt : List UInt16) (txtHash : Int64) (i : Nat) : Int64 :=
  let txtHash := removeLeading txtHash (txt.getD (i - chunkNum) 0)
  (txtHash * R.toInt64 + char (txt.getD i 0)) % Q

def key (txtHash : Int64) : Int64 := txtHash >>> Int64.ofNat zeroNum

structure TCPRE where
  hashmap : Int64 → Option String
  count : Nat
  countComp : Nat

def TCPRE.new : TCPRE where
  hashmap _ := none
  count := 0
  countComp := 0

def fingerprintPoint (s : TCPRE) (txtHash : Int64) : TCPRE :=
  if txtHash &&& zeroValue = 0 ∧ s.hashmap (key txtHash) = none then
    { s with
      hashmap := Function.update s.hashmap (key txtHash) (some "source")
      count := s.count + 1 }
  else s

def fingerprintLoop (txt : List UInt16) : Int64 → TCPRE → (i n : Nat) → TCPRE
  | _, s, _, 0 => s
  | txtHash, s, i, n + 1 =>
    let txtHash := roll txt txtHash i
    fingerprintLoop txt txtHash (fingerprintPoint s txtHash) (i + 1) n

def calculateFingerprint (txt : List UInt16) (s : TCPRE) : TCPRE × Bool :=
  if txt.length < chunkNum then (s, false)
  else
    let txtHash := hash txt chunkNum
    (fingerprintLoop txt txtHash (fingerprintPoint s txtHash) chunkNum (txt.length - chunkNum), true)

def tcpre (source : List UInt16) : Except String TCPRE :=
  match calculateFingerprint source .new with
  | (s, true) => .ok s
  | (_, false) => .error s!"the length of  source data less than {chunkNum}"

structure Caching where
  cacheNum : Int
  countComp : Nat
  delayTime : Nat
  deriving DecidableEq

def cachePoint (hashmap : Int64 → Option String) (s : Caching) (txtHash : Int64) : Caching :=
  if s.delayTime = 0 then
    if txtHash &&& zeroValue = 0 ∧ hashmap (key txtHash) ≠ none then
      { cacheNum := s.cacheNum - chunkNum + remedy
        countComp := s.countComp + 1
        delayTime := chunkNum }
    else s
  else { s with delayTime := s.delayTime - 1 }

def cacheLoop (hashmap : Int64 → Option String) (txt : List UInt16) :
    Int64 → Caching → (i n : Nat) → Caching
  | _, s, _, 0 => s
  | txtHash, s, i, n + 1 =>
    let txtHash := roll txt txtHash i
    cacheLoop hashmap txt txtHash (cachePoint hashmap s txtHash) (i + 1) n

/-- The first window neither counts in `count_comp` nor sets `delay_time`. -/
def cacheFingrprint (txt : List UInt16) (s : TCPRE) : Except String (TCPRE × Int) :=
  if txt.length < chunkNum then .error s!"the length of cache data less than {chunkNum}"
  else
    let txtHash := hash txt chunkNum
    let cacheNum : Int :=
      if txtHash &&& zeroValue = 0 ∧ s.hashmap (key txtHash) ≠ none then
        txt.length - chunkNum + remedy
      else txt.length
    let r := cacheLoop s.hashmap txt txtHash { cacheNum, countComp := s.countComp, delayTime := 0 }
      chunkNum (txt.length - chunkNum)
    .ok ({ s with countComp := r.countComp }, r.cacheNum)

def examined (txt : List UInt16) : List (Nat × Int64) :=
  let txtHash := hash txt chunkNum
  (chunkNum - 1, txtHash) :: rolled (roll txt) (txt.length - chunkNum) chunkNum txtHash

def window (txt : List UInt16) (i : Nat) : List UInt16 := (txt.drop (i + 1 - chunkNum)).take chunkNum

structure WindowKeyed (source cache : List UInt16) : Prop where
  values : ∀ txt ∈ [source, cache], ∀ x ∈ examined txt, x.2 = hash (window txt x.1) chunkNum
  keys : ∀ txt ∈ [source, cache], ∀ txt' ∈ [source, cache], ∀ x ∈ examined txt, ∀ y ∈ examined txt',
    window txt x.1 = window txt' y.1 → key x.2 = key y.2
  found : ∀ s, tcpre source = .ok s → ∀ x ∈ examined cache, x.2 &&& zeroValue = 0 →
    (∃ y ∈ examined source, window source y.1 = window cache x.1) → s.hashmap (key x.2) ≠ none

/-- The last products on the two ways to the fingerprint of the window that ends at `i` wrap around
to the same sign, or to multiples of `Q`. -/
def SameSign (txt : List UInt16) (i : Nat) : Prop :=
  let previous := hash (txt.drop (i - chunkNum)) chunkNum
  let rolling := removeLeading previous (txt.getD (i - chunkNum) 0) * R.toInt64 + char (txt.getD i 0)
  let direct := R.toInt64 * hash (txt.drop (i + 1 - chunkNum)) (chunkNum - 1) + char (txt.getD i 0)
  (0 ≤ rolling ↔ 0 ≤ direct) ∨ rolling % Q = 0

variable {txt source cache : List UInt16} {hashmap : Int64 → Option String} {i k : Nat}

theorem fingerprintLoop_eq_foldl (txtHash : Int64) (s : TCPRE) (i n : Nat) :
    fingerprintLoop txt txtHash s i n =
      (rolled (roll txt) n i txtHash).foldl (fun s x => fingerprintPoint s x.2) s := by
  induction n generalizing i txtHash s with
  | zero => rfl
  | succ n ih =>
    rw [fingerprintLoop, rolled, List.foldl_cons]
    exact ih ..

theorem cacheLoop_eq_foldl (txtHash : Int64) (s : Caching) (i n : Nat) :
    cacheLoop hashmap txt txtHash s i n =
      (rolled (roll txt) n i txtHash).foldl (fun s x => cachePoint hashmap s x.2) s := by
  induction n generalizing i txtHash s with
  | zero => rfl
  | succ n ih =>
    rw [cacheLoop, rolled, List.foldl_cons]
    exact ih ..

theorem calculateFingerprint_eq_foldl (h : chunkNum ≤ txt.length) (s : TCPRE) :
    calculateFingerprint txt s =
      ((examined txt).foldl (fun s x => fingerprintPoint s x.2) s, true) := by
  rw [calculateFingerprint, if_neg (Nat.not_lt.mpr h)]
  dsimp only
  rw [fingerprintLoop_eq_foldl, examined, List.foldl_cons]

theorem residue_foldl (l : List UInt16) (h : Int64) :
    residue (l.foldl (fun h c => (R.toInt64 * h + char c) % Q) h).toUInt64 =
      (l.map (fun c => residue (char c).toUInt64)).foldl (fun h x => residue Chunk.R * h + x)
        (residue h.toUInt64) := by
  induction l generalizing h with
  | nil => rfl
  | cons c l ih =>
    rw [List.foldl_cons, ih, show Q = Pack.Q from rfl, Pack.residue_signed_mod,
      Int64.toUInt64_add, Int64.toUInt64_mul, Chunk.residue_add, Chunk.residue_mul]
    rfl

theorem residue_hash (key : List UInt16) (M : Nat) :
    residue (hash key M).toUInt64 =
      polyHash (residue Chunk.R) ((key.take M).map (fun c => residue (char c).toUInt64)) := by
  rw [hash, residue_foldl]
  rfl

theorem residue_removeLeading (txtHash : Int64) (c : UInt16) :
    residue (removeLeading txtHash c).toUInt64 = residue txtHash.toUInt64 -
      residue Chunk.R ^ (chunkNum - 1) * residue (char c).toUInt64 := by
  have hRM : residue RM.toUInt64 = residue Chunk.R ^ (chunkNum - 1) :=
    Pack.residue_signed_pow (chunkNum - 1)
  rw [removeLeading, show Q = Pack.Q from rfl, Pack.residue_signed_mod, Int64.toUInt64_sub,
    Int64.toUInt64_add, Chunk.residue_sub, Chunk.residue_add, Pack.residue_signed_mod,
    Int64.toUInt64_mul, Chunk.residue_mul, Pack.Q_toUInt64, Chunk.residue_Q, hRM, add_zero]

theorem residue_remaining (h : k < txt.length) (hlen : k + chunkNum ≤ txt.length) :
    residue (removeLeading (hash (txt.drop k) chunkNum) (txt.getD k 0)).toUInt64 =
      residue (hash (txt.drop (k + 1)) (chunkNum - 1)).toUInt64 := by
  have hM : chunkNum = chunkNum - 1 + 1 := rfl
  have hl : ((txt.drop (k + 1)).take (chunkNum - 1)).length = chunkNum - 1 := by
    rw [List.length_take, List.length_drop]
    omega
  have hget : txt.getD k 0 = txt[k] := by simp [List.getD_eq_getElem?_getD, h]
  have hfirst : (txt.drop k).take chunkNum = txt[k] :: (txt.drop (k + 1)).take (chunkNum - 1) := by
    rw [List.drop_eq_getElem_cons h, hM, List.take_succ_cons]
    rfl
  rw [residue_removeLeading, residue_hash, residue_hash, hfirst, List.map_cons, polyHash_cons,
    List.length_map, hl, hget, add_sub_cancel_left]

theorem mod_Q_eq_iff {x y : Int64} (h : residue x.toUInt64 = residue y.toUInt64) :
    x % Q = y % Q ↔ (0 ≤ x ↔ 0 ≤ y) ∨ x % Q = 0 := by
  have hQ : Q.toInt = ((2 ^ 60 : Nat) : Int) := by decide +kernel
  rw [Pack.residue_toUInt64, Pack.residue_toUInt64, ZMod.intCast_eq_intCast_iff, ← hQ] at h
  rw [← Int64.toInt_inj, ← Int64.toInt_inj, Int64.toInt_mod, Int64.toInt_mod,
    Int64.le_iff_toInt_le, Int64.le_iff_toInt_le, Int64.toInt_zero]
  exact tmod_eq_tmod_iff (by rw [hQ]; decide) h

theorem hash_last (h : k + chunkNum ≤ txt.length) : hash (txt.drop k) chunkNum =
    (R.toInt64 * hash (txt.drop k) (chunkNum - 1) + char (txt.getD (k + (chunkNum - 1)) 0)) % Q := by
  have hlt : k + (chunkNum - 1) < txt.length := by
    simp only [chunkNum] at h ⊢
    omega
  have htake : (txt.drop k).take chunkNum =
      (txt.drop k).take (chunkNum - 1) ++ [txt.getD (k + (chunkNum - 1)) 0] := by
    rw [show chunkNum = chunkNum - 1 + 1 from rfl, List.take_add_one, List.getElem?_drop]
    simp [List.getD_eq_getElem?_getD, hlt]
  rw [hash, htake, List.foldl_append, List.foldl_cons, List.foldl_nil, hash]

theorem roll_eq_iff (hi : chunkNum ≤ i) (hn : i < txt.length) :
    roll txt (hash (txt.drop (i - chunkNum)) chunkNum) i = hash (txt.drop (i + 1 - chunkNum)) chunkNum ↔
      SameSign txt i := by
  obtain ⟨k, rfl⟩ := Nat.exists_eq_add_of_le' hi
  have hnext : k + chunkNum + 1 - chunkNum = k + 1 := by omega
  have hlast : k + 1 + (chunkNum - 1) = k + chunkNum := by simp only [chunkNum]
  have hdirect := @hash_last txt (k + 1) (by omega)
  rw [hlast] at hdirect
  have hsame := @residue_remaining txt k (by omega) (by omega)
  rw [SameSign, roll, Nat.add_sub_cancel, hnext, hdirect]
  apply mod_Q_eq_iff
  rw [Int64.toUInt64_add, Int64.toUInt64_add, Int64.toUInt64_mul, Int64.toUInt64_mul,
    Chunk.residue_add, Chunk.residue_add, Chunk.residue_mul, Chunk.residue_mul, hsame, mul_comm]

theorem hash_window (i : Nat) : hash (window txt i) chunkNum = hash (txt.drop (i + 1 - chunkNum)) chunkNum := by
  rw [hash, window, List.take_take, Nat.min_self, hash]

theorem examined_exact_iff (h : chunkNum ≤ txt.length) :
    (∀ x ∈ examined txt, x.2 = hash (window txt x.1) chunkNum) ↔
      ∀ i, chunkNum ≤ i → i < txt.length → SameSign txt i := by
  have hrolled := @rolled_exact_iff _ (roll txt)
    (fun i => hash (txt.drop (i - chunkNum)) chunkNum) (txt.length - chunkNum) chunkNum
  rw [Nat.sub_self, List.drop_zero, Nat.add_sub_cancel' h] at hrolled
  have hfirst : hash txt chunkNum = hash (window txt (chunkNum - 1)) chunkNum := by
    rw [hash_window]
    rfl
  have hwindow : (∀ x ∈ rolled (roll txt) (txt.length - chunkNum) chunkNum (hash txt chunkNum),
      x.2 = hash (window txt x.1) chunkNum) ↔ ∀ i, chunkNum ≤ i → i < txt.length → SameSign txt i := by
    simp only [hash_window]
    rw [hrolled]
    exact forall_congr' (fun i => forall_congr' (fun hi => forall_congr' (fun hn => roll_eq_iff hi hn)))
  rw [examined, List.forall_mem_cons, hwindow]
  exact and_iff_right hfirst

theorem fingerprintPoint_keeps {s : TCPRE} {a txtHash : Int64} (h : s.hashmap a ≠ none) :
    (fingerprintPoint s txtHash).hashmap a ≠ none := by
  unfold fingerprintPoint
  split
  · by_cases ha : a = key txtHash
    · simp [ha]
    · simpa [ha] using h
  · exact h

theorem fingerprintPoint_puts (s : TCPRE) {txtHash : Int64} (h : txtHash &&& zeroValue = 0) :
    (fingerprintPoint s txtHash).hashmap (key txtHash) ≠ none := by
  unfold fingerprintPoint
  split
  · simp
  · simp_all

theorem foldl_keeps {s : TCPRE} {a : Int64} {l : List (Nat × Int64)} (h : s.hashmap a ≠ none) :
    (l.foldl (fun s x => fingerprintPoint s x.2) s).hashmap a ≠ none := by
  induction l generalizing s with
  | nil => exact h
  | cons x l ih => exact ih (fingerprintPoint_keeps h)

theorem foldl_puts (s : TCPRE) {x : Nat × Int64} {l : List (Nat × Int64)} (hx : x ∈ l)
    (h : x.2 &&& zeroValue = 0) :
    (l.foldl (fun s x => fingerprintPoint s x.2) s).hashmap (key x.2) ≠ none := by
  obtain ⟨pre, post, rfl⟩ := List.append_of_mem hx
  rw [List.foldl_append, List.foldl_cons]
  exact foldl_keeps (fingerprintPoint_puts _ h)

theorem tcpre_eq (h : chunkNum ≤ source.length) :
    tcpre source = .ok ((examined source).foldl (fun s x => fingerprintPoint s x.2) .new) := by
  rw [tcpre, calculateFingerprint_eq_foldl h]

theorem fingerprint_of_window_iff (source cache : List UInt16) (hs : chunkNum ≤ source.length)
    (hc : chunkNum ≤ cache.length) :
    (∀ s, calculateFingerprint source s =
      ((examined source).foldl (fun s x => fingerprintPoint s x.2) s, true)) ∧
    (∀ hashmap s, cacheLoop hashmap cache (hash cache chunkNum) s chunkNum (cache.length - chunkNum) =
      (examined cache).tail.foldl (fun s x => cachePoint hashmap s x.2) s) ∧
    (WindowKeyed source cache ↔
      ∀ txt ∈ [source, cache], ∀ i, chunkNum ≤ i → i < txt.length → SameSign txt i) := by
  have hlen : ∀ txt ∈ [source, cache], chunkNum ≤ txt.length := by simp [hs, hc]
  refine ⟨calculateFingerprint_eq_foldl hs, fun hashmap s => cacheLoop_eq_foldl .., ?_, ?_⟩
  · intro h txt htxt
    exact (examined_exact_iff (hlen txt htxt)).mp (h.values txt htxt)
  · intro h
    have hvalues (txt) (htxt : txt ∈ [source, cache]) :=
      (examined_exact_iff (hlen txt htxt)).mpr (h txt htxt)
    refine ⟨hvalues, ?_, ?_⟩
    · intro txt htxt txt' htxt' x hx y hy hxy
      rw [hvalues txt htxt x hx, hvalues txt' htxt' y hy, hxy]
    · rintro s hnew x hx hzero ⟨y, hy, hxy⟩
      have hval : x.2 = y.2 := by
        rw [hvalues cache (by simp) x hx, hvalues source (by simp) y hy, hxy]
      rw [tcpre_eq hs] at hnew
      cases hnew
      rw [hval] at hzero ⊢
      exact foldl_puts .new hy hzero

theorem fingerprint_of_window_letters :
    WindowKeyed (List.replicate 64 83) (List.replicate 65 83) := by
  refine (fingerprint_of_window_iff _ _ (by simp [chunkNum]) (by simp [chunkNum])).2.2.mpr ?_
  intro txt htxt i hi hn
  have hcache : SameSign (List.replicate 65 83) 64 := by
    unfold SameSign
    decide +kernel
  rcases List.mem_pair.mp htxt with rfl | rfl
  · rw [List.length_replicate] at hn
    exact absurd hn (Nat.not_lt.mpr hi)
  · rw [List.length_replicate] at hn
    rwa [show i = 64 from Nat.le_antisymm (Nat.lt_succ_iff.mp hn) hi]

theorem window_missed_behind_digit :
    let source : List UInt16 := List.replicate 64 97
    let cache : List UInt16 := 48 :: source
    let txtHash := roll cache (hash cache chunkNum) 64
    examined cache = [(63, hash cache chunkNum), (64, txtHash)] ∧
      window cache 64 = window source 63 ∧
      hash (window cache 64) chunkNum &&& zeroValue = 0 ∧
      txtHash ≠ hash (window cache 64) chunkNum ∧
      (calculateFingerprint source .new).1.hashmap (key txtHash) = none ∧
      ((cacheFingrprint cache (calculateFingerprint source .new).1).toOption.map (·.2)) = some 65 := by
  decide +kernel

end Wspack.RbJava
