import Wspack.Tcpre.Calculate

namespace Wspack.Tcpre

open Lib

def hits (c : Cursor) : List Visit → List Nat
  | [] => []
  | v :: vs =>
    if (c.advance v).state.recount ≠ c.state.recount then v.i :: hits (c.advance v) vs
    else hits (c.advance v) vs

variable {p : Payload} {c c' : Cursor} {v : Visit} {vs : List Visit} {i n : Nat} {s : State}

theorem advance_not_first (hv : v.first = false) : c.advance v = c.visit v := by
  rw [Cursor.advance, Cursor.enter, hv, if_neg Bool.false_ne_true]

theorem Visited.delay (h : Visited c v c') (hc : c.failed = false) :
    (c.delayTime ≠ 0 ∧ c'.state.recount = c.state.recount ∧ c'.delayTime = c.delayTime - 1) ∨
    (c.delayTime = 0 ∧ c'.state.recount = c.state.recount ∧ c'.delayTime = 0) ∨
    (c.delayTime = 0 ∧ c'.state.recount = c.state.recount + 1 ∧ c'.delayTime = chunkNum) := by
  cases h with
  | failed hf => simp [hc] at hf
  | delayed _ hd => exact .inl ⟨hd, rfl, rfl⟩
  | passed _ hd _ => exact .inr (.inl ⟨hd, rfl, hd⟩)
  | counted hex _ _ => exact .inr (.inr ⟨hex.due, rfl, rfl⟩)
  | differs hex _ _ => exact .inr (.inl ⟨hex.due, rfl, hex.due⟩)
  | stored hex _ _ => exact .inr (.inl ⟨hex.due, rfl, rfl⟩)
  | full hex _ _ => exact .inr (.inl ⟨hex.due, rfl, hex.due⟩)

theorem visit_recount (c : Cursor) (v : Visit) :
    (c.visit v).state.recount = c.state.recount ∨
      (c.visit v).state.recount = c.state.recount + 1 := by
  cases hc : c.failed with
  | true => simp [Cursor.visit, hc]
  | false =>
    rcases (visited c v).delay hc with h | h | h
    · exact .inl h.2.1
    · exact .inl h.2.1
    · exact .inr h.2.1

theorem recount_foldl (c : Cursor) (vs : List Visit) :
    (vs.foldl Cursor.advance c).state.recount = c.state.recount + (hits c vs).length := by
  induction vs generalizing c with
  | nil => rfl
  | cons v vs ih =>
    have hstep := visit_recount (c.enter v) v
    rw [enter_state, ← Cursor.advance] at hstep
    rw [List.foldl_cons, ih, hits]
    rcases hstep with hstep | hstep
    · rw [if_neg (by simp [hstep]), hstep]
    · rw [if_pos (by simp [hstep]), hstep, List.length_cons]
      omega

theorem hits_failed (hvs : ∀ v ∈ vs, v.first = false) (hc : c.failed = true) : hits c vs = [] := by
  induction vs with
  | nil => rfl
  | cons v vs ih =>
    obtain ⟨hv, hvs⟩ := List.forall_mem_cons.mp hvs
    have hstay : c.advance v = c := @foldl_failed c [v] (by simpa using hv) hc
    rw [hits, hstay, if_neg (by simp)]
    exact ih hvs

theorem exists_hits_eq_scan (hi : chunkNum ≤ i) (c : Cursor) :
    ∃ q, hits c (visitsFrom p i n) = scan q chunkNum c.delayTime i n := by
  induction n generalizing i c with
  | zero => exact ⟨fun _ => false, by simp [hits, visitsFrom, scan]⟩
  | succ n ih =>
    cases hc : c.failed with
    | true => exact ⟨fun _ => false, by rw [hits_failed (visitsFrom_not_first hi) hc, scan_false]⟩
    | false =>
      obtain ⟨q, hq⟩ := ih (hi.trans (Nat.le_succ i)) (c.visit ⟨p, i⟩)
      rw [visitsFrom_succ, hits, advance_not_first (not_first hi)]
      rcases (visited c ⟨p, i⟩).delay hc with ⟨hd, hre, hd'⟩ | ⟨hd, hre, hd'⟩ | ⟨hd, hre, hd'⟩
      · obtain ⟨d, hd⟩ := Nat.exists_eq_succ_of_ne_zero hd
        rw [if_neg (by simp [hre]), hq, hd', hd, Nat.succ_sub_one]
        exact ⟨q, by rw [scan]⟩
      · rw [if_neg (by simp [hre]), hq, hd', hd]
        obtain ⟨q', hq'⟩ := @exists_scan_succ q chunkNum i n false
        exact ⟨q', by simpa using hq'.symm⟩
      · rw [if_pos (by simp [hre]), hq, hd', hd]
        obtain ⟨q', hq'⟩ := @exists_scan_succ q chunkNum i n true
        exact ⟨q', by simpa using hq'.symm⟩

theorem exists_hits_visits (h : chunkNum ≤ p.len) (c : Cursor) :
    ∃ q, hits c (visits p) = scan q chunkNum 0 (chunkNum - 1) (p.len - (chunkNum - 1)) := by
  have hM : chunkNum - 1 + 1 = chunkNum := rfl
  have henter : c.enter ⟨p, chunkNum - 1⟩ = ⟨c.state, 0, false⟩ := rfl
  have hdelay := (visited ⟨c.state, 0, false⟩ ⟨p, chunkNum - 1⟩).delay rfl
  obtain ⟨q, hq⟩ := @exists_hits_eq_scan p chunkNum (p.len - chunkNum) le_rfl
    (Cursor.visit ⟨c.state, 0, false⟩ ⟨p, chunkNum - 1⟩)
  rw [visits_cons h, hits, Cursor.advance, henter, hq, windows_count h]
  rcases hdelay with ⟨hd, -, -⟩ | ⟨-, hre, hd'⟩ | ⟨-, hre, hd'⟩
  · exact absurd rfl hd
  · obtain ⟨q', hq'⟩ := @exists_scan_succ q chunkNum (chunkNum - 1) (p.len - chunkNum) false
    exact ⟨q', by simpa [hre, hd', hM] using hq'.symm⟩
  · obtain ⟨q', hq'⟩ := @exists_scan_succ q chunkNum (chunkNum - 1) (p.len - chunkNum) true
    exact ⟨q', by simpa [hre, hd', hM] using hq'.symm⟩

def windowRange (i : Nat) : Finset Nat := Finset.Icc (i + 1 - chunkNum) i

theorem hits_disjoint (h : chunkNum ≤ p.len) (c : Cursor) : (hits c (visits p)).Pairwise
    (fun i j => Disjoint (windowRange i) (windowRange j)) := by
  obtain ⟨q, hq⟩ := exists_hits_visits h c
  rw [hq]
  exact scan_pairwise.imp fun hij => disjoint_windowOf hij.le

theorem length_hits_le (h : chunkNum ≤ p.len) (c : Cursor) :
    chunkNum * (hits c (visits p)).length ≤ p.len := by
  obtain ⟨q, hq⟩ := exists_hits_visits h c
  have hle := @length_scan_le q chunkNum 0 (chunkNum - 1) (p.len - (chunkNum - 1))
  rw [← hq] at hle
  simp only [chunkNum] at hle h ⊢
  omega

theorem calculateHash_recount (h : chunkNum ≤ p.len) (s : State) :
    (calculateHash p s).1.recount = s.recount + (hits ⟨s, 0, false⟩ (visits p)).length :=
  (congrArg (fun r => r.1.recount) (calculateHash_eq_foldl h ⟨s, 0, false⟩)).trans
    (recount_foldl _ _)

theorem Visited.sumbytes (h : Visited c v c') : c'.state.sumbytes = c.state.sumbytes := by
  cases h <;> rfl

theorem foldl_sumbytes (c : Cursor) (vs : List Visit) :
    (vs.foldl Cursor.advance c).state.sumbytes = c.state.sumbytes := by
  induction vs generalizing c with
  | nil => rfl
  | cons v vs ih =>
    rw [List.foldl_cons, ih, Cursor.advance, (visited _ v).sumbytes, enter_state]

theorem calculateHash_sumbytes (h : chunkNum ≤ p.len) (s : State) :
    (calculateHash p s).1.sumbytes = s.sumbytes :=
  (congrArg (fun r => r.1.sumbytes) (calculateHash_eq_foldl h ⟨s, 0, false⟩)).trans
    (foldl_sumbytes _ _)

def readPackets (ps : List Payload) (s : State) : State := ps.foldl (fun s p => (readPacket p s).1) s

theorem readPacket_bound (p : Payload) (hs : chunkNum * s.recount ≤ s.sumbytes) :
    chunkNum * (readPacket p s).1.recount ≤ (readPacket p s).1.sumbytes := by
  unfold readPacket
  dsimp only
  split
  · have hle := length_hits_le ‹_› ⟨{ s with sumbytes := s.sumbytes + p.len }, 0, false⟩
    rw [calculateHash_recount ‹_›, calculateHash_sumbytes ‹_›, Nat.mul_add]
    exact Nat.add_le_add hs hle
  · exact hs.trans (Nat.le_add_right _ _)

theorem readPackets_bound (ps : List Payload) (hs : chunkNum * s.recount ≤ s.sumbytes) :
    chunkNum * (readPackets ps s).recount ≤ (readPackets ps s).sumbytes := by
  induction ps generalizing s with
  | nil => exact hs
  | cons p ps ih => exact ih (readPacket_bound p hs)

theorem exists_readLoop_eq (input : List (List UInt8)) (packet : Nat → UInt8) (s : State) :
    ∃ ps, (readLoop input packet s).1 = readPackets ps s := by
  induction input generalizing packet s with
  | nil => exact ⟨[], rfl⟩
  | cons source input ih =>
    rw [readLoop]
    dsimp only
    split
    · exact ⟨[], rfl⟩
    · split
      · obtain ⟨ps, hps⟩ := ih (fillPacket (source.take (strlen 0 (source ++ [0]) - 1)) packet)
          (readPacket ⟨fillPacket (source.take (strlen 0 (source ++ [0]) - 1)) packet, _⟩ s).1
        exact ⟨_ :: ps, hps⟩
      · exact ⟨[_], rfl⟩

theorem saving_le (hs : chunkNum * s.recount ≤ s.sumbytes) : s.saving ≤ s.sumbytes := by
  rw [State.saving, Nat.mul_comm]
  exact (Nat.mul_le_mul_right _ (Nat.sub_le _ _)).trans hs

/-- Whatever the table holds: the windows counted in a payload are disjoint, every increment of
`recount` is one of them, and the saving that `main` reports is never more than was read, after any
sequence of payloads and in particular when `read_file` returns. -/
theorem repeats_disjoint :
    (∀ (p : Payload) (s : State), chunkNum ≤ p.len →
      (hits ⟨s, 0, false⟩ (visits p)).Pairwise
        (fun i j => Disjoint (windowRange i) (windowRange j)) ∧
      (calculateHash p s).1.recount = s.recount + (hits ⟨s, 0, false⟩ (visits p)).length) ∧
    (∀ (ps : List Payload) (s : State), s.recount = 0 → s.sumbytes = 0 →
      64 * (readPackets ps s).recount ≤ (readPackets ps s).sumbytes ∧
      (readPackets ps s).saving ≤ (readPackets ps s).sumbytes) ∧
    (∀ (file : List UInt8) (packet : Nat → UInt8) (s : State), s.recount = 0 → s.sumbytes = 0 →
      64 * (readFile file packet s).1.recount ≤ (readFile file packet s).1.sumbytes ∧
      (readFile file packet s).1.saving ≤ (readFile file packet s).1.sumbytes) := by
  have hseq (ps : List Payload) (s : State) (hre : s.recount = 0) (hsum : s.sumbytes = 0) :
      64 * (readPackets ps s).recount ≤ (readPackets ps s).sumbytes ∧
        (readPackets ps s).saving ≤ (readPackets ps s).sumbytes := by
    have hs := @readPackets_bound s ps (by rw [hre, hsum, Nat.mul_zero])
    exact ⟨hs, saving_le hs⟩
  refine ⟨fun p s h => ⟨hits_disjoint h _, calculateHash_recount h s⟩, hseq, ?_⟩
  intro file packet s hre hsum
  obtain ⟨ps, hps⟩ := exists_readLoop_eq (fgets [] file) packet s
  rw [readFile, hps]
  exact hseq ps s hre hsum

theorem repeats_disjoint_zeros :
    (hits ⟨start, 0, false⟩ (visits ⟨fun _ => 0, 128⟩)).Pairwise
      (fun i j => Disjoint (windowRange i) (windowRange j)) ∧
    (readPackets [⟨fun _ => 0, 128⟩] start).recount = 1 ∧
    64 * (readPackets [⟨fun _ => 0, 128⟩] start).recount ≤
      (readPackets [⟨fun _ => 0, 128⟩] start).sumbytes :=
  ⟨(repeats_disjoint.1 ⟨fun _ => 0, 128⟩ start (by decide)).1, by decide +kernel,
    (repeats_disjoint.2.1 [⟨fun _ => 0, 128⟩] start rfl rfl).1⟩

end Wspack.Tcpre
