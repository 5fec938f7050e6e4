import Wspack.Chunk.Tiling

universe u

namespace Wspack.Chunk

open Lib

def maxPayload : Nat := 65535 - 40

/-- The greedy selection: each position has a window hash with its low bits zero, and it is at
least `CHUNKSTEP` after the one before. -/
def selected (playload : List UInt8) : List Nat :=
  scan (windowZero playload) step 0 (chunkNum - 1) (playload.length - (chunkNum - 1))

def Separated (playload : List UInt8) (n : Nat) : Prop :=
  ∃ l : List Nat, l.length = n ∧ l.Pairwise (fun x y => x + chunkStep ≤ y) ∧
    ∀ x ∈ l, chunkNum - 1 ≤ x ∧ x < playload.length ∧ windowZero playload x = true

variable {playload : List UInt8} {n k : Nat}

theorem separated_iff : Separated playload n ↔ n ≤ (selected playload).length := by
  constructor
  · rintro ⟨l, rfl, hsep, hl⟩
    apply length_le_length_scan (hsep.imp (fun h => ?_)) (fun x hx => ?_)
    · simp only [step, chunkStep] at h ⊢
      omega
    · have := hl x hx
      exact ⟨this.1, by omega, this.2.2⟩
  · intro h
    refine ⟨(selected playload).take n, List.length_take_of_le h, ?_, fun x hx => ?_⟩
    · apply List.Pairwise.sublist (List.take_sublist _ _)
      exact scan_pairwise.imp (fun h => by simp only [step, chunkStep] at h ⊢; omega)
    · have := mem_scan (List.mem_of_mem_take hx)
      exact ⟨this.1, by omega, this.2.2⟩

theorem calculatePartition_eq_take (h : chunkNum ≤ playload.length) :
    calculatePartition kfifoPut playload = (selected playload).take kfifoSize := by
  rw [calculatePartition_kfifo h, cutPoints_eq_scan h]
  rfl

theorem fifo_keeps_selected (h : chunkNum ≤ playload.length) :
    calculatePartition kfifoPut playload = selected playload ↔
      ¬Separated playload (kfifoSize + 1) := by
  rw [calculatePartition_eq_take h, List.take_eq_self_iff, separated_iff, Nat.not_le,
    Nat.lt_succ_iff]

theorem fifo_keeps_short (h : playload.length < kfifoSize * chunkStep + chunkNum) :
    ¬Separated playload (kfifoSize + 1) := by
  have := @length_scan_le (windowZero playload) step 0 (chunkNum - 1)
    (playload.length - (chunkNum - 1))
  rw [separated_iff, selected]
  simp only [kfifoSize, step, chunkStep, chunkNum] at h this ⊢
  omega

theorem fifo_keeps_short_zeros :
    chunkNum ≤ (List.replicate 100 (0 : UInt8)).length ∧ selected (List.replicate 100 0) = [31, 63, 95] ∧
      calculatePartition kfifoPut (List.replicate 100 0) = selected (List.replicate 100 0) :=
  ⟨by decide, by decide +kernel, (fifo_keeps_selected (by decide)).mpr (fifo_keeps_short (by decide))⟩

theorem packHash_zeros (n M : Nat) : packHash (List.replicate n 0) M = 0 := by
  have h : ∀ n, (List.replicate n (0 : UInt8)).foldl (fun h b => (R * h + char b) % Q) 0 = 0 := by
    intro n
    induction n with
    | zero => rfl
    | succ n ih =>
      rw [List.replicate_succ, List.foldl_cons, show (R * 0 + char 0) % Q = 0 by decide +kernel, ih]
  rw [packHash, List.take_replicate, h]

theorem windowZero_zeros (n i : Nat) : windowZero (List.replicate n 0) i = true := by
  rw [windowZero, List.drop_replicate, packHash_zeros]
  rfl

theorem separated_zeros (h : chunkNum - 1 + chunkStep * n < k + chunkStep) :
    Separated (List.replicate k 0) n := by
  refine ⟨(List.range n).map (fun j => chunkNum - 1 + chunkStep * j), by simp, ?_, ?_⟩
  · rw [List.pairwise_map]
    apply List.pairwise_lt_range.imp
    intro a b hab
    simp only [chunkNum, chunkStep]
    omega
  · intro x hx
    obtain ⟨j, hj, rfl⟩ := List.mem_map.mp hx
    rw [List.mem_range] at hj
    refine ⟨Nat.le_add_right _ _, ?_, windowZero_zeros _ _⟩
    rw [List.length_replicate]
    simp only [chunkNum, chunkStep] at h ⊢
    omega

theorem fifo_loses_cut_points :
    chunkNum < (List.replicate 32800 (0 : UInt8)).length ∧
      (List.replicate 32800 (0 : UInt8)).length ≤ maxPayload ∧
      calculatePartition kfifoPut (List.replicate 32800 0) ≠ selected (List.replicate 32800 0) := by
  have hlen := @List.length_replicate _ 32800 (0 : UInt8)
  refine ⟨by rw [hlen]; decide, by rw [hlen]; decide, fun h => ?_⟩
  have hsel : 1025 ≤ (selected (List.replicate 32800 0)).length :=
    separated_iff.mp (separated_zeros (by decide))
  rw [calculatePartition_eq_take (by rw [hlen]; decide), List.take_eq_self_iff] at h
  exact absurd (hsel.trans h) (by decide)

def endpoints (r : Nat × Nat) : Nat × Nat := (r.1, r.1 + r.2 - 1)

def logged (data : List UInt8) : List (Nat × Nat) :=
  getPartition (fun l start length => l ++ [endpoints (start, length)]) [] data

def covers (i : Nat) (r : Nat × Nat) : Bool := r.1 ≤ i && i ≤ r.2

variable {data : List UInt8} {pos stop i : Nat} {l : List (Nat × Nat)} {fifo : List Nat}

theorem logged_eq : logged data = (chunkRanges data).map endpoints := by
  have h : ∀ l m : List (Nat × Nat), l.foldl (fun l r => l ++ [endpoints r]) m =
      m ++ l.map endpoints := by
    intro l
    induction l with
    | nil => simp
    | cons r l ih => simp [ih]
  rw [logged, getPartition_eq]
  exact h _ _

theorem Tiles.len_pos (h : Tiles pos l stop) : ∀ r ∈ l, 0 < r.2 := by
  induction h with
  | nil => simp
  | cons hlen _ ih => exact List.forall_mem_cons.mpr ⟨hlen, ih⟩

theorem Tiles.ne_nil (h : Tiles pos l stop) (hlt : pos < stop) : l ≠ [] := by
  rintro rfl
  cases h
  omega

theorem Tiles.head (h : Tiles pos l stop) : ∀ r ∈ l.head?, r.1 = pos := by
  cases h with
  | nil => simp
  | cons => simp

theorem Tiles.last (h : Tiles pos l stop) : ∀ r ∈ l.getLast?, r.1 + r.2 = stop := by
  induction h with
  | nil => simp
  | @cons pos len stop l _ h ih =>
    cases l with
    | nil =>
      cases h
      simp
    | cons => simpa [List.getLast?_cons_cons] using ih

theorem Tiles.isChain (h : Tiles pos l stop) :
    (l.map endpoints).IsChain (fun r s => s.1 = r.2 + 1) := by
  induction h with
  | nil => exact .nil
  | @cons pos len stop l hlen h ih =>
    refine List.isChain_cons.mpr ⟨fun s hs => ?_, ih⟩
    rw [List.head?_map] at hs
    obtain ⟨r, hr, rfl⟩ := Option.map_eq_some_iff.mp hs
    have := h.head r hr
    simp only [endpoints]
    omega

theorem Tiles.countP_covers (h : Tiles pos l stop) :
    (l.map endpoints).countP (covers i) = if pos ≤ i ∧ i < stop then 1 else 0 := by
  induction h with
  | nil pos => rw [if_neg (by omega)]; rfl
  | @cons pos len stop l hlen h ih =>
    have := h.le
    have hc : covers i (endpoints (pos, len)) = true ↔ pos ≤ i ∧ i < pos + len := by
      rw [covers, Bool.and_eq_true, decide_eq_true_eq, decide_eq_true_eq, endpoints]
      omega
    simp only [List.map_cons, List.countP_cons, ih, hc]
    split_ifs <;> omega

theorem cutRanges_len (hpos : ∀ x ∈ fifo, pos + step ≤ x)
    (hgap : fifo.Pairwise (fun x y => x + step < y)) : ∀ r ∈ cutRanges pos fifo, chunkStep ≤ r.2 := by
  induction fifo generalizing pos with
  | nil => simp [cutRanges]
  | cons value fifo ih =>
    have hle := hpos value List.mem_cons_self
    obtain ⟨hlt, hrest⟩ := List.pairwise_cons.mp hgap
    refine List.forall_mem_cons.mpr ⟨?_, ih (fun x hx => ?_) hrest⟩
    · simp only [step, chunkStep] at hle ⊢
      omega
    · have := hlt x hx
      omega

theorem chunkRanges_len (h : chunkNum < data.length) :
    ∀ r ∈ (chunkRanges data).dropLast, chunkStep ≤ r.2 := by
  have hcut : ∀ r ∈ cutRanges 0 (calculatePartition kfifoPut data), chunkStep ≤ r.2 := by
    rw [calculatePartition_eq_take h.le]
    refine cutRanges_len (fun x hx => ?_) (scan_pairwise.sublist (List.take_sublist _ _))
    have := mem_scan (List.mem_of_mem_take hx)
    simp only [step, chunkStep, chunkNum] at this ⊢
    omega
  intro r hr
  rw [chunkRanges, if_pos h, rangesOf] at hr
  apply hcut
  split at hr
  · rw [List.append_nil] at hr
    exact List.mem_of_mem_dropLast hr
  · rwa [List.dropLast_concat] at hr

theorem getPartition_tiles (data : List UInt8) (h : chunkNum < data.length) :
    (∀ (σ : Type u) (buildHash : σ → Nat → Nat → σ) (s : σ), getPartition buildHash s data =
      (logged data).foldl (fun s r => buildHash s r.1 (r.2 - r.1 + 1)) s) ∧
    (∀ r ∈ logged data, r.1 ≤ r.2) ∧
    (logged data).head?.map Prod.fst = some 0 ∧
    (logged data).IsChain (fun r s => s.1 = r.2 + 1) ∧
    (logged data).getLast?.map Prod.snd = some (data.length - 1) ∧
    (∀ r ∈ (logged data).dropLast, 32 ≤ r.2 - r.1 + 1) ∧
    ∀ i < data.length, (logged data).countP (covers i) = 1 := by
  have ht := tiles_chunkRanges h
  have hlast := ht.last
  have hhead := ht.head
  have hlen := ht.len_pos
  obtain ⟨r, l, hl⟩ := List.exists_cons_of_ne_nil (ht.ne_nil (by omega))
  obtain ⟨t, ht'⟩ := Option.ne_none_iff_exists'.mp
    (mt List.getLast?_eq_none_iff.mp (ht.ne_nil (by omega)))
  rw [logged_eq]
  refine ⟨fun σ buildHash s => ?_, ?_, ?_, ht.isChain, ?_, ?_, fun i hi => ?_⟩
  · rw [getPartition_eq, List.foldl_map]
    apply List.foldl_ext
    intro s r hr
    have := hlen r hr
    rw [endpoints, show r.1 + r.2 - 1 - r.1 + 1 = r.2 by omega]
  · intro x hx
    obtain ⟨r, hr, rfl⟩ := List.mem_map.mp hx
    have := hlen r hr
    simp only [endpoints]
    omega
  · rw [hl] at hhead ⊢
    exact congrArg some (hhead r rfl)
  · rw [List.getLast?_map, ht']
    exact congrArg (fun n => some (n - 1)) (hlast t ht')
  · intro x hx
    rw [← List.map_dropLast] at hx
    obtain ⟨r, hr, rfl⟩ := List.mem_map.mp hx
    have := chunkRanges_len h r hr
    simp only [endpoints, chunkStep] at this ⊢
    omega
  · rw [ht.countP_covers, if_pos ⟨Nat.zero_le i, hi⟩]

theorem getPartition_tiles_zeros :
    chunkNum < (List.replicate 40 (0 : UInt8)).length ∧
      logged (List.replicate 40 0) = [(0, 31), (32, 39)] ∧
      ∀ i < 40, (logged (List.replicate 40 0)).countP (covers i) = 1 :=
  ⟨by decide, by decide +kernel,
    (getPartition_tiles.{0} (List.replicate 40 0) (by decide)).2.2.2.2.2.2⟩

end Wspack.Chunk
