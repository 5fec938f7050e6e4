import Mathlib.Logic.Function.Basic
import Mathlib.Algebra.Order.Ring.Nat

namespace Wspack.KernelHash

abbrev Bitmap := Nat → Bool

/-- `file_size / CHUNKSIZE / 8`, the bound `wr_file` passes to the search. -/
def bitmapSize : Nat := 10 * 1024 * 1024 * 1024 / 32 / 8

def scan (p : Nat → Bool) : Nat → Nat → Nat
  | 0, i => i
  | n + 1, i => if p i then i else scan p n (i + 1)

def findNext (p : Nat → Bool) (size offset : Nat) : Nat :=
  if size ≤ offset then size else scan p (size - offset) offset

def findNextBit (map : Bitmap) (size offset : Nat) : Nat := findNext map size offset
def findNextZeroBit (map : Bitmap) (size offset : Nat) : Nat :=
  findNext (fun i => !map i) size offset

def alignMask (x mask : Nat) : Nat := (x + mask) / (mask + 1) * (mask + 1)

/-- The `again` loop; every round moves `start` up, so `size + 1` rounds are enough. -/
def findZeroArea (map : Bitmap) (size nr mask : Nat) : Nat → Nat → Nat
  | 0, start => start + size + nr
  | fuel + 1, start =>
    let index := alignMask (findNextZeroBit map size start) mask
    let stop := index + nr
    if size < stop then stop
    else
      let i := findNextBit map stop index
      if i < stop then findZeroArea map size nr mask fuel (i + 1) else index

def bitmapFindNextZeroArea (map : Bitmap) (size start nr mask : Nat) : Nat :=
  findZeroArea map size nr mask (size + 1) start

def setBits (map : Bitmap) (start num : Nat) : Bitmap :=
  (List.range num).foldl (fun m i => Function.update m (start + i) true) map

def clearBits (map : Bitmap) (start num : Nat) : Bitmap :=
  (List.range num).foldl (fun m i => Function.update m (start + i) false) map

theorem foldl_update (b : Bool) (map : Bitmap) (start num i : Nat) :
    (List.range num).foldl (fun m i => Function.update m (start + i) b) map i =
      if start ≤ i ∧ i < start + num then b else map i := by
  induction num with
  | zero => simp
  | succ num ih =>
    rw [List.range_succ, List.foldl_append, List.foldl_cons, List.foldl_nil, Function.update_apply, ih]
    split_ifs <;> first | rfl | omega

theorem setBits_apply (map : Bitmap) (start num i : Nat) :
    setBits map start num i = if start ≤ i ∧ i < start + num then true else map i :=
  foldl_update true map start num i

theorem clearBits_apply (map : Bitmap) (start num i : Nat) :
    clearBits map start num i = if start ≤ i ∧ i < start + num then false else map i :=
  foldl_update false map start num i

theorem scan_pos {p : Nat → Bool} {i : Nat} (h : p i = true) (n : Nat) : scan p n i = i := by
  cases n <;> simp [scan, h]

theorem scan_neg {p : Nat → Bool} : ∀ (n i : Nat), (∀ j, i ≤ j → p j = false) → scan p n i = i + n
  | 0, i, _ => rfl
  | n + 1, i, h => by
    rw [scan, if_neg (by simp [h i le_rfl]), scan_neg n (i + 1) (fun j hj => h j (by omega))]
    omega

@[simp] theorem alignMask_zero (x : Nat) : alignMask x 0 = x := by simp [alignMask]

theorem findNextZeroBit_clear {map : Bitmap} {start : Nat} (h : ∀ i, start ≤ i → map i = false)
    (size : Nat) : findNextZeroBit map size start = min start size := by
  unfold findNextZeroBit findNext
  split
  · omega
  · rw [scan_pos (by simp [h start le_rfl])]; omega

theorem findNextBit_clear {map : Bitmap} {start : Nat} (h : ∀ i, start ≤ i → map i = false)
    (size : Nat) : findNextBit map size start = size := by
  unfold findNextBit findNext
  split
  · rfl
  · rw [scan_neg _ _ h]; omega

theorem bitmapFindNextZeroArea_clear {map : Bitmap} {start : Nat}
    (h : ∀ i, start ≤ i → map i = false) {size nr : Nat} (hnr : 0 < nr)
    (hle : bitmapFindNextZeroArea map size start nr 0 ≤ size) :
    bitmapFindNextZeroArea map size start nr 0 = start ∧ start + nr ≤ size := by
  have hz := findNextZeroBit_clear h size
  unfold bitmapFindNextZeroArea findZeroArea at hle ⊢
  simp only [alignMask_zero, hz] at hle ⊢
  by_cases hs : start ≤ size
  · rw [min_eq_left hs] at hle ⊢
    by_cases hstop : size < start + nr
    · rw [if_pos hstop] at hle; omega
    · rw [if_neg hstop, findNextBit_clear h, if_neg (by omega)]
      omega
  · rw [min_eq_right (by omega), if_pos (by omega)] at hle
    omega

end Wspack.KernelHash
