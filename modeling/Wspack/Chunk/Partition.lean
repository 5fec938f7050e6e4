import Mathlib.Data.ZMod.Basic
import Wspack.Lib.RollingHash
import Wspack.Lib.Scan

namespace Wspack.Chunk

open Lib

def chunkNum : Nat := 32
def chunkStep : Nat := 32
def zeroNum : Nat := 6
def R : UInt64 := 1048583

def Q : UInt64 := (List.range 60).foldl (fun q _ => 2 * q) 1
def RM : UInt64 := (List.range (chunkNum - 1)).foldl (fun rm _ => R * rm % Q) 1
def zeroValue : UInt64 := (List.range zeroNum).foldl (fun z _ => 2 * z) 1 - 1

def step : Nat := chunkStep - 1

/-- A `char` of the payload in an expression of type `unsigned long`. -/
def char (b : UInt8) : UInt64 := b.toInt8.toInt64.toUInt64

def packHash (key : List UInt8) (M : Nat) : UInt64 :=
  (key.take M).foldl (fun h b => (R * h + char b) % Q) 0

def roll (playload : List UInt8) (txthash : UInt64) (i : Nat) : UInt64 :=
  let txthash := (txthash + Q - RM * char (playload.getD (i - chunkNum) 0) % Q) % Q
  (txthash * R + char (playload.getD i 0)) % Q

/-- The loop of `calculate_partition` with `n` rounds to go; `put` is `kfifo_put`. -/
def partitionLoop (put : List Nat → Nat → List Nat) (playload : List UInt8) :
    (n i : Nat) → UInt64 → (delayTime : Nat) → List Nat → List Nat
  | 0, _, _, _, fifo => fifo
  | n + 1, i, txthash, delayTime, fifo =>
    let txthash := roll playload txthash i
    if delayTime = 0 then
      if txthash &&& zeroValue = 0 then
        partitionLoop put playload n (i + 1) txthash step (put fifo i)
      else partitionLoop put playload n (i + 1) txthash 0 fifo
    else partitionLoop put playload n (i + 1) txthash (delayTime - 1) fifo

def calculatePartition (put : List Nat → Nat → List Nat) (playload : List UInt8) : List Nat :=
  let txthash := packHash playload chunkNum
  let n := playload.length - chunkNum
  if txthash &&& zeroValue = 0 then
    partitionLoop put playload n chunkNum txthash step (put [] (chunkNum - 1))
  else partitionLoop put playload n chunkNum txthash 0 []

def unbounded (fifo : List Nat) (i : Nat) : List Nat := fifo ++ [i]

def cutPoints (playload : List UInt8) : List Nat := calculatePartition unbounded playload

def windowZero (playload : List UInt8) (i : Nat) : Bool :=
  packHash (playload.drop (i + 1 - chunkNum)) chunkNum &&& zeroValue == 0

def residue (x : UInt64) : ZMod (2 ^ 60) := (x.toNat : ZMod (2 ^ 60))

theorem Q_toNat : Q.toNat = 2 ^ 60 := by decide

theorem natCast_mod_word (a : Nat) : ((a % 2 ^ 64 : Nat) : ZMod (2 ^ 60)) = a := by
  rw [ZMod.natCast_eq_natCast_iff']
  exact Nat.mod_mod_of_dvd a (Dvd.intro (2 ^ 4) (by norm_num))

theorem residue_add (x y : UInt64) : residue (x + y) = residue x + residue y := by
  rw [residue, UInt64.toNat_add, natCast_mod_word, Nat.cast_add, residue, residue]

theorem residue_mul (x y : UInt64) : residue (x * y) = residue x * residue y := by
  rw [residue, UInt64.toNat_mul, natCast_mod_word, Nat.cast_mul, residue, residue]

theorem residue_sub (x y : UInt64) : residue (x - y) = residue x - residue y := by
  have h := residue_add (x - y) y
  rw [UInt64.sub_add_cancel] at h
  exact eq_sub_of_add_eq h.symm

theorem residue_mod (x : UInt64) : residue (x % Q) = residue x := by
  rw [residue, UInt64.toNat_mod, Q_toNat, ZMod.natCast_mod, residue]

theorem residue_Q : residue Q = 0 := by
  rw [residue, Q_toNat]
  exact ZMod.natCast_self _

theorem mod_Q_inj {x y : UInt64} (h : residue x = residue y) : x % Q = y % Q := by
  rw [residue, residue, ZMod.natCast_eq_natCast_iff'] at h
  apply UInt64.toNat.inj
  rw [UInt64.toNat_mod, UInt64.toNat_mod, Q_toNat, h]

theorem residue_RM : residue RM = residue R ^ (chunkNum - 1) := by
  have h : ∀ n, residue ((List.range n).foldl (fun rm _ => R * rm % Q) 1) = residue R ^ n := by
    intro n
    induction n with
    | zero => simp [residue]
    | succ n ih =>
      rw [List.range_succ, List.foldl_append, List.foldl_cons, List.foldl_nil, residue_mod,
        residue_mul, ih]
      exact (pow_succ' (residue R) n).symm
  exact h _

theorem residue_foldl (l : List UInt8) (h : UInt64) :
    residue (l.foldl (fun h b => (R * h + char b) % Q) h) =
      (l.map (fun b => residue (char b))).foldl (fun h x => residue R * h + x) (residue h) := by
  induction l generalizing h with
  | nil => rfl
  | cons b l ih =>
    rw [List.foldl_cons, ih, residue_mod, residue_add, residue_mul]
    rfl

theorem residue_packHash (key : List UInt8) (M : Nat) :
    residue (packHash key M) = polyHash (residue R) ((key.take M).map (fun b => residue (char b))) := by
  rw [packHash, residue_foldl]
  rfl

theorem mod_mod_Q (x : UInt64) : x % Q % Q = x % Q := mod_Q_inj (residue_mod x)

theorem packHash_mod (key : List UInt8) (M : Nat) : packHash key M % Q = packHash key M := by
  rcases List.eq_nil_or_concat (key.take M) with h | ⟨l, b, h⟩
  · rw [packHash, h, List.foldl_nil, UInt64.zero_mod]
  · rw [packHash, h, List.concat_eq_append, List.foldl_append, List.foldl_cons, List.foldl_nil,
      mod_mod_Q]

theorem windows_overlap {d : List UInt8} {k M : Nat} (h : k + (M + 1) < d.length) :
    ∃ l, l.length = M ∧ (d.drop k).take (M + 1) = d.getD k 0 :: l ∧
      (d.drop (k + 1)).take (M + 1) = l ++ [d.getD (k + (M + 1)) 0] := by
  refine ⟨(d.drop (k + 1)).take M, by simp; omega, ?_, ?_⟩
  · rw [List.drop_eq_getElem_cons (by omega), List.take_succ_cons]
    simp [List.getD_eq_getElem?_getD, List.getElem?_eq_getElem (show k < d.length by omega)]
  · rw [List.take_add_one, List.getElem?_drop, add_assoc, add_comm 1,
      List.getElem?_eq_getElem (by omega)]
    simp [List.getD_eq_getElem?_getD, List.getElem?_eq_getElem (show k + (M + 1) < d.length by omega)]

theorem roll_packHash_cons {rm : UInt64} {x y : UInt8} {l : List UInt8}
    (hrm : residue rm = residue R ^ l.length) :
    ((packHash (x :: l) (l.length + 1) + Q - rm * char x % Q) % Q * R + char y) % Q =
      packHash (l ++ [y]) (l.length + 1) := by
  have hfirst : (x :: l).take (l.length + 1) = x :: l := by simp
  have hnext : (l ++ [y]).take (l.length + 1) = l ++ [y] := List.take_of_length_le (by simp)
  rw [← packHash_mod (l ++ [y])]
  apply mod_Q_inj
  rw [residue_add, residue_mul, residue_mod, residue_sub, residue_add, residue_Q, residue_mod,
    residue_mul, hrm, residue_packHash, residue_packHash, hfirst, hnext, List.map_append,
    List.map_cons, List.map_cons, List.map_nil, ← polyHash_roll, List.length_map, add_zero]

theorem packHash_take (key : List UInt8) (M : Nat) : packHash (key.take M) M = packHash key M := by
  rw [packHash, packHash, List.take_take, Nat.min_self]

theorem roll_packHash_drop {rm : UInt64} {d : List UInt8} {k M : Nat}
    (hrm : residue rm = residue R ^ M) (h : k + (M + 1) < d.length) :
    ((packHash (d.drop k) (M + 1) + Q - rm * char (d.getD k 0) % Q) % Q * R +
      char (d.getD (k + (M + 1)) 0)) % Q = packHash (d.drop (k + 1)) (M + 1) := by
  obtain ⟨l, rfl, hfirst, hnext⟩ := windows_overlap h
  rw [← packHash_take (d.drop k), ← packHash_take (d.drop (k + 1)), hfirst, hnext]
  exact roll_packHash_cons hrm

theorem roll_packHash {playload : List UInt8} {k : Nat} (h : k + chunkNum < playload.length) :
    roll playload (packHash (playload.drop k) chunkNum) (k + chunkNum) =
      packHash (playload.drop (k + 1)) chunkNum := by
  rw [roll, Nat.add_sub_cancel]
  exact roll_packHash_drop residue_RM h

variable {put : List Nat → Nat → List Nat} {playload : List UInt8} {n i : Nat}

theorem roll_window (hi : chunkNum ≤ i) (hn : i < playload.length) :
    roll playload (packHash (playload.drop (i - chunkNum)) chunkNum) i =
      packHash (playload.drop (i + 1 - chunkNum)) chunkNum := by
  have h := @roll_packHash playload (i - chunkNum) (by omega)
  rwa [Nat.sub_add_cancel hi, ← Nat.sub_add_comm hi] at h

theorem partitionLoop_eq_scan (hi : chunkNum ≤ i) (hn : i + n = playload.length) (delayTime : Nat)
    (fifo : List Nat) :
    partitionLoop put playload n i (packHash (playload.drop (i - chunkNum)) chunkNum) delayTime fifo =
      (scan (windowZero playload) step delayTime i n).foldl put fifo := by
  induction n generalizing i delayTime fifo with
  | zero => rfl
  | succ n ih =>
    have hnext := @ih (i + 1) (by omega) (by omega)
    rw [partitionLoop, roll_window hi (by omega)]
    cases delayTime with
    | zero =>
      rw [scan, windowZero]
      by_cases hz : packHash (playload.drop (i + 1 - chunkNum)) chunkNum &&& zeroValue = 0
      · simp [hz, hnext]
      · simp [hz, hnext]
    | succ delayTime => simp [scan, hnext]

theorem calculatePartition_eq_scan (h : chunkNum ≤ playload.length) :
    calculatePartition put playload =
      (scan (windowZero playload) step 0 (chunkNum - 1)
        (playload.length - (chunkNum - 1))).foldl put [] := by
  have hloop := fun delayTime fifo => @partitionLoop_eq_scan put playload
    (playload.length - chunkNum) chunkNum le_rfl (by omega) delayTime fifo
  have hlen : playload.length - (chunkNum - 1) = playload.length - chunkNum + 1 := by
    simp only [chunkNum] at h ⊢
    omega
  have hwin : windowZero playload (chunkNum - 1) =
      (packHash playload chunkNum &&& zeroValue == 0) := rfl
  rw [hlen, scan, hwin, calculatePartition]
  rw [Nat.sub_self, List.drop_zero] at hloop
  by_cases hz : packHash playload chunkNum &&& zeroValue = 0
  · simp only [hz, if_true, hloop, beq_self_eq_true, List.foldl_cons]
    rfl
  · simp only [hz, if_false, hloop, beq_iff_eq]
    rfl

theorem cutPoints_eq_scan (h : chunkNum ≤ playload.length) : cutPoints playload =
    scan (windowZero playload) step 0 (chunkNum - 1) (playload.length - (chunkNum - 1)) := by
  have hput : ∀ l fifo : List Nat, l.foldl unbounded fifo = fifo ++ l := by
    intro l
    induction l with
    | nil => simp
    | cons x l ih => simp [ih, unbounded]
  rw [cutPoints, calculatePartition_eq_scan h, hput, List.nil_append]

theorem windowZero_drop {k j : Nat} (hj : chunkNum - 1 ≤ j) :
    windowZero playload (k + j) = windowZero (playload.drop k) j := by
  simp only [windowZero, List.drop_drop, chunkNum] at hj ⊢
  rw [show k + j + 1 - 32 = k + (j + 1 - 32) by omega]

end Wspack.Chunk
