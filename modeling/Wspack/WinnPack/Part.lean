import Wspack.Lib.Winnow
import Wspack.Pack.Rolling

namespace Wspack.WinnPack

open Lib
open Wspack.Chunk (char residue)
open Wspack.Pack (R Q packHash partSet plen)

def windowLen : Nat := 16
def threshold : Nat := 16
def chunkNum : Nat := 16

def RM : Int64 := (List.range (chunkNum - 1)).foldl (fun rm _ => R.toInt64 * rm % Q) 1

def roll (playload : List UInt8) (txthash : UInt64) (i : Nat) : UInt64 :=
  let out := RM * (playload.getD (i - chunkNum) 0).toInt8.toInt64 % Q
  let txthash := (txthash + Q.toUInt64 - out.toUInt64) % Q.toUInt64
  (txthash * R.toInt64.toUInt64 + char (playload.getD i 0)) % Q.toUInt64

/-- The globals; `part` is the part of `index` in use. -/
structure Globals where
  window : Int
  minIndex : Nat
  minHash : UInt64
  part : List Nat
  countPacket : Nat
  deriving DecidableEq

def Globals.start : Globals where
  window := windowLen
  minIndex := 0
  minHash := 0
  part := []
  countPacket := 0

def slide (i : Nat) (txthash : UInt64) (s : Globals) : Globals :=
  let s := { s with window := s.window - 1 }
  if s.minHash ≤ txthash then { s with minIndex := i, minHash := txthash } else s

def rewind (s : Globals) : Globals := { s with window := windowLen, minIndex := 0, minHash := 0 }

/-- The two tests at the end of a block; the first one may change what the second one sees. -/
def accept (part : List Nat) (minIndex : Nat) : Except String (List Nat) := do
  let part ← if part.length = 2 then partSet part minIndex else .ok part
  if 2 < part.length ∧ (minIndex : Int) - (part.getLastD 0 : Nat) ≥ threshold then
    partSet part minIndex
  else .ok part

def partPoint (i : Nat) (txthash : UInt64) (s : Globals) : Except String Globals := do
  let s := slide i txthash s
  if s.window = 0 then
    let part ← accept s.part s.minIndex
    .ok (rewind { s with part })
  else .ok s

def firstPoint (txthash : UInt64) (s : Globals) : Except String Globals := do
  let s := slide (chunkNum - 1) txthash s
  if s.window = 0 then
    let part ← partSet s.part s.minIndex
    .ok (rewind { s with part })
  else .ok s

def calculateLoop (playload : List UInt8) : (n i : Nat) → UInt64 → Globals → Except String Globals
  | 0, _, _, s => .ok s
  | n + 1, i, txthash, s => do
    let txthash := roll playload txthash i
    let s ← partPoint i txthash s
    calculateLoop playload n (i + 1) txthash s

def finish (s : Globals) : Globals :=
  if s.minIndex = 0 ∧ s.minHash = 0 ∧ s.window = windowLen then s else rewind s

def packCalculatePart (playload : List UInt8) (s : Globals) : Except String Globals := do
  let txthash := packHash playload chunkNum
  let part ← partSet s.part s.countPacket
  let part ← partSet part playload.length
  let s ← firstPoint txthash { s with part, countPacket := s.countPacket + 1 }
  let s ← calculateLoop playload (playload.length - chunkNum) chunkNum txthash s
  .ok (finish s)

def packPayloads : List (List UInt8) → Globals → Except String (List Globals)
  | [], _ => .ok []
  | playload :: playloads, s => do
    let s ← packCalculatePart playload { s with part := [] }
    let states ← packPayloads playloads s
    .ok (s :: states)

def windowHash (playload : List UInt8) (i : Nat) : UInt64 :=
  packHash (playload.drop (i + 1 - chunkNum)) chunkNum

def partPoints (playload : List UInt8) : List Nat :=
  spaced threshold (blockMaxima (fun i => (windowHash playload i).toNat) (windowLen - 1) (chunkNum - 1)
    ((playload.length - (chunkNum - 1)) / windowLen))

variable {playload : List UInt8} {s : Globals} {sel part : List Nat} {a b i k m n : Nat}

def visit (playload : List UInt8) (s : Globals) (i : Nat) : Except String Globals :=
  partPoint i (windowHash playload i) s

theorem roll_window (hi : chunkNum ≤ i) (hn : i < playload.length) :
    roll playload (windowHash playload (i - 1)) i = windowHash playload i := by
  obtain ⟨k, rfl⟩ := Nat.exists_eq_add_of_le' hi
  have hRM : residue RM.toUInt64 = residue Chunk.R ^ (chunkNum - 1) :=
    Pack.residue_signed_pow (chunkNum - 1)
  have hprevious : k + chunkNum - 1 + 1 - chunkNum = k := by simp only [chunkNum]; omega
  have hnext : k + chunkNum + 1 - chunkNum = k + 1 := by omega
  have hstep := @Chunk.roll_packHash_drop RM.toUInt64 playload k (chunkNum - 1) hRM hn
  rw [windowHash, windowHash, hprevious, hnext, Pack.packHash_eq]
  simp only [roll, Nat.add_sub_cancel, Pack.Q_toUInt64, Pack.R_toUInt64, Pack.signed_out rfl]
  exact hstep

theorem calculateLoop_eq_foldlM (hi : chunkNum ≤ i) (hn : i + n = playload.length) (s : Globals) :
    calculateLoop playload n i (windowHash playload (i - 1)) s =
      (List.range' i n).foldlM (visit playload) s := by
  induction n generalizing i s with
  | zero => rfl
  | succ n ih =>
    rw [calculateLoop, roll_window hi (by omega), List.range'_succ, List.foldlM_cons]
    apply congrArg
    funext t
    exact ih (i := i + 1) (by omega) (by omega) t

theorem ok_bind {α β : Type} (x : α) (f : α → Except String β) : (Except.ok x >>= f) = f x := rfl

structure Fresh (s : Globals) : Prop where
  window : s.window = windowLen
  minIndex : s.minIndex = 0
  minHash : s.minHash = 0

theorem Fresh.rewind_eq (h : Fresh s) : rewind s = s := by
  obtain ⟨window, minIndex, minHash, part, countPacket⟩ := s
  obtain ⟨rfl, rfl, rfl⟩ := h
  rfl

theorem finish_eq (s : Globals) : finish s = rewind s := by
  unfold finish
  split
  · next h => rw [Fresh.rewind_eq ⟨h.2.2, h.1, h.2.1⟩]
  · rfl

theorem slide_window (txthash : UInt64) : (slide i txthash s).window = s.window - 1 := by
  unfold slide
  dsimp only
  split <;> rfl

theorem visit_inside (h : s.window ≠ 1) :
    visit playload s i = .ok (slide i (windowHash playload i) s) := by
  have hwindow : (slide i (windowHash playload i) s).window ≠ 0 := by
    rw [slide_window]
    omega
  rw [visit, partPoint]
  exact if_neg hwindow

theorem slide_part (txthash : UInt64) : (slide i txthash s).part = s.part := by
  unfold slide
  dsimp only
  split <;> rfl

theorem rewind_slide (txthash : UInt64) (part : List Nat) :
    rewind { slide i txthash s with part } = rewind { s with part } := by
  unfold slide
  dsimp only
  split <;> rfl

theorem visit_end (h : s.window = 1) : visit playload s i = (do
    let part ← accept s.part (slide i (windowHash playload i) s).minIndex
    .ok (rewind { s with part })) := by
  have hwindow : (slide i (windowHash playload i) s).window = 0 := by
    rw [slide_window, h]
    rfl
  rw [visit, partPoint, if_pos hwindow, slide_part]
  simp only [rewind_slide]

def inBlock (playload : List UInt8) (s : Globals) (i k : Nat) : Globals :=
  { s with
    window := windowLen - (k + 1)
    minIndex := lastMax (fun i => (windowHash playload i).toNat) i k
    minHash := windowHash playload (lastMax (fun i => (windowHash playload i).toNat) i k) }

theorem slide_fresh (h : Fresh s) : slide i (windowHash playload i) s = inBlock playload s i 0 := by
  have hle : s.minHash ≤ windowHash playload i := by
    rw [h.minHash, UInt64.le_iff_toNat_le]
    exact Nat.zero_le _
  rw [slide]
  dsimp only
  rw [if_pos hle, h.window, inBlock]
  rfl

theorem slide_inBlock : slide (i + (k + 1)) (windowHash playload (i + (k + 1)))
    (inBlock playload s i k) = inBlock playload s i (k + 1) := by
  have hwindow : (windowLen : Int) - (k + 1) - 1 = windowLen - ((k + 1 : Nat) + 1) := by omega
  rw [slide, inBlock, inBlock, lastMax]
  simp only [UInt64.le_iff_toNat_le, hwindow]
  split <;> rfl

theorem foldlM_inside (h : Fresh s) (hk : k < windowLen - 1) :
    (List.range' i (k + 1)).foldlM (visit playload) s = .ok (inBlock playload s i k) := by
  induction k with
  | zero =>
    have hne : s.window ≠ 1 := by
      rw [h.window]
      decide
    rw [List.range'_one, List.foldlM_cons, visit_inside hne, slide_fresh h]
    rfl
  | succ k ih =>
    have hne : (inBlock playload s i k).window ≠ 1 := by
      simp only [inBlock, windowLen] at hk ⊢
      omega
    rw [List.range'_1_concat, List.foldlM_append, ih (by omega), ok_bind, List.foldlM_cons,
      visit_inside hne, slide_inBlock]
    rfl

theorem foldlM_block (h : Fresh s) :
    (List.range' i windowLen).foldlM (visit playload) s = (do
      let part ← accept s.part (lastMax (fun i => (windowHash playload i).toNat) i (windowLen - 1))
      .ok { s with part }) := by
  have hone : (inBlock playload s i (windowLen - 2)).window = 1 := rfl
  have hrange : List.range' i windowLen = List.range' i (windowLen - 1) ++ [i + (windowLen - 1)] :=
    List.range'_1_concat
  have hinside : (List.range' i (windowLen - 1)).foldlM (visit playload) s =
      .ok (inBlock playload s i (windowLen - 2)) := foldlM_inside h (by decide)
  have hlast : (slide (i + (windowLen - 1)) (windowHash playload (i + (windowLen - 1)))
      (inBlock playload s i (windowLen - 2))).minIndex =
        lastMax (fun i => (windowHash playload i).toNat) i (windowLen - 1) := by
    rw [show windowLen - 1 = windowLen - 2 + 1 from rfl, slide_inBlock, inBlock]
  have hrewind (part : List Nat) : rewind { inBlock playload s i (windowLen - 2) with part } =
      { s with part } := Fresh.rewind_eq (s := { s with part }) ⟨h.window, h.minIndex, h.minHash⟩
  have hpart : (inBlock playload s i (windowLen - 2)).part = s.part := rfl
  rw [hrange, List.foldlM_append, hinside, ok_bind, List.foldlM_cons, visit_end hone, hlast, hpart]
  simp only [hrewind, List.foldlM_nil, bind_pure]

theorem firstPoint_eq (h : Fresh s) :
    firstPoint (windowHash playload (chunkNum - 1)) s = visit playload s (chunkNum - 1) := by
  have hne : s.window ≠ 1 := by
    rw [h.window]
    decide
  have hwindow : (slide (chunkNum - 1) (windowHash playload (chunkNum - 1)) s).window ≠ 0 := by
    rw [slide_window]
    omega
  rw [visit_inside hne, firstPoint]
  exact if_neg hwindow

def hold (part : List Nat) : Except String (List Nat) :=
  if part.length ≤ plen then .ok part else .error "error case happen in part_set."

theorem hold_fits (h : part.length ≤ plen) : hold part = .ok part := if_pos h

theorem hold_full (h : ¬part.length ≤ plen) :
    hold part = .error "error case happen in part_set." := if_neg h

theorem partSet_eq (part : List Nat) (data : Nat) : partSet part data = hold (part ++ [data]) := by
  rw [partSet, hold, List.length_append, List.length_singleton]
  by_cases h : plen ≤ part.length
  · rw [if_pos h, if_neg (by omega)]
  · rw [if_neg h, if_pos (by omega)]

theorem partSet_fits (h : part.length < plen) (data : Nat) :
    partSet part data = .ok (part ++ [data]) := if_neg (Nat.not_le.mpr h)

theorem accept_first (a b m : Nat) : accept [a, b] m = .ok [a, b, m] := by
  have hsame : ¬(2 < [a, b, m].length ∧
      (m : Int) - ([a, b, m].getLastD 0 : Nat) ≥ threshold) := by
    simp [threshold]
  rw [accept, if_pos (by rfl), partSet_fits (by simp [plen]), ok_bind]
  exact if_neg hsame

theorem accept_next {last : Nat} (hsel : sel.getLast? = some last) :
    accept (a :: b :: sel) m = if last + threshold ≤ m then partSet (a :: b :: sel) m
      else .ok (a :: b :: sel) := by
  have hlong : 2 < (a :: b :: sel).length := by
    cases sel with
    | nil => cases hsel
    | cons => simp
  have hlast : (a :: b :: sel).getLastD 0 = last := by
    rw [List.getLastD_eq_getLast?]
    simp [List.getLast?_cons, hsel]
  have htest : (2 < (a :: b :: sel).length ∧
      (m : Int) - ((a :: b :: sel).getLastD 0 : Nat) ≥ threshold) ↔ last + threshold ≤ m := by
    rw [hlast]
    omega
  rw [accept, if_neg hlong.ne', ok_bind]
  simp only [htest]

theorem accept_eq (h : (a :: b :: sel).length ≤ plen) :
    accept (a :: b :: sel) m = hold (a :: b :: takeSpaced threshold sel m) := by
  cases hsel : sel.getLast? with
  | none =>
    obtain rfl := List.getLast?_eq_none_iff.mp hsel
    rw [accept_first]
    exact (hold_fits (by simp [plen])).symm
  | some last =>
    rw [accept_next hsel, takeSpaced, hsel]
    dsimp only
    split
    · rw [partSet_eq]
      rfl
    · rw [hold_fits h]

theorem foldlM_accept (l : List Nat) (h : (a :: b :: sel).length ≤ plen) :
    l.foldlM accept (a :: b :: sel) = hold (a :: b :: l.foldl (takeSpaced threshold) sel) := by
  induction l generalizing sel with
  | nil => exact (hold_fits h).symm
  | cons m l ih =>
    rw [List.foldlM_cons, accept_eq h, List.foldl_cons]
    by_cases hroom : (a :: b :: takeSpaced threshold sel m).length ≤ plen
    · rw [hold_fits hroom, ok_bind, ih hroom]
    · have hmore : (takeSpaced threshold sel m).length ≤
          (l.foldl (takeSpaced threshold) (takeSpaced threshold sel m)).length :=
        length_foldl_takeSpaced
      have hfull : ¬(a :: b :: l.foldl (takeSpaced threshold)
          (takeSpaced threshold sel m)).length ≤ plen := by
        simp only [List.length_cons] at hroom ⊢
        omega
      rw [hold_full hroom, hold_full hfull]
      rfl

theorem rewind_inBlock (h : Fresh s) : rewind (inBlock playload s i k) = s :=
  h.rewind_eq

theorem foldlM_blocks (playload : List UInt8) (h : Fresh s) (hn : n < windowLen) :
    (do let t ← (List.range' i (windowLen * k + n)).foldlM (visit playload) s
        Except.ok (finish t)) =
      (do let part ← (blockMaxima (fun i => (windowHash playload i).toNat) (windowLen - 1) i k).foldlM
            accept s.part
          Except.ok { s with part }) := by
  induction k generalizing i s with
  | zero =>
    rw [Nat.mul_zero, Nat.zero_add, blockMaxima, List.foldlM_nil]
    cases n with
    | zero =>
      rw [List.range'_zero, List.foldlM_nil]
      exact congrArg Except.ok ((finish_eq s).trans h.rewind_eq)
    | succ n =>
      rw [foldlM_inside h (by omega), ok_bind, finish_eq, rewind_inBlock h]
      rfl
  | succ k ih =>
    have hlen : windowLen * (k + 1) + n = windowLen + (windowLen * k + n) := by
      rw [Nat.mul_succ]
      omega
    rw [hlen, ← List.range'_append_1, List.foldlM_append, foldlM_block h, blockMaxima,
      List.foldlM_cons, bind_assoc, bind_assoc, bind_assoc]
    apply congrArg
    funext part
    exact ih ⟨h.window, h.minIndex, h.minHash⟩

theorem firstPoint_calculateLoop (h : Fresh s) (hlen : chunkNum ≤ playload.length) :
    (do let s ← firstPoint (packHash playload chunkNum) s
        calculateLoop playload (playload.length - chunkNum) chunkNum (packHash playload chunkNum) s) =
      (List.range' (chunkNum - 1) (playload.length - (chunkNum - 1))).foldlM (visit playload) s := by
  have hrange : playload.length - (chunkNum - 1) = playload.length - chunkNum + 1 := by
    simp only [chunkNum] at hlen ⊢
    omega
  rw [show packHash playload chunkNum = windowHash playload (chunkNum - 1) from rfl,
    firstPoint_eq h, hrange, List.range'_succ, List.foldlM_cons]
  apply congrArg
  funext t
  exact calculateLoop_eq_foldlM le_rfl (by omega) t

theorem packCalculatePart_eq (h : Fresh s) (hlen : chunkNum ≤ playload.length) :
    packCalculatePart playload { s with part := [] } = (do
      let part ← hold (s.countPacket :: playload.length :: partPoints playload)
      .ok { s with part, countPacket := s.countPacket + 1 }) := by
  have hfresh : Fresh { s with
      part := [s.countPacket, playload.length]
      countPacket := s.countPacket + 1 } := ⟨h.window, h.minIndex, h.minHash⟩
  have hrun := foldlM_blocks (i := chunkNum - 1) (k := (playload.length - (chunkNum - 1)) / windowLen)
    playload hfresh (Nat.mod_lt (playload.length - (chunkNum - 1)) (by decide))
  rw [Nat.div_add_mod, ← firstPoint_calculateLoop hfresh hlen, bind_assoc,
    foldlM_accept _ (by simp [plen])] at hrun
  rw [packCalculatePart, partSet_fits (by simp [plen]), ok_bind, partSet_fits (by simp [plen]), ok_bind]
  exact hrun

theorem length_partPoints (playload : List UInt8) :
    windowLen * (partPoints playload).length ≤ playload.length := by
  have hspaced := length_spaced_le threshold (blockMaxima (fun i => (windowHash playload i).toNat)
    (windowLen - 1) (chunkNum - 1) ((playload.length - (chunkNum - 1)) / windowLen))
  rw [length_blockMaxima, ← partPoints] at hspaced
  have hblocks := Nat.mul_div_le (playload.length - (chunkNum - 1)) windowLen
  have hmul := Nat.mul_le_mul_left windowLen hspaced
  omega

theorem mem_partPoints (h : m ∈ partPoints playload) :
    ∃ b, chunkNum - 1 + windowLen * b + windowLen ≤ playload.length ∧
      IsLastMax (fun i => (windowHash playload i).toNat) (chunkNum - 1 + windowLen * b)
        (windowLen - 1) m := by
  obtain ⟨b, hb, hm⟩ := mem_blockMaxima (mem_of_mem_spaced h)
  have hblock := Nat.mul_le_mul_left windowLen (Nat.succ_le_of_lt hb)
  have hblocks := Nat.mul_div_le (playload.length - (chunkNum - 1)) windowLen
  rw [Nat.mul_succ] at hblock
  refine ⟨b, ?_, hm⟩
  have hpos : 0 < windowLen := by decide
  omega

def afterPayload (k : Nat) (playload : List UInt8) : Globals where
  window := windowLen
  minIndex := 0
  minHash := 0
  part := k :: playload.length :: partPoints playload
  countPacket := k + 1

variable {playloads : List (List UInt8)}

theorem packCalculatePart_fits (h : Fresh s) (hlen : chunkNum ≤ playload.length)
    (hroom : (partPoints playload).length + 2 ≤ plen) :
    packCalculatePart playload { s with part := [] } = .ok (afterPayload s.countPacket playload) := by
  have hfits : (s.countPacket :: playload.length :: partPoints playload).length ≤ plen := hroom
  rw [packCalculatePart_eq h hlen, hold_fits hfits, ok_bind, h.window, h.minIndex, h.minHash,
    afterPayload]

theorem packPayloads_fits (h : Fresh s) (hlen : ∀ p ∈ playloads, chunkNum ≤ p.length)
    (hroom : ∀ p ∈ playloads, (partPoints p).length + 2 ≤ plen) :
    packPayloads playloads s =
      .ok (playloads.mapIdx fun k p => afterPayload (s.countPacket + k) p) := by
  induction playloads generalizing s with
  | nil => rfl
  | cons playload playloads ih =>
    obtain ⟨hlen₁, hlen⟩ := List.forall_mem_cons.mp hlen
    obtain ⟨hroom₁, hroom⟩ := List.forall_mem_cons.mp hroom
    have hrest := ih (s := afterPayload s.countPacket playload) ⟨rfl, rfl, rfl⟩ hlen hroom
    rw [packPayloads, packCalculatePart_fits h hlen₁ hroom₁, ok_bind, hrest, ok_bind,
      List.mapIdx_cons]
    simp only [afterPayload, Nat.add_zero, Nat.add_assoc, Nat.add_comm 1]

theorem packPayloads_full (h : Fresh s) (hlen : ∀ p ∈ playloads, chunkNum ≤ p.length)
    (hfull : ∃ p ∈ playloads, plen < (partPoints p).length + 2) :
    packPayloads playloads s = .error "error case happen in part_set." := by
  induction playloads generalizing s with
  | nil => simp at hfull
  | cons playload playloads ih =>
    obtain ⟨hlen₁, hlen⟩ := List.forall_mem_cons.mp hlen
    by_cases hroom₁ : (partPoints playload).length + 2 ≤ plen
    · have hfull : ∃ p ∈ playloads, plen < (partPoints p).length + 2 := by
        obtain ⟨p, hp, hlt⟩ := hfull
        rcases List.mem_cons.mp hp with rfl | hp
        · omega
        · exact ⟨p, hp, hlt⟩
      rw [packPayloads, packCalculatePart_fits h hlen₁ hroom₁, ok_bind,
        ih ⟨rfl, rfl, rfl⟩ hlen hfull]
      rfl
    · have hnot : ¬(s.countPacket :: playload.length :: partPoints playload).length ≤ plen := hroom₁
      rw [packPayloads, packCalculatePart_eq h hlen₁, hold_full hnot]
      rfl

/-- After every payload the globals are back at their first values, and the part points are the last
largest ones of their blocks of the payload, at the distance `threshold` or more.  Only a payload with
more of them than `part` holds ends the program, and none of less than `2 ^ 16` bytes has so many. -/
theorem winnowing_part_points (playloads : List (List UInt8))
    (hlen : ∀ p ∈ playloads, chunkNum ≤ p.length) :
    ((∀ p ∈ playloads, (partPoints p).length + 2 ≤ plen) →
      packPayloads playloads .start = .ok (playloads.mapIdx fun k p =>
        { window := 16
          minIndex := 0
          minHash := 0
          part := k :: p.length :: partPoints p
          countPacket := k + 1 })) ∧
    ((∃ p ∈ playloads, plen < (partPoints p).length + 2) →
      packPayloads playloads .start = .error "error case happen in part_set.") ∧
    ∀ p ∈ playloads,
      (p.length < 2 ^ 16 → (partPoints p).length + 2 ≤ plen) ∧
      (∀ m ∈ partPoints p, 15 ≤ m ∧ m ≤ p.length - 1) ∧
      (partPoints p).Pairwise (fun x y => x + 16 ≤ y) ∧
      ∀ m ∈ partPoints p, ∃ b, 15 + 16 * b + 16 ≤ p.length ∧
        IsLastMax (fun i => (windowHash p i).toNat) (15 + 16 * b) 15 m := by
  refine ⟨fun hroom => ?_, packPayloads_full ⟨rfl, rfl, rfl⟩ hlen, fun p hp => ⟨fun h => ?_,
    fun m hm => ?_, spaced_pairwise threshold _, fun m hm => mem_partPoints hm⟩⟩
  · rw [packPayloads_fits ⟨rfl, rfl, rfl⟩ hlen hroom]
    simp only [Globals.start, Nat.zero_add]
    rfl
  · have := length_partPoints p
    simp only [windowLen, plen] at this ⊢
    omega
  · obtain ⟨b, hb, hmax⟩ := mem_partPoints hm
    have hleft := hmax.left
    have hright := hmax.right
    simp only [chunkNum, windowLen] at hb hleft hright
    omega

theorem winnowing_part_points_two :
    packPayloads [(List.range 63).map (fun i => .ofNat (5 * i)), List.replicate 31 7] .start =
      .ok [⟨16, 0, 0, [0, 63, 30, 61], 1⟩, ⟨16, 0, 0, [1, 31, 30], 2⟩] := by
  have hlen : ∀ p ∈ [(List.range 63).map (fun i => UInt8.ofNat (5 * i)), List.replicate 31 7],
      chunkNum ≤ p.length := by decide
  have hroom : ∀ p ∈ [(List.range 63).map (fun i => UInt8.ofNat (5 * i)), List.replicate 31 7],
      (partPoints p).length + 2 ≤ plen := by decide +kernel
  rw [(winnowing_part_points _ hlen).1 hroom]
  exact congrArg Except.ok (by decide +kernel)

end Wspack.WinnPack
