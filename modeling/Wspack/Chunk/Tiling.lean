import Wspack.Chunk.Partition

universe u

namespace Wspack.Chunk

open Lib

def kfifoSize : Nat := 1024

def kfifoPut (fifo : List Nat) (i : Nat) : List Nat :=
  if fifo.length < kfifoSize then fifo ++ [i] else fifo

section
variable {σ : Type u} (buildHash : σ → (start length : Nat) → σ)

/-- The loop over the fifo; it returns the last `end_pos` too. -/
def fifoLoop : (fifo : List Nat) → (fifoI endPos : Nat) → σ → σ × Nat
  | [], _, endPos, s => (s, endPos)
  | value :: fifo, fifoI, endPos, s =>
    let startPos := if fifoI = 0 then 0 else endPos + 1
    fifoLoop fifo (fifoI + 1) value (buildHash s startPos (value + 1 - startPos))

def getPartition (s : σ) (data : List UInt8) : σ :=
  let length := data.length
  if chunkNum < length then
    let fifo := calculatePartition kfifoPut data
    let (s, endPos) := fifoLoop buildHash fifo 0 0 s
    if 0 < fifo.length then
      if endPos ≠ length - 1 then buildHash s (endPos + 1) (length - 1 + 1 - (endPos + 1)) else s
    else buildHash s 0 (length - 1 + 1 - 0)
  else s

end

def cutRanges (pos : Nat) : List Nat → List (Nat × Nat)
  | [] => []
  | value :: fifo => (pos, value + 1 - pos) :: cutRanges (value + 1) fifo

def cutEnd (pos : Nat) : List Nat → Nat
  | [] => pos
  | value :: fifo => cutEnd (value + 1) fifo

def rangesOf (length : Nat) (fifo : List Nat) : List (Nat × Nat) :=
  cutRanges 0 fifo ++
    if cutEnd 0 fifo = length then [] else [(cutEnd 0 fifo, length - cutEnd 0 fifo)]

def chunkRanges (data : List UInt8) : List (Nat × Nat) :=
  if chunkNum < data.length then rangesOf data.length (calculatePartition kfifoPut data) else []

inductive Tiles : Nat → List (Nat × Nat) → Nat → Prop
  | nil (pos : Nat) : Tiles pos [] pos
  | cons {pos len stop : Nat} {l : List (Nat × Nat)} :
      0 < len → Tiles (pos + len) l stop → Tiles pos ((pos, len) :: l) stop

variable {σ : Type u} {buildHash : σ → Nat → Nat → σ} {data : List UInt8} {pos stop mid : Nat}
  {l m : List (Nat × Nat)} {fifo : List Nat}

theorem Tiles.le (h : Tiles pos l stop) : pos ≤ stop := by
  induction h with
  | nil => exact le_rfl
  | cons _ _ ih => omega

theorem Tiles.append (h : Tiles pos l mid) (h' : Tiles mid m stop) : Tiles pos (l ++ m) stop := by
  induction h with
  | nil => exact h'
  | cons hpos _ ih => exact .cons hpos (ih h')

theorem Tiles.single (h : pos < stop) : Tiles pos [(pos, stop - pos)] stop := by
  refine .cons (by omega) ?_
  rw [Nat.add_sub_cancel' h.le]
  exact .nil stop

theorem tiles_cutRanges (hpos : ∀ x ∈ fifo, pos ≤ x) (hsorted : fifo.Pairwise (· < ·)) :
    Tiles pos (cutRanges pos fifo) (cutEnd pos fifo) := by
  induction fifo generalizing pos with
  | nil => exact .nil pos
  | cons value fifo ih =>
    have hle := hpos value List.mem_cons_self
    obtain ⟨hlt, hrest⟩ := List.pairwise_cons.mp hsorted
    refine .cons (by omega) ?_
    rw [show pos + (value + 1 - pos) = value + 1 by omega]
    exact ih (fun x hx => hlt x hx) hrest

theorem cutEnd_le {length : Nat} (hpos : pos ≤ length) (hlt : ∀ x ∈ fifo, x < length) :
    cutEnd pos fifo ≤ length := by
  induction fifo generalizing pos with
  | nil => exact hpos
  | cons value fifo ih =>
    exact ih (hlt value List.mem_cons_self) (fun x hx => hlt x (List.mem_cons_of_mem _ hx))

theorem tiles_rangesOf {length : Nat} (hlt : ∀ x ∈ fifo, x < length)
    (hsorted : fifo.Pairwise (· < ·)) : Tiles 0 (rangesOf length fifo) length := by
  have ht := tiles_cutRanges (fun x _ => Nat.zero_le x) hsorted
  have hle := cutEnd_le (Nat.zero_le length) hlt
  unfold rangesOf
  split
  · rwa [List.append_nil, ← ‹cutEnd 0 fifo = length›]
  · exact ht.append (.single (by omega))

theorem foldl_kfifoPut (l fifo : List Nat) (h : fifo.length ≤ kfifoSize) :
    l.foldl kfifoPut fifo = fifo ++ l.take (kfifoSize - fifo.length) := by
  induction l generalizing fifo with
  | nil => simp
  | cons x l ih =>
    rw [List.foldl_cons, kfifoPut]
    split
    · rw [ih _ (by simp; omega), List.append_assoc, List.length_append, List.length_singleton,
        show kfifoSize - fifo.length = kfifoSize - (fifo.length + 1) + 1 by omega, List.take_succ_cons]
      rfl
    · rw [ih _ h, show kfifoSize - fifo.length = 0 by omega]
      simp

theorem calculatePartition_kfifo (h : chunkNum ≤ data.length) :
    calculatePartition kfifoPut data = (cutPoints data).take kfifoSize := by
  rw [calculatePartition_eq_scan h, foldl_kfifoPut _ _ (Nat.zero_le _), cutPoints_eq_scan h]
  rfl

theorem tiles_chunkRanges (h : chunkNum < data.length) :
    Tiles 0 (chunkRanges data) data.length := by
  have hcuts := cutPoints_eq_scan h.le
  rw [chunkRanges, if_pos h, calculatePartition_kfifo h.le]
  refine tiles_rangesOf (fun x hx => ?_) (List.Pairwise.sublist (List.take_sublist _ _) ?_)
  · have hm := List.mem_of_mem_take hx
    rw [hcuts] at hm
    have := mem_scan hm
    omega
  · rw [hcuts]
    exact scan_pairwise.imp (fun h => by omega)

theorem fifoLoop_eq (fifoI endPos : Nat) (hpos : pos = if fifoI = 0 then 0 else endPos + 1) (s : σ) :
    fifoLoop buildHash fifo fifoI endPos s =
      ((cutRanges pos fifo).foldl (fun s r => buildHash s r.1 r.2) s,
        if fifo = [] then endPos else cutEnd pos fifo - 1) := by
  induction fifo generalizing pos fifoI endPos s with
  | nil => rfl
  | cons value fifo ih =>
    rw [fifoLoop, ← hpos, @ih (value + 1) (fifoI + 1) value (by simp)]
    simp only [cutRanges, List.foldl_cons, cutEnd, reduceCtorEq, if_false, Prod.mk.injEq, true_and]
    split
    · simp [‹fifo = []›, cutEnd]
    · rfl

theorem cutEnd_pos (pos value : Nat) (fifo : List Nat) : 0 < cutEnd pos (value :: fifo) := by
  induction fifo generalizing pos value with
  | nil => exact Nat.succ_pos value
  | cons value' fifo ih => exact ih (value + 1) value'

theorem getPartition_eq (s : σ) (data : List UInt8) :
    getPartition buildHash s data = (chunkRanges data).foldl (fun s r => buildHash s r.1 r.2) s := by
  by_cases h : chunkNum < data.length
  · have hloop := @fifoLoop_eq σ buildHash 0 (calculatePartition kfifoPut data) 0 0 rfl s
    simp only [getPartition, chunkRanges, h, if_true, hloop]
    cases hf : calculatePartition kfifoPut data with
    | nil =>
      have hne : 0 ≠ data.length := by omega
      simp [rangesOf, cutRanges, cutEnd, hne, Nat.sub_add_cancel (show 1 ≤ data.length by omega)]
    | cons value fifo =>
      have hpos := cutEnd_pos 0 value fifo
      simp only [rangesOf, List.foldl_append, List.length_cons, Nat.zero_lt_succ, reduceCtorEq,
        if_true, if_false]
      by_cases he : cutEnd 0 (value :: fifo) = data.length
      · rw [if_pos he, if_neg (by omega), List.foldl_nil]
      · rw [if_neg he, if_pos (by omega), List.foldl_cons, List.foldl_nil, Nat.sub_add_cancel hpos,
          Nat.sub_add_cancel (by omega)]
  · simp [getPartition, chunkRanges, h]

end Wspack.Chunk
