import Wspack.Chunk.Partition

namespace Wspack.Pack

open Lib
open Wspack.Chunk (char)

def packetLen : Nat := 36000
def chunkNum : Nat := 32
def zeroNum : Nat := 6
def step : Nat := 32
def R : Int32 := 1048583
def plen : Nat := 21000

def Q : Int64 := (List.range 60).foldl (fun q _ => 2 * q) 1
def RM : Int64 := (List.range (chunkNum - 1)).foldl (fun rm _ => R.toInt64 * rm % Q) 1
def zeroValue : UInt64 := (List.range zeroNum).foldl (fun z _ => 2 * z) 1 - 1

def packHash (key : List UInt8) (M : Nat) : UInt64 :=
  (key.take M).foldl (fun h b => (R.toInt64.toUInt64 * h + char b) % Q.toUInt64) 0

def roll (playload : List UInt8) (txthash : UInt64) (i : Nat) : UInt64 :=
  let out := RM * (playload.getD (i - chunkNum) 0).toInt8.toInt64 % Q
  let txthash := (txthash + Q.toUInt64 - out.toUInt64) % Q.toUInt64
  (txthash * R.toInt64.toUInt64 + char (playload.getD i 0)) % Q.toUInt64

def checkDataPoint (playload : List UInt8) (index : Nat) : Bool :=
  if 1 ≤ index then
    let a := (playload.getD (index - 1) 0).toInt8.toInt
    let b := (playload.getD index 0).toInt8.toInt
    a == b || a == b + 1 || b == a + 1
  else false

/-- `count_packet`, which is never incremented. -/
def countPacket : Nat := 0

structure Parting where
  part : List Nat
  delayTime : Nat
  deriving DecidableEq

def partSet (point : List Nat) (data : Nat) : Except String (List Nat) :=
  if plen ≤ point.length then .error "error case happen in part_set." else .ok (point ++ [data])

def partPoint (playload : List UInt8) (txthash : UInt64) (i : Nat) (s : Parting) :
    Except String Parting :=
  if s.delayTime = 0 then
    if txthash &&& zeroValue = 0 ∨ checkDataPoint playload i then do
      let part ← partSet s.part i
      .ok { part, delayTime := step }
    else .ok s
  else .ok { s with delayTime := s.delayTime - 1 }

def calculateLoop (playload : List UInt8) :
    (n i : Nat) → UInt64 → Parting → Except String Parting
  | 0, _, _, s => .ok s
  | n + 1, i, txthash, s => do
    let txthash := roll playload txthash i
    let s ← partPoint playload txthash i s
    calculateLoop playload n (i + 1) txthash s

def packCalculatePart (playload : List UInt8) (s : Parting) : Except String Parting := do
  let txthash := packHash playload chunkNum
  let part ← partSet s.part countPacket
  let part ← partSet part playload.length
  let s ← partPoint playload txthash (chunkNum - 1) { s with part }
  calculateLoop playload (playload.length - chunkNum) chunkNum txthash s

def txthashAt (playload : List UInt8) : (k : Nat) → UInt64
  | 0 => packHash playload chunkNum
  | k + 1 => roll playload (txthashAt playload k) (chunkNum + k)

def cuts (playload : List UInt8) (i : Nat) : Bool :=
  txthashAt playload (i - (chunkNum - 1)) &&& zeroValue == 0 || checkDataPoint playload i

def partPoints (delayTime : Nat) (playload : List UInt8) : List Nat :=
  scan (cuts playload) step delayTime (chunkNum - 1) (playload.length - (chunkNum - 1))

variable {playload : List UInt8} {s : Parting} {n k delayTime : Nat} {part : List Nat}

theorem length_partPoints_le (h : playload.length ≤ packetLen) :
    (partPoints delayTime playload).length + 2 ≤ plen := by
  have := @length_scan_le (cuts playload) step delayTime (chunkNum - 1)
    (playload.length - (chunkNum - 1))
  simp only [partPoints, packetLen, plen, step, chunkNum] at *
  omega

theorem mem_partPoints {i : Nat} (h : i ∈ partPoints delayTime playload) :
    chunkNum - 1 ≤ i ∧ i < playload.length := by
  have := mem_scan h
  omega

theorem partPoints_increasing : (partPoints delayTime playload).Pairwise (· < ·) :=
  scan_pairwise.imp (fun h => lt_of_le_of_lt (Nat.le_add_right _ _) h)

theorem cuts_eq : cuts playload (chunkNum - 1 + k) =
    (txthashAt playload k &&& zeroValue == 0 || checkDataPoint playload (chunkNum - 1 + k)) := by
  rw [cuts, Nat.add_sub_cancel_left]

theorem partPoint_scan
    (h : (s.part ++ scan (cuts playload) step s.delayTime (chunkNum - 1 + k) (n + 1)).length ≤ plen) :
    ∃ t, partPoint playload (txthashAt playload k) (chunkNum - 1 + k) s = .ok t ∧
      t.part ++ scan (cuts playload) step t.delayTime (chunkNum - 1 + (k + 1)) n =
        s.part ++ scan (cuts playload) step s.delayTime (chunkNum - 1 + k) (n + 1) := by
  obtain ⟨part, delayTime⟩ := s
  cases delayTime with
  | succ delayTime => exact ⟨⟨part, delayTime⟩, rfl, rfl⟩
  | zero =>
    by_cases hc : cuts playload (chunkNum - 1 + k) = true
    · have hroom : ¬plen ≤ part.length := by
        simp [scan, hc] at h
        omega
      refine ⟨⟨part ++ [chunkNum - 1 + k], step⟩, ?_, by simp [scan, hc, add_assoc]⟩
      rw [cuts_eq, Bool.or_eq_true, beq_iff_eq] at hc
      simp only [partPoint, if_true, if_pos hc, partSet, if_neg hroom]
      rfl
    · refine ⟨⟨part, 0⟩, ?_, by simp [scan, hc, add_assoc]⟩
      rw [cuts_eq, Bool.or_eq_true, beq_iff_eq] at hc
      simp only [partPoint, if_true, if_neg hc]

theorem calculateLoop_scan
    (h : (s.part ++ scan (cuts playload) step s.delayTime (chunkNum - 1 + (k + 1)) n).length ≤ plen) :
    ∃ t, calculateLoop playload n (chunkNum + k) (txthashAt playload k) s = .ok t ∧
      t.part = s.part ++ scan (cuts playload) step s.delayTime (chunkNum - 1 + (k + 1)) n := by
  induction n generalizing s k with
  | zero => exact ⟨s, rfl, by simp [scan]⟩
  | succ n ih =>
    obtain ⟨t, ht, hpart⟩ := partPoint_scan h
    obtain ⟨u, hu, hupart⟩ := @ih t (k + 1) (hpart ▸ h)
    refine ⟨u, ?_, hupart.trans hpart⟩
    rw [calculateLoop]
    change (partPoint playload (txthashAt playload (k + 1)) (chunkNum + k) s >>= fun s =>
      calculateLoop playload n (chunkNum + k + 1) (txthashAt playload (k + 1)) s) = .ok u
    have hi : chunkNum + k = chunkNum - 1 + (k + 1) := by simp only [chunkNum]; omega
    rw [← hi] at ht
    rw [ht]
    exact hu

theorem packCalculatePart_eq (h : chunkNum ≤ playload.length) (h' : playload.length ≤ packetLen)
    (delayTime : Nat) : ∃ d, packCalculatePart playload ⟨[], delayTime⟩ =
      .ok ⟨countPacket :: playload.length :: partPoints delayTime playload, d⟩ := by
  have hlen : playload.length - (chunkNum - 1) = playload.length - chunkNum + 1 := by
    simp only [chunkNum] at h ⊢
    omega
  have hle := @length_partPoints_le playload delayTime h'
  rw [partPoints, hlen] at hle ⊢
  have hroom : ([countPacket, playload.length] ++ scan (cuts playload) step delayTime
      (chunkNum - 1 + 0) (playload.length - chunkNum + 1)).length ≤ plen := by
    rw [List.length_append, Nat.add_comm]
    exact hle
  obtain ⟨t, ht, hpart⟩ := @partPoint_scan playload ⟨[countPacket, playload.length], delayTime⟩
    (playload.length - chunkNum) 0 hroom
  obtain ⟨u, hu, hupart⟩ := @calculateLoop_scan playload t (playload.length - chunkNum) 0
    (hpart ▸ hroom)
  refine ⟨u.delayTime, ?_⟩
  change (partPoint playload (txthashAt playload 0) (chunkNum - 1) ⟨[countPacket, playload.length],
    delayTime⟩ >>= fun s => calculateLoop playload (playload.length - chunkNum) chunkNum
      (txthashAt playload 0) s) = _
  rw [Nat.add_zero] at ht hu
  rw [ht]
  refine hu.trans ?_
  obtain ⟨part, d⟩ := u
  rw [show part = _ from hupart.trans hpart]
  rfl

end Wspack.Pack
