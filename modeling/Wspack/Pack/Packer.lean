import Wspack.KernelHash.Item
import Wspack.Pack.Bounds
import Wspack.Pack.Hashmap
import Wspack.Pack.Part

namespace Wspack.Pack

open KernelHash (Digest wrapInt)

def bucketsLen : Nat := 127997

/-- Only the sign of the result is documented. -/
def memcmp : List UInt8 → List UInt8 → Int
  | a :: s1, b :: s2 => if a = b then memcmp s1 s2 else (a.toNat : Int) - b.toNat
  | _, _ => 0

def hashmapModeCompare (a b : Digest) : Int := memcmp a.toList b.toList

def hashmapModeHash (data : Digest) : UInt32 :=
  (data.toList.foldl (fun hash c => (10 * hash + c.toUInt64) % bucketsLen.toUInt64) 0).toUInt32

inductive MemoryCall
  | chunk (c : ChunkCall)
  | push (key : Digest)

/-- The globals of `pack.c`; the map holds its keys by value. -/
structure Packer extends Parting where
  remainData : Chunk
  map : Hashmap Digest Digest
  saveLen : UInt64
  sumLen : UInt64
  /-- Ghost: the byte ranges handed to `calculate_sha`. -/
  hashed : List (List UInt8)
  /-- Ghost: what `part` held for each packet. -/
  partLog : List (List Nat)
  /-- Ghost: the calls on `remain_data` and the keys, in order. -/
  calls : List MemoryCall

def start (remainData : Chunk) (delayTime : Nat) : Packer where
  part := []
  delayTime := delayTime
  remainData := chunkClean remainData
  map := Hashmap.create bucketsLen hashmapModeCompare hashmapModeHash
  saveLen := 0
  sumLen := 0
  hashed := []
  partLog := []
  calls := []

section
variable (digest : List UInt8 → Digest)

/-- `calculate_sha` on `bytes` and the lookup after it, the same in every branch; `len` is
what the branch takes for their number. -/
def hashChunk (s : Packer) (bytes : List UInt8) (len : Int) : Packer :=
  let res := digest bytes
  let s := { s with hashed := s.hashed ++ [bytes] }
  match s.map.get res with
  | none => { s with map := s.map.set res res, calls := s.calls ++ [.push res] }
  | some _ => { s with saveLen := s.saveLen + UInt64.ofInt len }

/-- The chunk that ends at the first part point; `int len` takes the `unsigned long end`. -/
def firstChunk (s : Packer) (playload : List UInt8) (pp : Nat) : Packer :=
  let remainData := chunkMerge s.remainData playload 0 pp
  let len := wrapInt remainData.stop
  hashChunk digest { s with
    remainData := chunkClean remainData
    calls := s.calls ++ [.chunk (.merge 0 (Int64.ofNat pp)), .chunk .clean] } remainData.bytes len

def nextChunk (s : Packer) (playload : List UInt8) (i : Nat) : Packer :=
  let last := s.part.getD (i - 1) 0
  let pp := s.part.getD i 0
  let len := wrapInt (pp - last)
  hashChunk digest s (slice playload (last + 1) pp) len

def chunkLoop (playload : List UInt8) : (n i : Nat) → Packer → Packer
  | 0, _, s => s
  | n + 1, i, s =>
    chunkLoop playload n (i + 1)
      (if i = 2 then firstChunk digest s playload (s.part.getD i 0) else nextChunk digest s playload i)

def storeRest (s : Packer) (playload : List UInt8) (pp : Nat) : Packer :=
  if pp ≠ playload.length - 1 then
    { s with
      remainData := chunkStore s.remainData playload (pp + 1) (playload.length - 1)
      calls := s.calls ++ [.chunk (.store (Int64.ofNat (pp + 1)) (Int64.ofNat (playload.length - 1)))] }
  else s

def packSHA (playload : List UInt8) (s : Packer) : Except String Packer :=
  match s.part.length with
  | 0 | 1 => .error "Error case"
  | 2 => .ok { s with
    remainData := chunkMerge s.remainData playload 0 (playload.length - 1)
    calls := s.calls ++ [.chunk (.merge 0 (Int64.ofNat (playload.length - 1)))] }
  | 3 =>
    let pp := s.part.getD 2 0
    .ok (storeRest (firstChunk digest s playload pp) playload pp)
  | stop =>
    let s := chunkLoop digest playload (stop - 2) 2 s
    .ok (storeRest s playload (s.part.getD (stop - 1) 0))

def printPcap (s : Packer) (playload : List UInt8) : Except String Packer :=
  if chunkNum ≤ playload.length then do
    let parting ← packCalculatePart playload { s.toParting with part := [] }
    let s := { s with toParting := parting, partLog := s.partLog ++ [parting.part] }
    let s ← packSHA digest playload s
    .ok { s with sumLen := s.sumLen + playload.length.toUInt64 }
  else .ok s

end

theorem memcmp_eq_zero {a b : List UInt8} (h : a.length = b.length) : memcmp a b = 0 ↔ a = b := by
  induction a generalizing b with
  | nil => simp [memcmp, List.length_eq_zero_iff.mp h.symm]
  | cons x a ih =>
    cases b with
    | nil => cases h
    | cons y b =>
      rw [memcmp]
      by_cases hxy : x = y
      · rw [if_pos hxy, ih (by simpa using h), hxy, List.cons_inj_right]
      · have hne : x.toNat ≠ y.toNat := fun h => hxy (UInt8.toNat.inj h)
        rw [if_neg hxy]
        simp only [List.cons.injEq, hxy, false_and, iff_false]
        omega

theorem hashmapModeCompare_eq_zero {a b : Digest} : hashmapModeCompare a b = 0 ↔ a = b := by
  rw [hashmapModeCompare, memcmp_eq_zero (by simp), Vector.toList_inj]

end Wspack.Pack
