import Mathlib.Data.List.Basic
import Mathlib.Data.List.Range

namespace Wspack.Pack

def chunkLen : Nat := 30000

/-- `stop` is the source's `end`. -/
structure Chunk where
  stop : Nat
  limit : Nat
  content : Nat → UInt8

def slice (src : List UInt8) (start stop : Nat) : List UInt8 :=
  (src.drop start).take (stop - start + 1)

def memcpy (content : Nat → UInt8) (dst : Nat) (bytes : List UInt8) : Nat → UInt8 :=
  fun i => if dst ≤ i then bytes.getD (i - dst) (content i) else content i

def memset (content : Nat → UInt8) (dst : Nat) (c : UInt8) (n : Nat) : Nat → UInt8 :=
  memcpy content dst (List.replicate n c)

structure Write where
  offset : Int
  count : Nat
  deriving DecidableEq

def Write.Inside (size : Nat) (w : Write) : Prop := 0 ≤ w.offset ∧ w.offset + w.count ≤ size

instance (size : Nat) (w : Write) : Decidable (w.Inside size) := inferInstanceAs (Decidable (_ ∧ _))

def chunkCreate (content : Nat → UInt8) : Chunk where
  stop := 0
  limit := chunkLen
  content := content

def chunkClean (ck : Chunk) : Chunk := { ck with stop := 0 }

def chunkStore (ck : Chunk) (src : List UInt8) (start stop : Nat) : Chunk :=
  if start ≤ stop then
    { ck with
      content := memcpy ck.content 0 (slice src start stop)
      stop := stop - start + 1 }
  else ck

def chunkMerge (ck : Chunk) (src : List UInt8) (start stop : Nat) : Chunk :=
  if start ≤ stop then
    let len := stop - start + 1
    let oldMax := ck.stop
    let ck := if ck.limit < ck.stop + len - 1 then
        { ck with
          limit := len + ck.stop - 1
          content := memset ck.content oldMax 0 (len + 1) }
      else ck
    { ck with
      content := memcpy ck.content ck.stop (slice src start stop)
      stop := ck.stop + len }
  else ck

def Chunk.bytes (ck : Chunk) : List UInt8 := (List.range ck.stop).map ck.content

variable {ck : Chunk} {src : List UInt8} {start stop : Nat}

theorem length_slice (h : start ≤ stop) (hs : stop < src.length) :
    (slice src start stop).length = stop - start + 1 := by
  simp only [slice, List.length_take, List.length_drop]
  omega

theorem take_append_slice (h : start ≤ stop) :
    src.take start ++ slice src start stop = src.take (stop + 1) := by
  rw [slice, ← List.take_add, show start + (stop - start + 1) = stop + 1 by omega]

@[simp] theorem length_bytes : ck.bytes.length = ck.stop := by simp [Chunk.bytes]

theorem map_memcpy (content : Nat → UInt8) (dst : Nat) (bytes : List UInt8) :
    (List.range (dst + bytes.length)).map (memcpy content dst bytes) =
      (List.range dst).map content ++ bytes := by
  rw [List.range_add, List.map_append, List.map_map]
  congr 1
  · refine List.map_congr_left (fun i hi => ?_)
    rw [memcpy, if_neg (by simpa using hi)]
  · refine List.ext_getElem (by simp) (fun i hi hi' => ?_)
    simp [memcpy, List.getD_eq_getElem?_getD, List.getElem?_eq_getElem hi']

theorem bytes_chunkStore (h : start ≤ stop) (hs : stop < src.length) :
    (chunkStore ck src start stop).bytes = slice src start stop := by
  have hcopy := map_memcpy ck.content 0 (slice src start stop)
  rw [length_slice h hs, Nat.zero_add] at hcopy
  rw [chunkStore, if_pos h, Chunk.bytes, hcopy]
  rfl

theorem stop_chunkMerge (h : start ≤ stop) :
    (chunkMerge ck src start stop).stop = ck.stop + (stop - start + 1) := by
  rw [chunkMerge, if_pos h]
  dsimp only
  split <;> rfl

theorem bytes_chunkMerge (h : start ≤ stop) (hs : stop < src.length) :
    (chunkMerge ck src start stop).bytes = ck.bytes ++ slice src start stop := by
  have hcopy := fun content => map_memcpy content ck.stop (slice src start stop)
  rw [length_slice h hs] at hcopy
  have hset : (List.range ck.stop).map (memset ck.content ck.stop 0 (stop - start + 1 + 1)) =
      (List.range ck.stop).map ck.content := by
    refine List.map_congr_left (fun i hi => ?_)
    rw [memset, memcpy, if_neg (by simpa using hi)]
  rw [chunkMerge, if_pos h]
  dsimp only
  split
  · exact (hcopy _).trans (by rw [hset]; rfl)
  · exact hcopy _

end Wspack.Pack
