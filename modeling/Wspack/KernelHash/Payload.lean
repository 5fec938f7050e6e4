import Wspack.KernelHash.Item
import Wspack.Chunk.Tiling

namespace Wspack.KernelHash.Payload

open Chunk (chunkNum getPartition chunkRanges tiles_chunkRanges getPartition_eq Tiles)

/-- The memory from `skb->data` on, of which `len` bytes belong to the packet.  The header fields are as
the sender wrote them: `jpf_ip_rcv` runs before the kernel has looked at the header. -/
structure Skb where
  data : Nat → UInt8
  len : Nat

def Skb.ihl (skb : Skb) : Nat := (skb.data 0).toNat % 16

def Skb.totLen (skb : Skb) : Nat := (skb.data 2).toNat * 256 + (skb.data 3).toNat

def Skb.protocol (skb : Skb) : UInt8 := skb.data 9

def Skb.saddr (skb : Skb) : List UInt8 := [skb.data 12, skb.data 13, skb.data 14, skb.data 15]

def Skb.daddr (skb : Skb) : List UInt8 := [skb.data 16, skb.data 17, skb.data 18, skb.data 19]

def Skb.doff (skb : Skb) : Nat := (skb.data (skb.ihl * 4 + 12)).toNat / 16

/-- `jpf_ip_rcv` queues the packet; `reserveMem` are the free and the file pages. -/
def Skb.accepted (reserveMem : Nat) (skb : Skb) : Bool :=
  400 * 1024 * 1024 / 4 / 1024 ≤ reserveMem && skb.protocol == 6 &&
    skb.daddr != [139, 209, 90, 213] && skb.saddr != [139, 209, 90, 213]

def Skb.offset (skb : Skb) : Nat := skb.ihl * 4 + skb.doff * 4

/-- `data_len`, which is computed as an `int`, kept as a `size_t` and passed on as an `int`. -/
def Skb.length (skb : Skb) : Int :=
  wrapInt (((skb.totLen : Int) - skb.ihl * 4 - skb.doff * 4) % 2 ^ 64)

def Skb.playload (skb : Skb) : List UInt8 :=
  (List.range skb.length.toNat).map fun i => skb.data (skb.offset + i)

def partitionReads (length : Nat) : List Nat :=
  List.range chunkNum ++ (List.range' chunkNum (length - chunkNum)).flatMap fun i => [i - chunkNum, i]

/-- `build_hash` hashes and hands on every byte of a chunk, but passes over a short one. -/
def buildHash (reads : List Nat) (start length : Nat) : List Nat :=
  if length ≤ shaLen + 2 then reads else reads ++ List.range' start length

def payloadReads (data : List UInt8) : List Nat :=
  if chunkNum < data.length then partitionReads data.length ++ getPartition buildHash [] data else []

def Skb.reads (skb : Skb) : List Nat := (payloadReads skb.playload).map (skb.offset + ·)

theorem Skb.length_eq (skb : Skb) : skb.length = (skb.totLen : Int) - skb.offset := by
  have h2 := (skb.data 2).toNat_lt
  have h3 := (skb.data 3).toNat_lt
  have hdoff := (skb.data (skb.ihl * 4 + 12)).toNat_lt
  have hihl : skb.ihl < 16 := Nat.mod_lt _ (by decide)
  have hd : skb.doff < 16 := by rw [Skb.doff]; omega
  have ht : skb.totLen < 65536 := by rw [Skb.totLen]; omega
  rw [Skb.length, Skb.offset, wrapInt, Int.bmod_def]
  omega

theorem mem_partitionReads {length i : Nat} (h : chunkNum < length) (hi : i ∈ partitionReads length) :
    i < length := by
  rcases List.mem_append.mp hi with hi | hi
  · exact (List.mem_range.mp hi).trans h
  · obtain ⟨j, hj, hi⟩ := List.mem_flatMap.mp hi
    have := List.mem_range'_1.mp hj
    simp only [List.mem_cons, List.not_mem_nil, or_false] at hi
    omega

theorem tiles_le {pos stop : Nat} {l : List (Nat × Nat)} (h : Tiles pos l stop) :
    ∀ r ∈ l, r.1 + r.2 ≤ stop := by
  induction h with
  | nil => simp
  | cons _ htail ih => exact List.forall_mem_cons.mpr ⟨htail.le, ih⟩

theorem mem_foldl_buildHash {l : List (Nat × Nat)} {reads : List Nat} {i : Nat}
    (hi : i ∈ l.foldl (fun s r => buildHash s r.1 r.2) reads) :
    i ∈ reads ∨ ∃ r ∈ l, i < r.1 + r.2 := by
  induction l generalizing reads with
  | nil => exact .inl hi
  | cons r l ih =>
    rcases ih hi with hi | ⟨r', hr', hlt⟩
    · change i ∈ buildHash reads r.1 r.2 at hi
      rw [buildHash] at hi
      split at hi
      · exact .inl hi
      · rcases List.mem_append.mp hi with hi | hi
        · exact .inl hi
        · exact .inr ⟨r, List.mem_cons_self, (List.mem_range'_1.mp hi).2⟩
    · exact .inr ⟨r', List.mem_cons_of_mem _ hr', hlt⟩

theorem mem_payloadReads {data : List UInt8} {i : Nat} (hi : i ∈ payloadReads data) : i < data.length := by
  rw [payloadReads] at hi
  split at hi
  · rename_i h
    rcases List.mem_append.mp hi with hi | hi
    · exact mem_partitionReads h hi
    · rw [getPartition_eq] at hi
      rcases mem_foldl_buildHash hi with hi | ⟨r, hr, hlt⟩
      · cases hi
      · exact hlt.trans_le (tiles_le (tiles_chunkRanges h) r hr)
  · cases hi

theorem payload_in_packet_iff (skb : Skb) :
    ((∀ i : Nat, skb.offset ≤ i → (i : Int) < skb.offset + skb.length → i < skb.len) ∧
      ∀ i ∈ skb.reads, i < skb.len) ↔
      skb.totLen ≤ skb.len ∨ skb.totLen ≤ skb.ihl * 4 + skb.doff * 4 := by
  have hlength := skb.length_eq
  have hoffset : skb.offset = skb.ihl * 4 + skb.doff * 4 := rfl
  constructor
  · rintro ⟨hrange, -⟩
    by_contra hnot
    have := hrange (skb.totLen - 1) (by omega) (by omega)
    omega
  · intro h
    have hrange : ∀ i : Nat, skb.offset ≤ i → (i : Int) < skb.offset + skb.length → i < skb.len := by
      intro i hi hlt
      omega
    refine ⟨hrange, fun i hi => ?_⟩
    obtain ⟨j, hj, rfl⟩ := List.mem_map.mp hi
    have hlt := mem_payloadReads hj
    rw [Skb.playload, List.length_map, List.length_range] at hlt
    exact hrange _ (by omega) (by omega)

def oversized : Skb where
  data i := [0x45, 0, 0xff, 0xff, 0, 0, 0, 0, 64, 6, 0, 0, 10, 0, 0, 1, 10, 0, 0, 2,
    0x1f, 0x90, 0, 80, 0, 0, 0, 0, 0, 0, 0, 0, 0x50, 0x10].getD i 0
  len := 40

theorem payload_beyond_packet : oversized.accepted (2 ^ 20) = true ∧ oversized.offset = 40 ∧
    oversized.length = 65495 ∧ ∃ i ∈ oversized.reads, oversized.len ≤ i := by
  have hlength : oversized.length = 65495 := by decide
  refine ⟨by decide, by decide, hlength, 40, ?_, by decide⟩
  have hlong : chunkNum < oversized.playload.length := by
    rw [Skb.playload, List.length_map, List.length_range, hlength]
    decide
  refine List.mem_map.mpr ⟨0, ?_, by decide⟩
  rw [payloadReads, if_pos hlong]
  exact List.mem_append_left _ (List.mem_append_left _ (List.mem_range.mpr (by decide)))

end Wspack.KernelHash.Payload
