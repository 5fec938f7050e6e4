import Wspack.Lib.Run
import Wspack.Pack.Buffer
import Mathlib.Algebra.Order.Ring.Nat

/-! The sizes of the buffer of `chunk.c` in the machine's own words, and when every copy into it
stays inside the block that was allocated.  Reallocations succeed. -/

namespace Wspack.Pack

open Lib

/-- `size` is what `malloc` or `realloc` was asked for last. -/
structure Words where
  stop : UInt64
  limit : UInt64
  size : UInt64
  deriving DecidableEq

def lenOf (start stop : Int64) : Int32 := (stop - start + 1).toInt32

def sizeT (len : Int32) : UInt64 := len.toInt64.toUInt64

namespace Words

def chunkCreate : Words where
  stop := 0
  limit := UInt64.ofNat chunkLen
  size := UInt64.ofNat chunkLen

def chunkClean (ck : Words) : Words × List Write := ({ ck with stop := 0 }, [])

def chunkStore (ck : Words) (start stop : Int64) : Words × List Write :=
  let len := lenOf start stop
  if start ≤ stop then ({ ck with stop := sizeT len }, [⟨0, (sizeT len).toNat⟩]) else (ck, [])

def chunkMerge (ck : Words) (start stop : Int64) : Words × List Write :=
  let len := lenOf start stop
  let oldMax := ck.stop
  if start ≤ stop then
    let (ck, cleared) := if ck.limit < ck.stop - 1 + sizeT len then
        let limit := sizeT len + ck.stop - 1
        ({ ck with limit, size := limit }, [⟨oldMax.toNat, (sizeT (len + 1)).toNat⟩])
      else (ck, [])
    ({ ck with stop := ck.stop + sizeT len }, cleared ++ [⟨ck.stop.toNat, (sizeT len).toNat⟩])
  else (ck, [])

end Words

inductive ChunkCall
  | clean
  | store (start stop : Int64)
  | merge (start stop : Int64)

def ChunkCall.Proper : ChunkCall → Prop
  | .clean => True
  | .store start stop => 0 ≤ start ∧ start ≤ stop
  | .merge start stop => 0 ≤ start ∧ start ≤ stop

def Words.call (ck : Words) : ChunkCall → Words × List Write
  | .clean => ck.chunkClean
  | .store start stop => ck.chunkStore start stop
  | .merge start stop => ck.chunkMerge start stop

def Words.next (ck : Words) (c : ChunkCall) : Words := (ck.call c).1

/-- The writes of a call lie in the block, and `end` is at most `limit`, its size. -/
def Words.Kept (ck : Words) (c : ChunkCall) : Prop :=
  (∀ w ∈ (ck.call c).2, w.Inside (ck.call c).1.size.toNat) ∧
    (ck.call c).1.stop ≤ (ck.call c).1.limit ∧ (ck.call c).1.limit = (ck.call c).1.size

def Words.Fits (ck : Words) : ChunkCall → Prop
  | .clean => True
  | .store start stop => sizeT (lenOf start stop) ≤ ck.limit
  | .merge start stop => ck.stop.toNat + (sizeT (lenOf start stop)).toNat ≤ ck.limit.toNat

instance : DecidablePred ChunkCall.Proper
  | .clean => inferInstanceAs (Decidable True)
  | .store _ _ => inferInstanceAs (Decidable (_ ∧ _))
  | .merge _ _ => inferInstanceAs (Decidable (_ ∧ _))

instance (ck : Words) : DecidablePred ck.Fits
  | .clean => inferInstanceAs (Decidable True)
  | .store _ _ => inferInstanceAs (Decidable (_ ≤ _))
  | .merge _ _ => inferInstanceAs (Decidable (_ ≤ _))

instance (ck : Words) : DecidablePred ck.Kept := fun _ => inferInstanceAs (Decidable (_ ∧ _ ∧ _))

variable {ck : Words} {start stop : Int64} {c : ChunkCall} {calls : List ChunkCall}

theorem sizeT_eq_zero {len : Int32} (h : sizeT len = 0) : len = 0 := by
  have h64 : len.toInt64 = 0 := by
    rw [← Int64.toInt64_toUInt64 len.toInt64]
    exact congrArg UInt64.toInt64 h
  apply Int32.toInt.inj
  rw [← Int32.toInt_toInt64, h64]
  rfl

theorem toNat_sub_one_add (a b : UInt64) :
    (a - 1 + b).toNat = (a.toNat + b.toNat + 18446744073709551615) % 18446744073709551616 := by
  rw [UInt64.toNat_add, UInt64.toNat_sub, show (1 : UInt64).toNat = 1 from rfl]
  omega

namespace Words

theorem chunkMerge_grow (hle : start ≤ stop)
    (h : ck.limit < ck.stop - 1 + sizeT (lenOf start stop)) :
    ck.chunkMerge start stop =
      ({ stop := ck.stop + sizeT (lenOf start stop)
         limit := ck.stop - 1 + sizeT (lenOf start stop)
         size := ck.stop - 1 + sizeT (lenOf start stop) },
        [⟨ck.stop.toNat, (sizeT (lenOf start stop + 1)).toNat⟩,
          ⟨ck.stop.toNat, (sizeT (lenOf start stop)).toNat⟩]) := by
  have hlimit : sizeT (lenOf start stop) + ck.stop - 1 = ck.stop - 1 + sizeT (lenOf start stop) := by
    rw [UInt64.add_comm, UInt64.sub_eq_add_neg, UInt64.sub_eq_add_neg, UInt64.add_assoc,
      UInt64.add_assoc, UInt64.add_comm (sizeT _)]
  simp only [chunkMerge, if_pos hle, if_pos h, hlimit]
  rfl

theorem chunkMerge_keep (hle : start ≤ stop)
    (h : ¬ck.limit < ck.stop - 1 + sizeT (lenOf start stop)) :
    ck.chunkMerge start stop = ({ ck with stop := ck.stop + sizeT (lenOf start stop) },
      [⟨ck.stop.toNat, (sizeT (lenOf start stop)).toNat⟩]) := by
  simp only [chunkMerge, if_pos hle, if_neg h]
  rfl

theorem call_limit (h : ck.limit = ck.size) : (ck.call c).1.limit = (ck.call c).1.size := by
  cases c with
  | clean => exact h
  | store start stop =>
    simp only [call, chunkStore]
    split <;> exact h
  | merge start stop =>
    by_cases hle : start ≤ stop
    · by_cases hg : ck.limit < ck.stop - 1 + sizeT (lenOf start stop)
      · rw [call, chunkMerge_grow hle hg]
      · rw [call, chunkMerge_keep hle hg]
        exact h
    · rw [call, chunkMerge, if_neg hle]
      exact h

theorem grow_fits (h : ck.stop.toNat + (sizeT (lenOf start stop)).toNat ≤
      (ck.stop - 1 + sizeT (lenOf start stop)).toNat) :
    ck.stop = 0 ∧ sizeT (lenOf start stop) = 0 := by
  have hg := toNat_sub_one_add ck.stop (sizeT (lenOf start stop))
  have := ck.stop.toNat_lt
  have := (sizeT (lenOf start stop)).toNat_lt
  constructor
  · apply UInt64.toNat.inj
    rw [UInt64.toNat_zero]
    omega
  · apply UInt64.toNat.inj
    rw [UInt64.toNat_zero]
    omega

theorem kept_merge_iff (h : ck.limit = ck.size) (hle : start ≤ stop) :
    ck.Kept (.merge start stop) ↔ ck.Fits (.merge start stop) := by
  by_cases hg : ck.limit < ck.stop - 1 + sizeT (lenOf start stop)
  · rw [Kept, call, chunkMerge_grow hle hg]
    constructor
    · intro hk
      have hw := (hk.1 ⟨ck.stop.toNat, (sizeT (lenOf start stop)).toNat⟩ (by simp)).2
      obtain ⟨hs, hn⟩ := grow_fits (Int.ofNat_le.mp hw)
      rw [Fits, hs, hn]
      exact Nat.zero_le _
    · intro hf
      obtain ⟨hs, hn⟩ := grow_fits (hf.trans (UInt64.lt_iff_toNat_lt.mp hg).le)
      rw [hs, hn, sizeT_eq_zero hn]
      decide
  · rw [Kept, call, chunkMerge_keep hle hg]
    constructor
    · intro hk
      have hw := (hk.1 ⟨ck.stop.toNat, (sizeT (lenOf start stop)).toNat⟩ (by simp)).2
      rw [← h] at hw
      exact Int.ofNat_le.mp hw
    · intro hf
      refine ⟨fun w hw => ?_, ?_, h⟩
      · rw [List.mem_singleton.mp hw, ← h]
        exact ⟨Int.natCast_nonneg _, Int.ofNat_le.mpr hf⟩
      · rw [UInt64.le_iff_toNat_le, UInt64.toNat_add]
        exact (Nat.mod_le _ _).trans hf

theorem kept_iff_fits (h : ck.limit = ck.size) (hc : c.Proper) : ck.Kept c ↔ ck.Fits c := by
  cases c with
  | clean => simp [Kept, Fits, call, chunkClean, h]
  | store start stop =>
    rw [Kept, call, chunkStore, if_pos hc.2]
    simp [Fits, Write.Inside, h, UInt64.le_iff_toNat_le]
  | merge start stop => exact kept_merge_iff h hc.2

theorem chunk_in_bounds (calls : List ChunkCall) (h : ∀ c ∈ calls, c.Proper) :
    Along next Kept chunkCreate calls ↔ Along next Fits chunkCreate calls :=
  along_iff (fun _ _ hc hs => kept_iff_fits hs hc) (fun _ _ _ hs _ => call_limit hs) rfl h

theorem chunk_in_bounds_filled :
    Along next Kept chunkCreate [.store 0 99, .merge 0 29899, .clean, .merge 0 29999] :=
  (chunk_in_bounds _ (by decide)).mpr (by decide +kernel)

theorem chunk_out_of_bounds : (∀ c ∈ [ChunkCall.merge 0 30000], c.Proper) ∧
    ¬Along next Kept chunkCreate [.merge 0 30000] := by
  decide +kernel

end Words

structure Agrees (b : Chunk) (ck : Words) : Prop where
  stop : ck.stop.toNat = b.stop
  limit : ck.limit.toNat = b.limit

variable {b : Chunk} {src : List UInt8} {i j : Nat}

theorem sizeT_lenOf (hle : i ≤ j) (hj : j + 1 < 2 ^ 31) :
    (sizeT (lenOf (Int64.ofNat i) (Int64.ofNat j))).toNat = j - i + 1 := by
  have hlong : Int64.ofNat j - Int64.ofNat i + 1 = Int64.ofNat (j - i + 1) := by
    rw [← Int64.ofNat_sub j i hle, Int64.ofNat_add]
    rfl
  have hint : (Int64.ofNat (j - i + 1)).toInt32.toInt64 = Int64.ofNat (j - i + 1) := by
    apply Int64.toInt.inj
    rw [Int32.toInt_toInt64, Int64.toInt_toInt32, Int64.toInt_ofNat_of_lt (by omega),
      Int.bmod_eq_of_le] <;> omega
  rw [lenOf, hlong, sizeT, hint, Int64.toUInt64_ofNat', UInt64.toNat_ofNat_of_lt']
  simp only [UInt64.size]
  omega

theorem ofNat_le_ofNat (hle : i ≤ j) (hj : j + 1 < 2 ^ 31) : Int64.ofNat i ≤ Int64.ofNat j := by
  rw [Int64.le_iff_toInt_le, Int64.toInt_ofNat_of_lt (by omega), Int64.toInt_ofNat_of_lt (by omega)]
  omega

theorem Agrees.store (h : Agrees b ck) (hle : i ≤ j) (hj : j + 1 < 2 ^ 31) :
    Agrees (chunkStore b src i j) (ck.chunkStore (Int64.ofNat i) (Int64.ofNat j)).1 := by
  rw [chunkStore, if_pos hle, Words.chunkStore, if_pos (ofNat_le_ofNat hle hj)]
  exact ⟨sizeT_lenOf hle hj, h.limit⟩

theorem Agrees.merge (h : Agrees b ck) (hle : i ≤ j) (hj : j + 1 < 2 ^ 31)
    (hroom : b.stop + (j - i + 1) < 2 ^ 64) :
    Agrees (chunkMerge b src i j) (ck.chunkMerge (Int64.ofNat i) (Int64.ofNat j)).1 := by
  have hlen := sizeT_lenOf hle hj
  have hsum := toNat_sub_one_add ck.stop (sizeT (lenOf (Int64.ofNat i) (Int64.ofNat j)))
  rw [hlen, h.stop] at hsum
  have hgrow : (ck.stop - 1 + sizeT (lenOf (Int64.ofNat i) (Int64.ofNat j))).toNat =
      b.stop + (j - i + 1) - 1 := by
    omega
  have hstop : (ck.stop + sizeT (lenOf (Int64.ofNat i) (Int64.ofNat j))).toNat =
      b.stop + (j - i + 1) := by
    rw [UInt64.toNat_add, hlen, h.stop, Nat.mod_eq_of_lt hroom]
  rw [chunkMerge, if_pos hle]
  by_cases hg : ck.limit < ck.stop - 1 + sizeT (lenOf (Int64.ofNat i) (Int64.ofNat j))
  · rw [Words.chunkMerge_grow (ofNat_le_ofNat hle hj) hg]
    rw [UInt64.lt_iff_toNat_lt, hgrow, h.limit] at hg
    refine ⟨?_, ?_⟩ <;> simp only [if_pos hg, hstop, hgrow]
    omega
  · rw [Words.chunkMerge_keep (ofNat_le_ofNat hle hj) hg]
    rw [UInt64.lt_iff_toNat_lt, hgrow, h.limit] at hg
    refine ⟨?_, ?_⟩ <;> simp only [if_neg hg, hstop, h.limit]

end Wspack.Pack
