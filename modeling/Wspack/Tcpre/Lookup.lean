import Mathlib.Data.Nat.ModEq
import Wspack.Tcpre.Calculate

namespace Wspack.Tcpre

open Wspack.Pack (Hashmap)

/-- Keys this far apart have the same bucket and the same low half. -/
def period : Nat := bucketsLen * 2 ^ 32

def alike (a b : UInt64) : Bool := a.toNat % period == b.toNat % period

variable {a b k : UInt64} {keys : List UInt64} {map : Hashmap UInt64 Nat}

theorem modeHash_eq_iff : modeHash a = modeHash b ↔ a.toNat % bucketsLen = b.toNat % bucketsLen := by
  have hval (x : UInt64) : (modeHash x).toNat = x.toNat % bucketsLen := by
    have hlen : (UInt64.ofNat bucketsLen).toNat = bucketsLen := rfl
    have hlt : x.toNat % bucketsLen < 2 ^ 32 :=
      (Nat.mod_lt _ (by decide)).trans (show bucketsLen < 2 ^ 32 by decide)
    rw [modeHash, UInt64.toNat_toUInt32, UInt64.toNat_mod, hlen, Nat.mod_eq_of_lt hlt]
  rw [← hval, ← hval, UInt32.toNat_inj]

theorem modeCompare_eq_zero_iff : modeCompare a b = 0 ↔ a.toNat % 2 ^ 32 = b.toNat % 2 ^ 32 := by
  have hzero : modeCompare a b = 0 ↔ (a - b).toUInt32 = 0 := by
    rw [modeCompare, ← Int32.toInt_zero, Int32.toInt_inj]
    exact ⟨congrArg Int32.toUInt32, congrArg UInt32.toInt32⟩
  have ha := a.toNat_lt
  have hb := b.toNat_lt
  rw [hzero, ← UInt32.toNat_inj, UInt64.toNat_toUInt32, UInt64.toNat_sub, UInt32.toNat_zero]
  omega

theorem same_iff_alike : modeHash a = modeHash b ∧ modeCompare a b = 0 ↔ alike a b = true := by
  have hcoprime : Nat.Coprime bucketsLen (2 ^ 32) := by decide
  rw [modeHash_eq_iff, modeCompare_eq_zero_iff, alike, beq_iff_eq]
  exact Nat.modEq_and_modEq_iff_modEq_mul hcoprime

theorem alike_refl (k : UInt64) : alike k k = true := beq_self_eq_true _

structure Holds (map : Hashmap UInt64 Nat) (keys : List UInt64) : Prop where
  ok : map.Ok
  hash : map.hash = modeHash
  compare : map.compare = modeCompare
  get : ∀ k, map.get k = keys.findIdx? (alike · k)

theorem Holds.create : Holds (Hashmap.create bucketsLen modeCompare modeHash) [] where
  ok := .create
  hash := rfl
  compare := rfl
  get _ := Hashmap.get_create

theorem Holds.set (h : Holds map keys) : Holds (map.set a keys.length) (keys ++ [a]) where
  ok := h.ok.set
  hash := (Hashmap.set_hash h.ok).trans h.hash
  compare := (Hashmap.set_compare h.ok).trans h.compare
  get k := by
    have hsame := @same_iff_alike a k
    rw [Hashmap.get_set h.ok, h.get, h.hash, h.compare, List.findIdx?_append, List.findIdx?_singleton]
    by_cases hk : alike a k = true
    · rw [if_pos hk, if_pos (hsame.mpr hk), Option.map_some, Nat.zero_add]
    · rw [if_neg hk, if_neg (fun hs => hk (hsame.mp hs)), Option.map_none]

def storeKeys (keys : List UInt64) : Hashmap UInt64 Nat :=
  keys.zipIdx.foldl (fun map x => map.set x.1 x.2) (Hashmap.create bucketsLen modeCompare modeHash)

theorem holds_storeKeys (keys : List UInt64) : Holds (storeKeys keys) keys := by
  induction keys using List.reverseRecOn with
  | nil => exact .create
  | append_singleton keys k ih =>
    rw [storeKeys, List.zipIdx_append, List.foldl_append, Nat.zero_add]
    exact ih.set

theorem findIdx?_alike_iff (keys : List UInt64) :
    (((keys.findIdx? (alike · k)).isSome ↔ k ∈ keys) ∧
      ∀ row, keys.findIdx? (alike · k) = some row → keys[row]? = some k) ↔
    ∀ a ∈ keys.takeWhile (· ≠ k), alike a k = false := by
  induction keys with
  | nil => simp
  | cons a keys ih =>
    rw [List.findIdx?_cons]
    by_cases hak : a = k
    · subst hak
      simp [alike_refl]
    · rw [List.takeWhile_cons_of_pos (by simpa using hak), List.forall_mem_cons, ← ih]
      by_cases hlike : alike a k = true
      · simp [hlike, hak]
      · have hmem : k ∈ a :: keys ↔ k ∈ keys := by simp [Ne.symm hak]
        rw [if_neg hlike, hmem, Option.isSome_map]
        simp [hlike]

theorem lookup_exact_iff (keys : List UInt64) (k : UInt64) :
    ((((storeKeys keys).get k).isSome ↔ k ∈ keys) ∧
      ∀ row, (storeKeys keys).get k = some row → keys[row]? = some k) ↔
    ∀ a ∈ keys.takeWhile (· ≠ k), a.toNat % period ≠ k.toNat % period := by
  rw [(holds_storeKeys keys).get]
  simpa [alike] using @findIdx?_alike_iff k keys

theorem lookup_finds_other_key :
    (997 * 2 ^ 32 : Nat) < 2 ^ 60 ∧ UInt64.ofNat (997 * 2 ^ 32) ∉ [0] ∧
      (storeKeys [0]).get (UInt64.ofNat (997 * 2 ^ 32)) = some 0 := by
  refine ⟨by decide, by decide, ?_⟩
  rw [(holds_storeKeys [0]).get]
  decide

end Wspack.Tcpre
