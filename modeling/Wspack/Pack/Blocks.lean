import Wspack.Pack.KeyValue
import Wspack.Pack.Stream

namespace Wspack.Pack

open Lib
open KernelHash (Digest)

inductive Fault
  | heapOverflow
  | useAfterFree
  | stackOverflow
  -- the keys are given to `realloc`, which may fail or move them away from `map`
  | keysFull
  | exits (msg : String)
  deriving DecidableEq

structure Blocks where
  remainData : Words
  key : KeyValue

def Blocks.call (b : Blocks) : MemoryCall → Except Fault Blocks
  | .chunk c =>
    if b.remainData.Kept c then .ok { b with remainData := b.remainData.next c } else .error .heapOverflow
  | .push key =>
    if b.key.grows then .error .keysFull
    else .ok { b with key := b.key.next ⟨fun i => key.toList.getD i 0, none⟩ }

def replay (key : KeyValue) (calls : List MemoryCall) : Except Fault Blocks :=
  calls.foldlM Blocks.call ⟨Words.chunkCreate, key⟩

section
variable (digest : List UInt8 → Digest)

def known (s : Packer) : Nat := (s.hashed.map digest).toFinset.card

/-- What `remain_data` has to hold up to the first part point of the next payload, or its end. -/
def firstLen (s : Packer) (playload : List UInt8) : Nat :=
  s.remainData.stop + (partPoints s.delayTime playload).head?.elim playload.length (· + 1)

def restLen (s : Packer) (playload : List UInt8) : Nat :=
  (partPoints s.delayTime playload).getLast?.elim 0 (playload.length - 1 - ·)

/-- What goes wrong with a payload that `printPcap` finds in the state `s` and leaves in `t`. -/
def payloadFault (s t : Packer) (playload : List UInt8) : Option Fault :=
  if chunkLen < firstLen s playload then some .heapOverflow
  else if shaNum ≤ known digest t then some .keysFull
  else if chunkLen < restLen s playload then some .heapOverflow
  else none

end

structure KeysAt (m : Nat) (kv : KeyValue) : Prop where
  sound : Sound m kv
  step : kv.stepSize = sha
  capacity : kv.capacity = shaNum * sha

structure RemainAt (b : Chunk) (w : Words) : Prop where
  agrees : Agrees b w
  limit : b.limit = chunkLen
  size : w.limit = w.size

structure Keyed (digest : List UInt8 → Digest) (key : KeyValue) (w : Words) (s : Packer) : Prop where
  table : TableOk digest s
  few : known digest s < shaNum →
    ∃ kv, replay key s.calls = .ok ⟨w, kv⟩ ∧ KeysAt (known digest s) kv
  many : shaNum ≤ known digest s → replay key s.calls = .error .keysFull

def Settled (digest : List UInt8 → Digest) (key : KeyValue) (s : Packer) : Prop :=
  ∃ w kv, replay key s.calls = .ok ⟨w, kv⟩ ∧ RemainAt s.remainData w ∧ KeysAt (known digest s) kv

variable {digest : List UInt8 → Digest} {key kv : KeyValue} {b : Chunk} {w : Words} {s t : Packer}
  {playload bytes : List UInt8} {ps : List (List UInt8)} {calls more : List MemoryCall} {m n i j pp : Nat}
  {len : Int} {p : Push} {f : Fault}

theorem replay_append (key : KeyValue) (calls more : List MemoryCall) :
    replay key (calls ++ more) = replay key calls >>= more.foldlM Blocks.call :=
  List.foldlM_append

theorem replay_of_prefix (h : replay key calls = .error f) (hp : calls <+: more) : replay key more = .error f := by
  obtain ⟨rest, rfl⟩ := hp
  rw [replay_append, h]
  rfl

theorem replay_push (d : Digest) (h : replay key calls = .ok ⟨w, kv⟩) :
    replay key (calls ++ [.push d]) = if kv.grows then .error .keysFull
      else .ok ⟨w, kv.next ⟨fun i => d.toList.getD i 0, none⟩⟩ := by
  rw [replay_append, h]
  exact bind_pure (Blocks.call ⟨w, kv⟩ _)

theorem KeysAt.lt (h : KeysAt m kv) : m < shaNum := by
  obtain ⟨_, c, hc, -, -, -, hm⟩ := h.sound.room
  rw [h.capacity, h.step] at hc
  rwa [Nat.eq_of_mul_eq_mul_right (by decide) hc]

theorem KeysAt.index_lt (h : KeysAt m kv) : kv.index < 2 ^ 31 := by
  have hlt := h.lt
  rw [h.sound.index, h.step]
  simp only [shaNum, sha] at *
  omega

theorem KeysAt.grows_iff (h : KeysAt m kv) : kv.grows = true ↔ m + 1 = shaNum := by
  rw [h.sound.grows_iff h.index_lt, h.capacity, h.step]
  simp only [shaNum, sha]
  omega

theorem KeysAt.push (h : KeysAt m kv) (hg : kv.grows = false) : KeysAt (m + 1) (kv.next p) := by
  rw [KeyValue.next, push_keep h.sound h.index_lt hg]
  exact ⟨h.sound.keep h.index_lt hg p.el, h.step, h.capacity⟩

theorem known_concat : (((s.hashed ++ [bytes]).map digest).toFinset).card =
    if digest bytes ∈ s.hashed.map digest then known digest s else known digest s + 1 := by
  rw [List.map_append, List.toFinset_append, List.map_singleton, List.toFinset_cons, List.toFinset_nil,
    insert_empty_eq, Finset.union_comm, ← Finset.insert_eq]
  by_cases hmem : digest bytes ∈ s.hashed.map digest
  · rw [if_pos hmem, Finset.insert_eq_of_mem (List.mem_toFinset.mpr hmem), known]
  · rw [if_neg hmem, Finset.card_insert_of_notMem (mt List.mem_toFinset.mp hmem), known]

theorem known_hashChunk (h : TableOk digest s) : known digest (hashChunk digest s bytes len) =
    if (s.map.get (digest bytes)).isSome then known digest s else known digest s + 1 := by
  rw [known, hashChunk_hashed, known_concat]
  simp only [h.known]

theorem calls_hashChunk : (hashChunk digest s bytes len).calls =
    if (s.map.get (digest bytes)).isSome then s.calls else s.calls ++ [.push (digest bytes)] := by
  unfold hashChunk
  dsimp only
  split <;> simp [*]

theorem prefix_hashChunk : s.calls <+: (hashChunk digest s bytes len).calls := by
  rw [calls_hashChunk]
  split
  · exact List.prefix_refl _
  · exact List.prefix_append _ _

theorem Keyed.hashChunk (h : Keyed digest key w s) : Keyed digest key w (hashChunk digest s bytes len) := by
  have hknown := @known_hashChunk digest s bytes len h.table
  have hcalls := @calls_hashChunk digest s bytes len
  by_cases hget : (s.map.get (digest bytes)).isSome = true
  · rw [if_pos hget] at hknown hcalls
    exact ⟨h.table.hashChunk, by rw [hknown, hcalls]; exact h.few, by rw [hknown, hcalls]; exact h.many⟩
  rw [if_neg hget] at hknown hcalls
  refine ⟨h.table.hashChunk, fun hlt => ?_, fun hge => ?_⟩
  · rw [hknown] at hlt ⊢
    obtain ⟨kv, hkv, hkeys⟩ := h.few (by omega)
    have hroom : kv.grows = false := Bool.eq_false_iff.mpr (mt hkeys.grows_iff.mp (by omega))
    exact ⟨_, by rw [hcalls, replay_push _ hkv, hroom]; rfl, hkeys.push hroom⟩
  · rw [hknown] at hge
    rcases Nat.lt_or_ge (known digest s) shaNum with hlt | hge
    · obtain ⟨kv, hkv, hkeys⟩ := h.few hlt
      rw [hcalls, replay_push _ hkv, if_pos (hkeys.grows_iff.mpr (by omega))]
    · exact replay_of_prefix (h.many hge) prefix_hashChunk

theorem Keyed.chunkLoop (h : Keyed digest key w s) (hi : 2 < i) :
    Keyed digest key w (chunkLoop digest playload n i s) := by
  induction n generalizing i s with
  | zero => exact h
  | succ n ih =>
    rw [Pack.chunkLoop, if_neg (by omega)]
    exact ih h.hashChunk (by omega)

theorem RemainAt.merge (h : RemainAt b w) (hj : j + 1 < 2 ^ 31) (hroom : b.stop + (j + 1) ≤ chunkLen) :
    RemainAt (chunkMerge b playload 0 j) (w.next (.merge 0 (Int64.ofNat j))) where
  agrees := by
    refine h.agrees.merge (Nat.zero_le j) hj ?_
    rw [chunkLen] at hroom
    omega
  limit := by
    have hkeep : ¬b.limit < b.stop + (j - 0 + 1) - 1 := by
      rw [h.limit]
      omega
    rw [chunkMerge, if_pos (Nat.zero_le j)]
    dsimp only
    rw [if_neg hkeep]
    exact h.limit
  size := Words.call_limit h.size

theorem RemainAt.clean (h : RemainAt b w) : RemainAt (chunkClean b) (w.next .clean) :=
  ⟨⟨rfl, h.agrees.limit⟩, h.limit, h.size⟩

theorem RemainAt.store (h : RemainAt b w) (hle : i ≤ j) (hj : j + 1 < 2 ^ 31) :
    RemainAt (chunkStore b playload i j) (w.next (.store (Int64.ofNat i) (Int64.ofNat j))) where
  agrees := h.agrees.store hle hj
  limit := by
    rw [chunkStore, if_pos hle]
    exact h.limit
  size := Words.call_limit h.size

end Wspack.Pack
