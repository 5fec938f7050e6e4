import Mathlib.Algebra.BigOperators.Intervals
import Mathlib.Data.List.GetD
import Wspack.Lib.Run
import Wspack.Pack.Packer

namespace Wspack.Pack

open Lib
open KernelHash (Digest wrapInt wrapInt_of_lt)

variable {digest : List UInt8 → Digest} {fit : Prop} {s t : Packer} {base playload bytes : List UInt8}
  {ps : List (List UInt8)} {part : List Nat} {pp i n : Nat} {len : Int}

def savedBytes (digest : List UInt8 → Digest) (chunks : List (List UInt8)) : Nat :=
  ∑ k ∈ Finset.range chunks.length,
    if digest (chunks.getD k []) ∈ (chunks.take k).map digest then (chunks.getD k []).length else 0

theorem savedBytes_concat (chunks : List (List UInt8)) (c : List UInt8) :
    savedBytes digest (chunks ++ [c]) =
      savedBytes digest chunks + if digest c ∈ chunks.map digest then c.length else 0 := by
  rw [savedBytes, List.length_append, List.length_singleton, Finset.sum_range_succ]
  congr 1
  · refine Finset.sum_congr rfl (fun k hk => ?_)
    have hlt : k < chunks.length := Finset.mem_range.mp hk
    rw [List.getD_append _ _ _ _ hlt, List.take_append_of_le_length hlt.le]
  · simp

theorem savedBytes_le (chunks : List (List UInt8)) :
    savedBytes digest chunks ≤ chunks.flatten.length := by
  induction chunks using List.reverseRecOn with
  | nil => rfl
  | append_singleton chunks c ih =>
    rw [savedBytes_concat, List.flatten_append, List.length_append, List.flatten_singleton]
    split <;> omega

structure TableOk (digest : List UInt8 → Digest) (s : Packer) : Prop where
  ok : s.map.Ok
  hash : s.map.hash = hashmapModeHash
  compare : s.map.compare = hashmapModeCompare
  known : ∀ d, (s.map.get d).isSome ↔ d ∈ s.hashed.map digest

theorem TableOk.keep (h : TableOk digest s) (hmap : t.map = s.map) (hhashed : t.hashed = s.hashed) :
    TableOk digest t :=
  ⟨hmap ▸ h.ok, hmap ▸ h.hash, hmap ▸ h.compare, hmap ▸ hhashed ▸ h.known⟩

structure Kept (s t : Packer) : Prop where
  parting : t.toParting = s.toParting
  sumLen : t.sumLen = s.sumLen
  partLog : t.partLog = s.partLog

theorem Kept.trans {u : Packer} (h : Kept s t) (h' : Kept t u) : Kept s u :=
  ⟨h'.parting.trans h.parting, h'.sumLen.trans h.sumLen, h'.partLog.trans h.partLog⟩

theorem Kept.hashChunk : Kept s (hashChunk digest s bytes len) := by
  unfold Pack.hashChunk
  dsimp only
  split <;> exact ⟨rfl, rfl, rfl⟩

theorem Kept.firstChunk : Kept s (firstChunk digest s playload pp) :=
  ⟨hashChunk.parting, hashChunk.sumLen, hashChunk.partLog⟩

@[simp] theorem hashChunk_hashed : (hashChunk digest s bytes len).hashed = s.hashed ++ [bytes] := by
  unfold hashChunk
  dsimp only
  split <;> rfl

@[simp] theorem hashChunk_remainData : (hashChunk digest s bytes len).remainData = s.remainData := by
  unfold hashChunk
  dsimp only
  split <;> rfl

theorem hashChunk_saveLen : (hashChunk digest s bytes len).saveLen =
    if (s.map.get (digest bytes)).isSome then s.saveLen + UInt64.ofInt len else s.saveLen := by
  unfold hashChunk
  dsimp only
  split <;> simp [*]

theorem TableOk.hashChunk (h : TableOk digest s) : TableOk digest (hashChunk digest s bytes len) := by
  have hmem : ∀ d, d ∈ (s.hashed ++ [bytes]).map digest ↔ d ∈ s.hashed.map digest ∨ d = digest bytes :=
    fun d => by simp
  unfold Pack.hashChunk
  dsimp only
  split
  · refine ⟨h.ok.set, (Hashmap.set_hash h.ok).trans h.hash,
      (Hashmap.set_compare h.ok).trans h.compare, fun d => ?_⟩
    rw [hmem, ← h.known, Hashmap.get_set h.ok, h.compare]
    by_cases hd : d = digest bytes
    · simp [hd, hashmapModeCompare_eq_zero]
    · simp [hd, Ne.symm hd, hashmapModeCompare_eq_zero]
  · have hknown : digest bytes ∈ s.hashed.map digest := (h.known _).mp (by simp [*])
    refine ⟨h.ok, h.hash, h.compare, fun d => ?_⟩
    rw [hmem, ← h.known, iff_self_or]
    rintro rfl
    exact (h.known _).mpr hknown

theorem saveLen_hashChunk (h : TableOk digest s) (hsaved : s.saveLen.toNat = savedBytes digest s.hashed)
    (hlen : len = bytes.length) (hbound : (s.hashed.flatten ++ bytes).length < 2 ^ 64) :
    (hashChunk digest s bytes len).saveLen.toNat = savedBytes digest (s.hashed ++ [bytes]) := by
  have hle := @savedBytes_le digest s.hashed
  rw [List.length_append] at hbound
  have hknown := h.known (digest bytes)
  rw [savedBytes_concat, ← hsaved, hashChunk_saveLen]
  by_cases hget : (s.map.get (digest bytes)).isSome = true
  · have hlen' : (UInt64.ofInt len).toNat = bytes.length := by
      rw [hlen, UInt64.ofInt, UInt64.toNat_ofNat']
      omega
    rw [if_pos hget, if_pos (hknown.mp hget), UInt64.toNat_add, hlen', Nat.mod_eq_of_lt (by omega)]
  · rw [if_neg hget, if_neg (fun h => hget (hknown.mpr h)), Nat.add_zero]

/-- The stream so far, part of which may be hashed, and the savings for as long as the
counters `fit`. -/
structure Hashing (digest : List UInt8 → Digest) (fit : Prop) (stream : List UInt8) (s : Packer) :
    Prop where
  stream : s.hashed.flatten ++ s.remainData.bytes = stream
  table : TableOk digest s
  saved : fit → s.saveLen.toNat = savedBytes digest s.hashed

theorem Hashing.hashChunk (h : TableOk digest s)
    (hsaved : fit → s.saveLen.toNat = savedBytes digest s.hashed) (hrest : s.remainData.stop = 0)
    (hlen : fit → len = bytes.length) (hbound : fit → (s.hashed.flatten ++ bytes).length < 2 ^ 64) :
    Hashing digest fit (s.hashed.flatten ++ bytes) (hashChunk digest s bytes len) := by
  refine ⟨?_, h.hashChunk, fun hf => ?_⟩
  · rw [hashChunk_hashed, hashChunk_remainData, Chunk.bytes, hrest]
    simp
  · rw [hashChunk_hashed]
    exact saveLen_hashChunk h (hsaved hf) (hlen hf) (hbound hf)

theorem Hashing.flushed (h : Hashing digest fit base s) (hrest : s.remainData.stop = 0) :
    s.hashed.flatten = base := by
  rw [← h.stream, Chunk.bytes, hrest]
  simp

theorem length_append_take_le (base playload : List UInt8) (n : Nat) :
    (base ++ playload.take n).length ≤ (base ++ playload).length := by
  simp only [List.length_append, List.length_take]
  omega

theorem Hashing.firstChunk (h : Hashing digest fit base s) (hpp : pp < playload.length)
    (hfit : fit → s.remainData.stop + (pp + 1) < 2 ^ 31)
    (hbound : fit → (base ++ playload).length < 2 ^ 64) :
    Hashing digest fit (base ++ playload.take (pp + 1)) (firstChunk digest s playload pp) := by
  have hbytes : (chunkMerge s.remainData playload 0 pp).bytes =
      s.remainData.bytes ++ playload.take (pp + 1) := bytes_chunkMerge (Nat.zero_le _) hpp
  have hstop : (chunkMerge s.remainData playload 0 pp).stop = s.remainData.stop + (pp + 1) :=
    stop_chunkMerge (Nat.zero_le pp)
  have hstream : s.hashed.flatten ++ (chunkMerge s.remainData playload 0 pp).bytes =
      base ++ playload.take (pp + 1) := by
    rw [hbytes, ← List.append_assoc, h.stream]
  rw [← hstream]
  refine @Hashing.hashChunk digest fit
    { s with remainData := chunkClean (chunkMerge s.remainData playload 0 pp), calls := _ } _ _
    (h.table.keep rfl rfl) h.saved rfl (fun hf => ?_) (fun hf => ?_)
  · rw [length_bytes, hstop, wrapInt_of_lt (hfit hf)]
  · dsimp only
    rw [hstream]
    exact lt_of_le_of_lt (length_append_take_le _ _ _) (hbound hf)

structure PartPointsOk (playload : List UInt8) (part : List Nat) : Prop where
  header : 2 ≤ part.length
  increasing : (part.drop 2).Pairwise (· < ·)
  bounds : ∀ i ∈ part.drop 2, chunkNum - 1 ≤ i ∧ i ≤ playload.length - 1

theorem PartPointsOk.getD_mem (hi : 2 ≤ i) (hn : i < part.length) : part.getD i 0 ∈ part.drop 2 := by
  have hmem := List.getElem_mem (l := part.drop 2) (n := i - 2) (by simp; omega)
  rw [List.getD_eq_getElem _ _ hn]
  simpa only [List.getElem_drop, show 2 + (i - 2) = i by omega] using hmem

theorem PartPointsOk.lt_length (h : PartPointsOk playload part) (hi : 2 ≤ i) (hn : i < part.length) :
    part.getD i 0 < playload.length := by
  have := h.bounds _ (getD_mem hi hn)
  simp only [chunkNum] at this
  omega

theorem PartPointsOk.lt_succ (h : PartPointsOk playload part) (hi : 2 ≤ i) (hn : i + 1 < part.length) :
    part.getD i 0 < part.getD (i + 1) 0 := by
  have := List.pairwise_iff_getElem.mp h.increasing (i - 2) (i - 1) (by simp; omega) (by simp; omega)
    (by omega)
  simp only [List.getElem_drop, show 2 + (i - 2) = i by omega, show 2 + (i - 1) = i + 1 by omega] at this
  rwa [List.getD_eq_getElem _ _ hn, List.getD_eq_getElem _ _ (by omega)]

structure HashedTo (digest : List UInt8 → Digest) (fit : Prop) (base playload : List UInt8)
    (part : List Nat) (i : Nat) (s : Packer) : Prop where
  hashing : Hashing digest fit (base ++ playload.take (part.getD i 0 + 1)) s
  rest : s.remainData.stop = 0
  part : s.part = part

theorem HashedTo.firstChunk (h : Hashing digest fit base s) (hp : PartPointsOk playload s.part)
    (hn : 2 < s.part.length) (hfit : fit → s.remainData.stop + (s.part.getD 2 0 + 1) < 2 ^ 31)
    (hbound : fit → (base ++ playload).length < 2 ^ 64) :
    HashedTo digest fit base playload s.part 2 (firstChunk digest s playload (s.part.getD 2 0)) where
  hashing := h.firstChunk (hp.lt_length le_rfl hn) hfit hbound
  rest := by simp [Pack.firstChunk, chunkClean]
  part := congrArg Parting.part Kept.firstChunk.parting

theorem HashedTo.nextChunk (h : HashedTo digest fit base playload part i s)
    (hp : PartPointsOk playload part) (hlen : playload.length ≤ packetLen) (hi : 2 ≤ i)
    (hn : i + 1 < part.length) (hbound : fit → (base ++ playload).length < 2 ^ 64) :
    HashedTo digest fit base playload part (i + 1) (nextChunk digest s playload (i + 1)) := by
  have hlt := hp.lt_succ hi hn
  have hin := hp.lt_length (by omega) hn
  have hflat := h.hashing.flushed h.rest
  have hstream : s.hashed.flatten ++ slice playload (part.getD i 0 + 1) (part.getD (i + 1) 0) =
      base ++ playload.take (part.getD (i + 1) 0 + 1) := by
    rw [hflat, List.append_assoc, take_append_slice hlt]
  refine ⟨?_, by simpa [Pack.nextChunk] using h.rest, ?_⟩
  · rw [← hstream, Pack.nextChunk, h.part, Nat.add_sub_cancel]
    refine Hashing.hashChunk h.hashing.table h.hashing.saved h.rest (fun _ => ?_) (fun hf => ?_)
    · rw [length_slice hlt hin, ← Nat.cast_sub hlt.le, wrapInt_of_lt]
      · omega
      · simp only [packetLen] at hlen
        omega
    · rw [hstream]
      exact lt_of_le_of_lt (length_append_take_le _ _ _) (hbound hf)
  · exact (congrArg Parting.part Kept.hashChunk.parting).trans h.part

theorem HashedTo.chunkLoop (h : HashedTo digest fit base playload part i s)
    (hp : PartPointsOk playload part) (hlen : playload.length ≤ packetLen) (hi : 2 ≤ i)
    (hn : i + 1 + n = part.length) (hbound : fit → (base ++ playload).length < 2 ^ 64) :
    HashedTo digest fit base playload part (part.length - 1)
      (chunkLoop digest playload n (i + 1) s) := by
  induction n generalizing i s with
  | zero =>
    rw [Pack.chunkLoop, ← hn]
    exact h
  | succ n ih =>
    rw [Pack.chunkLoop, if_neg (by omega)]
    exact ih (h.nextChunk hp hlen hi (by omega) hbound) (by omega) (by omega)

theorem Kept.chunkLoop : Kept s (chunkLoop digest playload n i s) := by
  induction n generalizing i s with
  | zero => exact ⟨rfl, rfl, rfl⟩
  | succ n ih =>
    rw [Pack.chunkLoop]
    refine Kept.trans ?_ ih
    split
    · exact Kept.firstChunk
    · exact Kept.hashChunk

theorem HashedTo.storeRest (h : HashedTo digest fit base playload part i s)
    (hin : part.getD i 0 < playload.length) :
    Hashing digest fit (base ++ playload) (storeRest s playload (part.getD i 0)) := by
  have hflat := h.hashing.flushed h.rest
  have hall : playload.take (playload.length - 1 + 1) = playload :=
    List.take_of_length_le (by omega)
  unfold Pack.storeRest
  split
  · refine ⟨?_, h.hashing.table.keep rfl rfl, h.hashing.saved⟩
    dsimp only
    rw [bytes_chunkStore (by omega) (by omega), hflat, List.append_assoc,
      take_append_slice (by omega), hall]
  · have hlast : part.getD i 0 = playload.length - 1 := by omega
    have := h.hashing
    rwa [hlast, hall] at this

theorem Kept.storeRest : Kept s (storeRest s playload pp) := by
  unfold Pack.storeRest
  split <;> exact ⟨rfl, rfl, rfl⟩

end Wspack.Pack
