import Wspack.KernelHash.Flush

namespace Wspack.KernelHash

open Function (update)
open Lib

def countOf : Option HashinfoItem → Int
  | some _ => 1
  | none => 0

def bytesOf (k : MemStyle) : Option HashinfoItem → Int
  | some cp => if cp.memStyle = some k then cp.len else 0
  | none => 0

structure Accounted (items : Nat → Option HashinfoItem) (nextItem : Nat) (hashCount : Int)
    (mm : MemStyle → Int) : Prop where
  count : hashCount = tally nextItem countOf items
  bytes : ∀ k, mm k = tally nextItem (bytesOf k) items

section
variable {items : Nat → Option HashinfoItem} {n id : Nat} {hashCount : Int} {mm mm' : MemStyle → Int}
  {cp cp' : HashinfoItem} {o : Option HashinfoItem} {heap heap' : Heap}

theorem Accounted.replace (h : Accounted items n hashCount mm) (hlt : id < n)
    (hm : ∀ k, mm' k = mm k - bytesOf k (items id) + bytesOf k o) :
    Accounted (update items id o) n (hashCount - countOf (items id) + countOf o) mm' where
  count := by rw [tally_update hlt, ← h.count]
  bytes k := by rw [tally_update hlt, ← h.bytes, hm]

theorem Accounted.touch (h : Accounted items n hashCount mm) (hlt : id < n)
    (hi : items id = some cp) (hm : ∀ k, mm' k = mm k - bytesOf k (some cp) + bytesOf k (some cp')) :
    Accounted (update items id (some cp')) n hashCount mm' := by
  have hr := h.replace hlt (o := some cp') (by rwa [hi])
  rwa [hi, countOf, countOf, sub_add_cancel] at hr

theorem Accounted.keep (h : Accounted items n hashCount mm) (hlt : id < n) (hi : items id = some cp)
    (hs : cp'.memStyle = cp.memStyle) (hl : cp'.len = cp.len) :
    Accounted (update items id (some cp')) n hashCount mm :=
  h.touch hlt hi (fun k => by simp [bytesOf, hs, hl])

theorem Accounted.insert (h : Accounted items n hashCount mm)
    (hm : ∀ k, mm' k = mm k + bytesOf k (some cp)) :
    Accounted (update items n (some cp)) (n + 1) (hashCount + 1) mm' where
  count := by rw [tally_push, ← h.count, countOf]
  bytes k := by rw [tally_push, ← h.bytes, hm]

theorem Accounted.delete (h : Accounted items n hashCount mm) (hlt : id < n)
    (hi : items id = some cp) (hm : ∀ k, mm' k = mm k - bytesOf k (some cp)) :
    Accounted (update items id none) n (hashCount - 1) mm' := by
  have hr : Accounted (update items id none) n (hashCount - countOf (items id) + countOf none) mm' :=
    h.replace hlt (fun k => by simp [hi, hm, bytesOf])
  rwa [hi, countOf, countOf, add_zero] at hr

theorem freeDataMemory_mm (h : freeDataMemory heap cp = .ok (heap', cp')) (k : MemStyle) :
    heap'.mm k = heap.mm k - bytesOf k (some cp) := by
  obtain ⟨k', hk, _, rfl⟩ := freeDataMemory_ok h
  by_cases e : k = k'
  · subst e; simp [bytesOf, hk]
  · simp [bytesOf, hk, Function.update_of_ne e, Ne.symm e]

theorem ItemOk.freeBuffer_mm (hok : ItemOk cp) (h : freeBuffer heap cp = .ok (heap', cp'))
    (k : MemStyle) : heap'.mm k = heap.mm k - bytesOf k (some cp) := by
  cases hb : cp.holdsBuffer with
  | true =>
    simp only [freeBuffer, hb, if_true] at h
    exact freeDataMemory_mm h k
  | false =>
    simp only [freeBuffer, hb, Bool.false_eq_true, if_false, Except.ok.injEq, Prod.mk.injEq] at h
    have hm := (hok.disk (HashinfoItem.holdsBuffer_eq_false.mp hb)).1
    simp [← h.1, bytesOf, hm]

theorem allocDataMemory_mm (heap : Heap) (cp : HashinfoItem) (k : MemStyle) :
    (allocDataMemory heap cp).1.mm k =
      heap.mm k - bytesOf k (some cp) + bytesOf k (some (allocDataMemory heap cp).2) := by
  unfold allocDataMemory
  cases hm : cp.memStyle with
  | some k' => simp
  | none =>
    by_cases e : k = memStyleOf cp.len
    · subst e; simp [bytesOf, hm]
    · simp [bytesOf, hm, Function.update_of_ne e, Ne.symm e]

theorem newItem_mm (heap : Heap) (info : Digest) (value : List UInt8) (k : MemStyle) :
    (newItem heap info value).1.mm k = heap.mm k + bytesOf k (some (newItem heap info value).2) := by
  unfold newItem memcpyData
  dsimp only
  rw [allocDataMemory_mm, bytesOf, if_neg (by simp), sub_zero]

theorem readItem_mm (s : State) (c : Nat) (cp : HashinfoItem) (k : MemStyle) :
    (readItem s c cp).1.mm k =
      s.heap.mm k - bytesOf k (some cp) + bytesOf k (some (readItem s c cp).2.release) := by
  unfold readItem
  split
  · exact (sub_add_cancel _ _).symm
  · exact allocDataMemory_mm s.heap cp k

end

variable {cfg : Config} {s t : State} {a : Act} {b c id : Nat}
  {cp : HashinfoItem}

def State.Accounted (s : State) : Prop :=
  KernelHash.Accounted s.items s.nextItem s.hashCount s.heap.mm

theorem State.Accounted.change (hs : Sound cfg s) (h : s.Accounted) (hch : Change cfg a s t) :
    t.Accounted := by
  cases hch with
  | hit _ _ _ hl =>
    have hi := (lookup_some hl).1
    exact Accounted.keep h (hs.table.indexed.lt hi) hi rfl rfl
  | insert => exact Accounted.insert h (newItem_mm _ _ _)
  | release _ _ hi => exact Accounted.keep h (hs.table.indexed.lt hi) hi rfl rfl
  | read _ _ hi => exact Accounted.touch h (hs.table.indexed.lt hi) hi (readItem_mm _ _ _)
  | delete _ _ _ hi _ hf =>
    exact Accounted.delete h (hs.table.indexed.lt hi) hi ((hs.item hi).freeBuffer_mm hf)
  | age _ _ _ hi => exact Accounted.keep h (hs.table.indexed.lt hi) hi rfl rfl
  | mark _ _ _ hi => exact Accounted.keep h (hs.table.indexed.lt hi) hi rfl rfl
  | unmark _ _ _ hi => exact Accounted.keep h (hs.table.indexed.lt hi) hi rfl rfl
  | place _ _ _ hi => exact Accounted.keep h (hs.table.indexed.lt hi) hi rfl rfl
  | commit _ _ _ hi _ hf =>
    have hmm := freeDataMemory_mm hf
    obtain ⟨_, _, rfl, _⟩ := freeDataMemory_ok hf
    exact Accounted.touch h (hs.table.indexed.lt hi) hi (fun k => by simp [hmm k, bytesOf])
  | _ => exact h

theorem State.Accounted.flushItem (hx : Indexed s.items s.nextItem s.hashTab)
    (hok : ∀ id cp, s.items id = some cp → ItemOk cp) (h : s.Accounted)
    (hst : flushItem b s id = .ok t) : t.Accounted := by
  obtain ⟨cp, heap, cp', stats, hi, hf, rfl⟩ := flushItem_ok hst
  exact Accounted.delete h (hx.lt hi) hi ((hok id cp hi).freeBuffer_mm hf)

theorem accounted_init (file : Nat → Nat → UInt8) : (init file).Accounted :=
  ⟨by simp [init, tally], by simp [init, tally]⟩

theorem accounted_of_flushBucket (hl : writeLockFree cfg s b = true) (hs : Sound cfg s)
    (ha : s.Accounted) (h : flushBucket s b = .ok t) : Sound cfg t ∧ t.Accounted := by
  have hinv := flushLoop_invariant (b := b)
    (P := fun s => writeLockFree cfg s b = true ∧ Sound cfg s ∧ s.Accounted)
    (fun s t id ⟨hl, hs, ha⟩ hb hst => ⟨by rwa [writeLockFree, (flushItem_frame hst).1],
      hs.flushItem hl hb hst, ha.flushItem hs.table.indexed hs.life.item hst⟩)
    (hs.table.indexed.nodup b) (fun _ hm => hm) h ⟨hl, hs, ha⟩
  exact hinv.2

theorem accounted_of_run {file : Nat → Nat → UInt8} {as : List ModuleAct}
    (h : Run (moduleStep cfg) (fun _ _ => True) (init file) as s) :
    Sound cfg s ∧ s.Accounted := by
  refine Run.invariant (P := fun s => Sound cfg s ∧ s.Accounted) ?_ h
    ⟨sound_init file, accounted_init file⟩
  rintro s a t - hst ⟨hs, ha⟩
  cases a with
  | live a =>
    have hchange : ∀ a s t, Change cfg a s t → Sound cfg s ∧ s.Accounted →
        Sound cfg t ∧ t.Accounted := fun a s t hch hs => ⟨hs.1.change hch, hs.2.change hs.1 hch⟩
    rcases chain_of_step hs.table hst with hch | ⟨b, _, hch⟩
    · exact hchange _ _ _ hch ⟨hs, ha⟩
    · exact invariant_of_chain (P := fun s => Sound cfg s ∧ s.Accounted) (fun s t => hchange _ s t) hch ⟨hs, ha⟩
  | flush b =>
    simp only [moduleStep] at hst
    split at hst
    · exact accounted_of_flushBucket ‹_› hs ha hst
    · cases hst

theorem Indexed.sum_buckets {items : Nat → Option HashinfoItem} {n : Nat} {tab : Nat → List Nat}
    (h : Indexed items n tab) (w : Option HashinfoItem → Int) (hw : w none = 0) :
    ∑ b ∈ Finset.range hashTabSize.toNat, ((tab b).map (fun id => w (items id))).sum =
      tally n w items := by
  have hbucket : ∀ b, ((tab b).map (fun id => w (items id))).sum =
      ∑ id ∈ Finset.range n, if id ∈ tab b then w (items id) else 0 := by
    intro b
    rw [← List.sum_toFinset _ (h.nodup b), ← Finset.sum_filter]
    refine Finset.sum_congr ?_ (fun _ _ => rfl)
    ext id
    simp only [List.mem_toFinset, Finset.mem_filter, Finset.mem_range, iff_and_self]
    intro hm
    obtain ⟨cp, hi, _⟩ := (h.mem_iff b id).mp hm
    exact h.lt hi
  simp only [hbucket]
  rw [Finset.sum_comm]
  refine Finset.sum_congr rfl (fun id _ => ?_)
  cases hi : items id with
  | none => simp [hw]
  | some cp =>
    rw [Finset.sum_eq_single (bkt cp.sha1)]
    · simp [h.mem hi]
    · exact fun b _ hb => if_neg (fun hm => hb (h.bkt_eq hm hi).symm)
    · exact fun hb => absurd (Finset.mem_range.mpr (bkt_lt cp.sha1)) hb

structure AccountingExact (s : State) : Prop where
  hash_count : s.hashCount =
    ∑ b ∈ Finset.range hashTabSize.toNat, ((s.hashTab b).length : Int)
  mm : ∀ k, s.heap.mm k = ∑ b ∈ Finset.range hashTabSize.toNat,
    ((s.hashTab b).map (fun id => bytesOf k (s.items id))).sum

theorem Sound.accountingExact (hs : Sound cfg s) (ha : s.Accounted) : AccountingExact s where
  hash_count := by
    have hb : ∀ b, ((s.hashTab b).length : Int) =
        ((s.hashTab b).map (fun id => countOf (s.items id))).sum := by
      intro b
      have hone : ∀ id ∈ s.hashTab b, countOf (s.items id) = 1 := by
        intro id hm
        obtain ⟨cp, hi⟩ := hs.listed hm
        rw [hi, countOf]
      rw [List.map_congr_left hone]
      simp
    simp only [hb]
    rw [hs.table.indexed.sum_buckets countOf rfl]
    exact Accounted.count ha
  mm k := by
    rw [hs.table.indexed.sum_buckets (bytesOf k) rfl]
    exact Accounted.bytes ha k

theorem holdsOf_eq_zero (hh : ∀ c < cfg.ncpu, s.hand c = .idle) (hr : s.readList = []) (id : Nat) :
    holdsOf cfg s id = 0 := by
  have ht : tally cfg.ncpu (Hand.carries (fun i _ => i == id)) s.hand = 0 :=
    Finset.sum_eq_zero (fun c hc => by rw [hh c (Finset.mem_range.mp hc)]; rfl)
  simp [holdsOf, outstanding, ht, hr]

structure Unheld (s : State) : Prop where
  indexed : Indexed s.items s.nextItem s.hashTab
  item : ∀ id cp, s.items id = some cp → ItemOk cp
  loaded : ∀ id cp, s.items id = some cp → cp.flagCache = .readBack → cp.flagMem = true
  buffers : Buffers s.items s.heap
  accounted : s.Accounted

theorem Sound.unheld (hs : Sound cfg s) (ha : s.Accounted)
    (hnone : ∀ id, holdsOf cfg s id = 0) : Unheld s where
  indexed := hs.table.indexed
  item := hs.life.item
  loaded id _ hi := hs.loaded hi (hnone id)
  buffers := hs.buffers
  accounted := ha

theorem Unheld.flushItem (h : Unheld s) (hb : id ∈ s.hashTab b) :
    ∃ t, flushItem b s id = .ok t ∧ Unheld t := by
  obtain ⟨cp, hi, _⟩ := (h.indexed.mem_iff b id).mp hb
  obtain ⟨⟨heap, cp'⟩, hf⟩ := (h.item id cp hi).freeBuffer_ok (h.loaded id cp hi) s.heap
  have hst : ∃ t, KernelHash.flushItem b s id = .ok t := by simp [KernelHash.flushItem, hi, hf]
  obtain ⟨t, hst⟩ := hst
  refine ⟨t, hst, ?_⟩
  have ha := h.accounted.flushItem h.indexed h.item hst
  obtain ⟨cp₁, heap₁, cp₂, stats, hi₁, hf₁, rfl⟩ := flushItem_ok hst
  refine ⟨h.indexed.delete hb, fun j cj hj => ?_, fun j cj hj => ?_,
    h.buffers.delete hi₁ (h.item id cp₁ hi₁) hf₁, ha⟩
  · exact h.item j cj (of_update_none hj)
  · exact h.loaded j cj (of_update_none hj)

theorem Unheld.flushLoop {ids : List Nat} (h : Unheld s) (hnd : ids.Nodup)
    (hsub : ∀ id ∈ ids, id ∈ s.hashTab b) : ∃ t, flushLoop b ids s = .ok t ∧ Unheld t := by
  induction ids generalizing s with
  | nil => exact ⟨s, rfl, h⟩
  | cons id ids ih =>
    obtain ⟨hid, hnd⟩ := List.nodup_cons.mp hnd
    obtain ⟨u, hu, h'⟩ := h.flushItem (hsub id List.mem_cons_self)
    simp only [KernelHash.flushLoop, hu]
    refine ih h' hnd (fun j hj => ?_)
    have hne : j ≠ id := fun e => hid (e ▸ hj)
    rw [(flushItem_frame hu).2, Function.update_self]
    exact (List.mem_erase_of_ne hne).mpr (hsub j (List.mem_cons_of_mem _ hj))

theorem Unheld.flushBuckets (h : Unheld s) (bs : List Nat) :
    ∃ t, flushBuckets bs s = .ok t ∧ Unheld t ∧ (∀ b ∈ bs, t.hashTab b = []) ∧
      ∀ b, s.hashTab b = [] → t.hashTab b = [] := by
  induction bs generalizing s with
  | nil => exact ⟨s, rfl, h, by simp, fun _ he => he⟩
  | cons b bs ih =>
    obtain ⟨u, hu, h'⟩ := h.flushLoop (h.indexed.nodup b) (fun _ hm => hm)
    have htab := flushBucket_hashTab hu
    obtain ⟨t, ht, hun, hin, hout⟩ := ih h'
    have hb : u.hashTab b = [] := by rw [htab, Function.update_self]
    refine ⟨t, by simp only [KernelHash.flushBuckets, flushBucket, hu, ht], hun, ?_, ?_⟩
    · rintro b' (_ | ⟨_, hb'⟩)
      · exact hout b hb
      · exact hin b' hb'
    · intro b' he
      apply hout
      by_cases e : b' = b
      · rw [e, hb]
      · rw [htab, Function.update_of_ne e, he]

theorem Unheld.released (h : Unheld s) (hempty : ∀ b < hashTabSize.toNat, s.hashTab b = []) :
    s.hashCount = 0 ∧ (∀ k, s.heap.mm k = 0) ∧ ∀ p < s.heap.next, p ∈ s.heap.freed := by
  have hnone : ∀ id, s.items id = none := by
    intro id
    cases hi : s.items id with
    | none => rfl
    | some cp =>
      have hm := h.indexed.mem hi
      rw [hempty _ (bkt_lt cp.sha1)] at hm
      cases hm
  refine ⟨?_, fun k => ?_, Owned.all_freed h.buffers (fun id => by rw [hnone]; rfl)⟩
  · rw [Accounted.count h.accounted]
    simp [tally, hnone, countOf]
  · rw [Accounted.bytes h.accounted]
    simp [tally, hnone, bytesOf]

theorem Unheld.hashFlush (h : Unheld s) : ∃ t, hashFlush s = .ok t ∧ t.hashCount = 0 ∧
    (∀ k, t.heap.mm k = 0) ∧ ∀ p < t.heap.next, p ∈ t.heap.freed := by
  obtain ⟨t, ht, hun, hin, _⟩ := h.flushBuckets (List.range hashTabSize.toNat)
  exact ⟨t, ht, hun.released (fun b hb => hin b (List.mem_range.mpr hb))⟩

/-- In every state of every run, with flushes anywhere in it, the counters are the sums over
the table; a flush that no reader is in the way of brings them to zero and releases every
buffer. -/
theorem memory_accounting_exact (cfg : Config) (file : Nat → Nat → UInt8) (as : List ModuleAct)
    (s : State) (h : Run (moduleStep cfg) (fun _ _ => True) (init file) as s) :
    AccountingExact s ∧
      ((∀ id, holdsOf cfg s id = 0) → ∃ t, hashFlush s = .ok t ∧ t.hashCount = 0 ∧
        (∀ k, t.heap.mm k = 0) ∧ ∀ p < t.heap.next, p ∈ t.heap.freed) := by
  obtain ⟨hs, ha⟩ := accounted_of_run h
  exact ⟨hs.accountingExact ha, fun hnone => (hs.unheld ha hnone).hashFlush⟩

def twoChunks : List ModuleAct :=
  (roundTrip ++ [Act.readData 0] ++ insertOn 0 chunkB digestB).map .live

theorem memory_accounting_exact_twoChunks :
    (final (moduleStep twoCpus) (fun _ _ => true) (init (fun _ _ => 0)) twoChunks).hashCount = 2 ∧
      (final (moduleStep twoCpus) (fun _ _ => true) (init (fun _ _ => 0)) twoChunks).heap.mm .slab1 =
        64 ∧
      ∃ t, hashFlush (final (moduleStep twoCpus) (fun _ _ => true) (init (fun _ _ => 0)) twoChunks) =
        .ok t ∧ t.hashCount = 0 := by
  have hrun := @run_final_any _ _ _ (moduleStep twoCpus) (init (fun _ _ => 0)) twoChunks
    (fun _ _ => true) (by decide +kernel)
  refine ⟨by decide +kernel, by decide +kernel, ?_⟩
  obtain ⟨t, ht, h0, _⟩ := (memory_accounting_exact twoCpus _ twoChunks _ hrun).2
    (holdsOf_eq_zero (by decide +kernel) (by decide +kernel))
  exact ⟨t, ht, h0⟩

end Wspack.KernelHash
