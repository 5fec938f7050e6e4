import Wspack.KernelHash.Change
import Wspack.Lib.Cells

namespace Wspack.KernelHash

open Function (update)
open Lib

structure Indexed (items : Nat → Option HashinfoItem) (nextItem : Nat)
    (hashTab : Nat → List Nat) : Prop where
  fresh : ∀ id, nextItem ≤ id → items id = none
  mem_iff : ∀ b id, id ∈ hashTab b ↔ ∃ cp, items id = some cp ∧ bkt cp.sha1 = b
  nodup : ∀ b, (hashTab b).Nodup

structure Walks (cfg : Config) (hashTab : Nat → List Nat) (wr : Nat → Option WrFile) : Prop where
  online : ∀ c w, wr c = some w → c < cfg.ncpu
  unlocked : ∀ c w, wr c = some w → w.phase.locked = false → w.todo = []
  nodup : ∀ c w, wr c = some w → w.todo.Nodup
  sub : ∀ c w, wr c = some w → ∀ id ∈ w.todo, id ∈ hashTab w.index

structure TableOk (cfg : Config) (s : State) : Prop where
  indexed : Indexed s.items s.nextItem s.hashTab
  walks : Walks cfg s.hashTab s.wr

section
variable {cfg : Config} {items : Nat → Option HashinfoItem} {n b c id : Nat}
  {tab : Nat → List Nat} {wr : Nat → Option WrFile} {cp cp' : HashinfoItem} {w : WrFile}

theorem Indexed.lt (h : Indexed items n tab) (hi : items id = some cp) : id < n := by
  by_contra hn
  rw [h.fresh id (not_lt.mp hn)] at hi
  cases hi

theorem Indexed.mem (h : Indexed items n tab) (hi : items id = some cp) :
    id ∈ tab (bkt cp.sha1) := (h.mem_iff _ _).mpr ⟨cp, hi, rfl⟩

theorem Indexed.bkt_eq (h : Indexed items n tab) (hb : id ∈ tab b) (hi : items id = some cp) :
    bkt cp.sha1 = b := by
  obtain ⟨cp', hi', hb'⟩ := (h.mem_iff _ _).mp hb
  rw [hi] at hi'
  cases hi'
  exact hb'

theorem Indexed.touch (h : Indexed items n tab) (hi : items id = some cp)
    (hs : cp'.sha1 = cp.sha1) : Indexed (update items id (some cp')) n tab where
  fresh j hj := by
    have hne : j ≠ id := fun e => absurd (h.lt hi) (by omega)
    rw [Function.update_of_ne hne, h.fresh j hj]
  mem_iff b' j := by
    rw [h.mem_iff]
    by_cases hj : j = id
    · subst hj; simp [hi, hs]
    · rw [Function.update_of_ne hj]
  nodup := h.nodup

theorem Indexed.insert (h : Indexed items n tab) (hb : bkt cp.sha1 = b) :
    Indexed (update items n (some cp)) (n + 1) (update tab b (n :: tab b)) where
  fresh j hj := by rw [Function.update_of_ne (by omega), h.fresh j (by omega)]
  mem_iff b' j := by
    by_cases hj : j = n
    · subst hj
      have hnot : ∀ b, j ∉ tab b := fun b hm => by
        obtain ⟨_, hi, _⟩ := (h.mem_iff _ _).mp hm
        exact absurd (h.lt hi) (by omega)
      by_cases hb' : b' = b
      · subst hb'; simp [hb]
      · rw [Function.update_of_ne hb']
        simp only [hnot b', Function.update_self, Option.some.injEq, false_iff, not_exists, not_and]
        rintro _ rfl e
        exact hb' (e ▸ hb)
    · rw [Function.update_of_ne hj, ← h.mem_iff]
      by_cases hb' : b' = b
      · subst hb'; simp [hj]
      · rw [Function.update_of_ne hb']
  nodup b' := by
    by_cases hb' : b' = b
    · subst hb'
      rw [Function.update_self, List.nodup_cons]
      refine ⟨fun hm => ?_, h.nodup _⟩
      obtain ⟨_, hi, _⟩ := (h.mem_iff _ _).mp hm
      exact absurd (h.lt hi) (by omega)
    · rw [Function.update_of_ne hb']; exact h.nodup _

theorem Indexed.delete (h : Indexed items n tab) (hb : id ∈ tab b) :
    Indexed (Function.update items id none) n (Function.update tab b ((tab b).erase id)) where
  fresh j hj := by
    by_cases hj' : j = id
    · subst hj'; simp
    · rw [Function.update_of_ne hj', h.fresh j hj]
  mem_iff b' j := by
    by_cases hj : j = id
    · subst hj
      simp only [Function.update_self, reduceCtorEq, false_and, exists_false, iff_false]
      by_cases hb' : b' = b
      · subst hb'; simpa using (h.nodup b').not_mem_erase
      · rw [Function.update_of_ne hb']
        intro hm
        obtain ⟨cp, hi, hbk⟩ := (h.mem_iff _ _).mp hb
        exact hb' ((h.bkt_eq hm hi).symm.trans hbk)
    · rw [Function.update_of_ne hj, ← h.mem_iff]
      by_cases hb' : b' = b
      · subst hb'; simp [List.mem_erase_of_ne hj]
      · rw [Function.update_of_ne hb']
  nodup b' := by
    by_cases hb' : b' = b
    · subst hb'; simpa using (h.nodup _).erase _
    · rw [Function.update_of_ne hb']; exact h.nodup _

theorem Walks.set (h : Walks cfg tab wr) (hc : c < cfg.ncpu)
    (hl : w.phase.locked = false → w.todo = []) (hn : w.todo.Nodup)
    (hs : ∀ id ∈ w.todo, id ∈ tab w.index) : Walks cfg tab (Function.update wr c (some w)) where
  online := forall_update h.online hc
  unlocked := forall_update h.unlocked hl
  nodup := forall_update h.nodup hn
  sub := forall_update h.sub hs

theorem Walks.next {rest : List Nat} (h : Walks cfg tab wr) (hw : wr c = some w)
    (ht : w.todo = id :: rest) : id ∈ tab w.index :=
  h.sub c w hw id (by rw [ht]; exact List.mem_cons_self)

theorem Walks.clear (h : Walks cfg tab wr) : Walks cfg tab (Function.update wr c none) where
  online c' w' hw := h.online c' w' (of_update_none hw)
  unlocked c' w' hw := h.unlocked c' w' (of_update_none hw)
  nodup c' w' hw := h.nodup c' w' (of_update_none hw)
  sub c' w' hw := h.sub c' w' (of_update_none hw)

end

variable {cfg : Config} {s t : State} {a : Act} {b c id : Nat} {cp : HashinfoItem} {w : WrFile}

theorem Walks.index_ne (h : Walks cfg s.hashTab s.wr) (hl : writeLockFree cfg s b = true)
    (hw : s.wr c = some w) (hp : w.phase.locked = true) : w.index ≠ b := by
  rintro rfl
  have hall := List.all_eq_true.mp hl c (List.mem_range.mpr (h.online c w hw))
  simp [hw, WrFile.holdsLock, hp] at hall

theorem Walks.step (h : Walks cfg s.hashTab s.wr) {rest : List Nat} (hw : s.wr c = some w)
    (hp : w.phase.locked = true) (ht : w.todo = id :: rest) {w' : WrFile} (hp' : w'.phase = w.phase)
    (hx : w'.index = w.index) (ht' : w'.todo = rest) :
    Walks cfg s.hashTab (update s.wr c (some w')) := by
  have hnd := h.nodup c w hw
  have hsub := h.sub c w hw
  rw [ht] at hnd hsub
  refine h.set (h.online c w hw) (by simp [hp', hp]) (ht' ▸ (List.nodup_cons.mp hnd).2) ?_
  intro j hj
  rw [hx]
  exact hsub j (List.mem_cons_of_mem _ (ht' ▸ hj))

theorem Walks.insert (h : Walks cfg s.hashTab s.wr) :
    Walks cfg (update s.hashTab b (id :: s.hashTab b)) s.wr where
  online := h.online
  unlocked := h.unlocked
  nodup := h.nodup
  sub c w hw j hj := by
    have hm := h.sub c w hw j hj
    by_cases e : w.index = b
    · rw [e] at hm ⊢; simp [hm]
    · rwa [Function.update_of_ne e]

theorem Walks.delete (h : Walks cfg s.hashTab s.wr) (hl : writeLockFree cfg s b = true) :
    Walks cfg (update s.hashTab b ((s.hashTab b).erase id)) s.wr where
  online := h.online
  unlocked := h.unlocked
  nodup := h.nodup
  sub c w hw j hj := by
    have hm := h.sub c w hw j hj
    cases hp : w.phase.locked with
    | true => rwa [Function.update_of_ne (h.index_ne hl hw hp)]
    | false => rw [h.unlocked c w hw hp] at hj; cases hj

theorem lookup_some {info : Digest} (h : lookup s info = some (id, cp)) :
    s.items id = some cp ∧ cp.sha1 = info ∧ id ∈ s.hashTab (bkt info) := by
  obtain ⟨j, hj, hb⟩ := List.exists_of_findSome?_eq_some h
  obtain ⟨cp', hi, hc⟩ := Option.bind_eq_some_iff.mp hb
  split at hc
  · simp only [Option.some.injEq, Prod.mk.injEq] at hc
    obtain ⟨rfl, rfl⟩ := hc
    exact ⟨hi, ‹_›, hj⟩
  · cases hc

theorem lookup_none (ht : Indexed s.items s.nextItem s.hashTab) {info : Digest}
    (h : lookup s info = none) (hi : s.items id = some cp) : cp.sha1 ≠ info := by
  rintro rfl
  have hnone := List.findSome?_eq_none_iff.mp h id (ht.mem hi)
  simp [hi] at hnone

@[simp] theorem allocDataMemory_sha1 (h : Heap) (cp : HashinfoItem) :
    (allocDataMemory h cp).2.sha1 = cp.sha1 := by
  unfold allocDataMemory; split <;> rfl

theorem readItem_eq (s : State) (c : Nat) (cp : HashinfoItem) : (readItem s c cp).2 =
    { cp with
      data := (readItem s c cp).2.data
      memStyle := (readItem s c cp).2.memStyle
      flagMem := (readItem s c cp).2.flagMem } := by
  unfold readItem allocDataMemory
  split
  · rfl
  · cases cp.memStyle <;> rfl

section
variable (s : State) (c : Nat) (cp : HashinfoItem)

@[simp] theorem readItem_sha1 : (readItem s c cp).2.sha1 = cp.sha1 := by rw [readItem_eq]

@[simp] theorem readItem_len : (readItem s c cp).2.len = cp.len := by rw [readItem_eq]

@[simp] theorem readItem_shareRef : (readItem s c cp).2.shareRef = cp.shareRef := by rw [readItem_eq]

@[simp] theorem readItem_cpuid : (readItem s c cp).2.cpuid = cp.cpuid := by rw [readItem_eq]

@[simp] theorem readItem_start : (readItem s c cp).2.start = cp.start := by rw [readItem_eq]

@[simp] theorem readItem_flagCache : (readItem s c cp).2.flagCache = cp.flagCache := by rw [readItem_eq]

@[simp] theorem readItem_value : (readItem s c cp).2.value = cp.value := by rw [readItem_eq]

end

@[simp] theorem newItem_sha1 (h : Heap) (info : Digest) (value : List UInt8) :
    (newItem h info value).2.sha1 = info := by simp [newItem]

theorem freeDataMemory_ok {h heap : Heap} {cp' : HashinfoItem}
    (hf : freeDataMemory h cp = .ok (heap, cp')) :
    ∃ k, cp.memStyle = some k ∧ cp' = { cp with memStyle := none } ∧
      heap = { h with freed := cp.data :: h.freed, mm := update h.mm k (h.mm k - cp.len) } := by
  unfold freeDataMemory at hf
  cases hm : cp.memStyle with
  | none => simp [hm] at hf
  | some k =>
    simp only [hm, Except.ok.injEq, Prod.mk.injEq] at hf
    exact ⟨k, rfl, hf.2.symm, hf.1.symm⟩

theorem TableOk.change (ht : TableOk cfg s) (h : Change cfg a s t) : TableOk cfg t := by
  obtain ⟨hx, hk⟩ := ht
  cases h with
  | miss => exact ⟨hx, hk⟩
  | hit _ _ _ hl => exact ⟨hx.touch (lookup_some hl).1 rfl, hk⟩
  | refuse => exact ⟨hx, hk⟩
  | insert _ _ hl => exact ⟨hx.insert (congrArg bkt (newItem_sha1 _ _ _)), hk.insert⟩
  | release _ _ hi => exact ⟨hx.touch hi rfl, hk⟩
  | queue => exact ⟨hx, hk⟩
  | read _ _ hi => exact ⟨hx.touch hi (by simp [HashinfoItem.release]), hk⟩
  | delete _ hl hb => exact ⟨hx.delete hb, hk.delete hl⟩
  | age _ _ _ hi => exact ⟨hx.touch hi rfl, hk⟩
  | pend => exact ⟨hx, hk⟩
  | start hc => exact ⟨hx, hk.set hc (by simp [Phase.locked]) (hx.nodup _) (fun _ h => h)⟩
  | mark hw hp ht hi => exact ⟨hx.touch hi rfl, hk.step hw (by rw [hp]; rfl) ht rfl rfl rfl⟩
  | unmark hw hp ht hi => exact ⟨hx.touch hi rfl, hk.step hw (by rw [hp]; rfl) ht rfl rfl rfl⟩
  | place hw hp ht hi => exact ⟨hx.touch hi rfl, hk.step hw (by rw [hp]; rfl) ht rfl rfl rfl⟩
  | commit hw hp ht hi _ hf =>
    obtain ⟨k, _, rfl, _⟩ := freeDataMemory_ok hf
    exact ⟨hx.touch hi rfl, hk.step hw (by rw [hp]; rfl) ht rfl rfl rfl⟩
  | skipMark hw hp ht => exact ⟨hx, hk.step hw (by rw [hp]; rfl) ht rfl rfl rfl⟩
  | skipPlace hw hp ht => exact ⟨hx, hk.step hw (by rw [hp]; rfl) ht rfl rfl rfl⟩
  | skipCommit hw hp ht => exact ⟨hx, hk.step hw (by rw [hp]; rfl) ht rfl rfl rfl⟩
  | markNone => exact ⟨hx, hk.clear⟩
  | markDone hw => exact ⟨hx, hk.set (hk.online _ _ hw) (by simp [Phase.locked]) (hx.nodup _) (fun _ h => h)⟩
  | placeDone hw hp ht =>
    exact ⟨hx, hk.set (hk.online _ _ hw) (fun _ => ht) (by simp [ht]) (by simp [ht])⟩
  | write hw hp =>
    have ht := hk.unlocked _ _ hw (by rw [hp]; rfl)
    exact ⟨hx, hk.set (hk.online _ _ hw) (fun _ => ht) (by simp [ht]) (by simp [ht])⟩
  | relock hw => exact ⟨hx, hk.set (hk.online _ _ hw) (by simp [Phase.locked]) (hx.nodup _) (fun _ h => h)⟩
  | commitDone => exact ⟨hx, hk.clear⟩

theorem tableOk_init (file : Nat → Nat → UInt8) : TableOk cfg (init file) :=
  ⟨⟨fun _ _ => rfl, by simp [init], fun _ => List.nodup_nil⟩,
    ⟨by simp [init], by simp [init], by simp [init], by simp [init]⟩⟩

theorem clearItem_frame {flag flag' : Bool} (h : clearItem b s flag id = .ok (t, flag')) :
    t.wr = s.wr ∧ ∀ j ≠ id, j ∈ s.hashTab b → j ∈ t.hashTab b := by
  unfold clearItem at h
  cases hi : s.items id with
  | none => simp [hi] at h
  | some cp =>
    cases he : cp.expired with
    | true =>
      cases hf : freeBuffer s.heap cp with
      | error f => simp [hi, he, deleteItem, hf] at h
      | ok p =>
        simp only [hi, he, if_true, deleteItem, hf, Except.ok.injEq, Prod.mk.injEq] at h
        obtain ⟨rfl, rfl⟩ := h
        refine ⟨rfl, fun j hj hm => ?_⟩
        simpa using (List.mem_erase_of_ne hj).mpr hm
    | false =>
      simp only [hi, he, Bool.false_eq_true, if_false, Except.ok.injEq, Prod.mk.injEq] at h
      obtain ⟨rfl, rfl⟩ := h
      exact ⟨rfl, fun _ _ hm => hm⟩

theorem chain_of_clearLoop {ids : List Nat} {flag flag' : Bool} (ht : TableOk cfg s)
    (hl : writeLockFree cfg s b = true) (hnd : ids.Nodup) (hsub : ∀ id ∈ ids, id ∈ s.hashTab b)
    (h : clearLoop b ids s flag = .ok (t, flag')) :
    Relation.ReflTransGen (Change cfg (.bucketClearItem b)) s t := by
  induction ids generalizing s flag with
  | nil =>
    simp only [clearLoop, Except.ok.injEq, Prod.mk.injEq] at h
    obtain ⟨rfl, rfl⟩ := h
    exact .refl
  | cons id ids ih =>
    obtain ⟨hid, hnd⟩ := List.nodup_cons.mp hnd
    cases hc : clearItem b s flag id with
    | error e => simp [clearLoop, hc] at h
    | ok p =>
      obtain ⟨u, f⟩ := p
      have hch : Change cfg (.bucketClearItem b) s u :=
        change_of_clearItem hl (hsub id List.mem_cons_self) hc
      obtain ⟨hwr, hkeep⟩ := clearItem_frame hc
      refine .head hch (ih (ht.change hch) (by simpa [writeLockFree, hwr] using hl) hnd ?_
        (by simpa [clearLoop, hc] using h))
      exact fun j hj => hkeep j (fun e => hid (e ▸ hj)) (hsub j (List.mem_cons_of_mem _ hj))

theorem chain_of_bucketClearItem (ht : TableOk cfg s) (hl : writeLockFree cfg s b = true)
    (h : bucketClearItem s b = .ok t) :
    Relation.ReflTransGen (Change cfg (.bucketClearItem b)) s t := by
  unfold bucketClearItem at h
  cases hc : clearLoop b (s.hashTab b) s false with
  | error e => simp [hc] at h
  | ok p =>
    obtain ⟨u, f⟩ := p
    simp only [hc, Except.ok.injEq] at h
    subst h
    exact (chain_of_clearLoop ht hl (ht.indexed.nodup b) (fun _ hm => hm) hc).tail (.pend _)

theorem chain_of_step (ht : TableOk cfg s) (h : step cfg s a = .ok t) :
    Change cfg a s t ∨
      ∃ b, a = .bucketClearItem b ∧ Relation.ReflTransGen (Change cfg (.bucketClearItem b)) s t := by
  by_cases ha : ∃ b, a = .bucketClearItem b
  · obtain ⟨b, rfl⟩ := ha
    simp only [step] at h
    split at h
    · exact .inr ⟨b, rfl, chain_of_bucketClearItem ht ‹_› h⟩
    · cases h
  · exact .inl (change_of_step (fun b hb => ha ⟨b, hb⟩) h)

theorem preserved_by_step {C : State → Act → Prop} {I : State → Prop}
    (hC : ∀ s b, C s (.bucketClearItem b))
    (hI : ∀ a s t, TableOk cfg s → Change cfg a s t → C s a → I s → I t)
    (hc : C s a) (h : step cfg s a = .ok t) (hs : TableOk cfg s ∧ I s) : TableOk cfg t ∧ I t := by
  have hchange : ∀ a s t, Change cfg a s t → C s a → TableOk cfg s ∧ I s → TableOk cfg t ∧ I t :=
    fun a s t hch hc hs => ⟨hs.1.change hch, hI a s t hs.1 hch hc hs.2⟩
  rcases chain_of_step hs.1 h with hch | ⟨b, rfl, hch⟩
  · exact hchange a s t hch hc hs
  · exact invariant_of_chain (P := fun s => TableOk cfg s ∧ I s)
      (fun s t hst => hchange _ s t hst (hC s b)) hch hs

/-- The invariant rule of the cache: what every change admitted by `C` preserves holds in
every state that a run of admitted steps reaches. -/
theorem invariant_of_change {C : State → Act → Prop} {I : State → Prop}
    (hC : ∀ s b, C s (.bucketClearItem b))
    (hI : ∀ a s t, TableOk cfg s → Change cfg a s t → C s a → I s → I t)
    {file : Nat → Nat → UInt8} {as : List Act} (h : Run (step cfg) C (init file) as s)
    (h0 : I (init file)) : TableOk cfg s ∧ I s :=
  Run.invariant (P := fun s => TableOk cfg s ∧ I s)
    (fun _ _ _ hc hst hs => preserved_by_step hC hI hc hst hs) h ⟨tableOk_init file, h0⟩

end Wspack.KernelHash
