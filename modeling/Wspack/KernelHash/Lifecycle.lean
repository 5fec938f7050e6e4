import Wspack.KernelHash.Refs
import Wspack.Lib.Ownership

namespace Wspack.KernelHash

open Function (update)
open Lib

structure ItemOk (cp : HashinfoItem) : Prop where
  memory : cp.flagCache = .memory ∨ cp.flagCache = .willWrite ∨ cp.flagCache = .always →
    cp.memStyle = some (memStyleOf cp.len)
  disk : cp.flagCache = .disk → cp.memStyle = none ∧ 0 ≤ cp.cpuid
  readBack : cp.flagCache = .readBack → 0 ≤ cp.cpuid
  unplaced : cp.flagCache = .memory ∨ cp.flagCache = .always → cp.cpuid < 0
  style : ∀ k, cp.memStyle = some k → k = memStyleOf cp.len
  loaded : cp.flagMem = true → cp.flagCache = .readBack ∧ cp.memStyle ≠ none

structure LifeOk (items : Nat → Option HashinfoItem) (readList : List ReadSkb) : Prop where
  item : ∀ id cp, items id = some cp → ItemOk cp
  queued : ∀ r ∈ readList, ∀ cp, items r.item = some cp →
    cp.flagCache = .readBack ∧ cp.cpuid = r.cpu

section
variable {cp : HashinfoItem}

theorem ItemOk.hit (h : ItemOk cp) : ItemOk cp.hit := by
  by_cases hd : cp.flagCache = .disk
  · have hf : cp.hit.flagCache = .readBack := by simp [HashinfoItem.hit, hd]
    refine ⟨?_, ?_, fun _ => (h.disk hd).2, ?_, h.style, fun hl => ?_⟩
    · simp [hf]
    · simp [hf]
    · simp [hf]
    · have hr := (h.loaded hl).1
      rw [hd] at hr
      cases hr
  · have hf : cp.hit.flagCache = cp.flagCache := by simp [HashinfoItem.hit, hd]
    rw [← hf] at hd
    exact ⟨hf ▸ h.memory, fun hd' => absurd hd' hd, hf ▸ h.readBack, hf ▸ h.unplaced, h.style,
      hf ▸ h.loaded⟩

theorem ItemOk.release (h : ItemOk cp) (hf : cp.flagCache ≠ .readBack) : ItemOk cp.release :=
  ⟨h.memory, h.disk, fun hr => absurd hr hf, h.unplaced, h.style, h.loaded⟩

theorem HashinfoItem.age_flagCache (cp : HashinfoItem) :
    cp.age.flagCache = cp.flagCache ∨
      (cp.flagCache = .memory ∧ (cp.age.flagCache = .willWrite ∨ cp.age.flagCache = .always)) ∨
      (cp.flagCache = .willWrite ∧ cp.age.flagCache = .always ∧ cp.cpuid < 0) := by
  simp only [HashinfoItem.age, HashinfoItem.nextFlag]
  cases cp.flagCache with
  | memory => simp only [and_true]; split_ifs <;> simp_all
  | willWrite => simp only [reduceCtorEq, and_false, if_false, true_and]; split_ifs <;> simp_all
  | _ => simp

theorem HashinfoItem.age_readBack (h : cp.flagCache = .readBack) : cp.age.flagCache = .readBack := by
  rcases cp.age_flagCache with ha | ⟨ha, _⟩ | ⟨ha, _⟩ <;> simp_all

theorem ItemOk.reflag (h : ItemOk cp) {cp' : HashinfoItem}
    (hf : cp.flagCache = .memory ∨ cp.flagCache = .willWrite ∨ cp.flagCache = .always)
    (hf' : cp'.flagCache = .willWrite ∨ cp'.flagCache = .always ∧ cp'.cpuid < 0)
    (hm : cp'.memStyle = cp.memStyle) (hl : cp'.len = cp.len) (hg : cp'.flagMem = cp.flagMem) :
    ItemOk cp' where
  memory _ := by
    rw [hm, hl]
    exact h.memory hf
  disk hd := by
    rcases hf' with hf' | ⟨hf', _⟩ <;> simp [hf'] at hd
  readBack hr := by
    rcases hf' with hf' | ⟨hf', _⟩ <;> simp [hf'] at hr
  unplaced hu := by
    rcases hf' with hf' | ⟨_, hneg⟩
    · simp [hf'] at hu
    · exact hneg
  style k hk := by
    rw [hl]
    exact h.style k (hm ▸ hk)
  loaded hload := by
    have hr := (h.loaded (hg ▸ hload)).1
    rcases hf with hf | hf | hf <;> simp [hf] at hr

theorem ItemOk.age (h : ItemOk cp) : ItemOk cp.age := by
  rcases cp.age_flagCache with hf | ⟨hf, ha | ha⟩ | ⟨hf, ha, hneg⟩
  · exact ⟨hf ▸ h.memory, hf ▸ h.disk, hf ▸ h.readBack, hf ▸ h.unplaced, h.style, hf ▸ h.loaded⟩
  · exact h.reflag (.inl hf) (.inl ha) rfl rfl rfl
  · exact h.reflag (.inl hf) (.inr ⟨ha, h.unplaced (.inl hf)⟩) rfl rfl rfl
  · exact h.reflag (.inr (.inl hf)) (.inr ⟨ha, hneg⟩) rfl rfl rfl

theorem HashinfoItem.markable_iff : cp.markable = true ↔
    cp.diskRange = true ∧ cp.flagCache = .willWrite ∧ cp.cpuid = -1 ∧ cp.shareRef = 1 := by
  simp [HashinfoItem.markable, and_assoc]

theorem HashinfoItem.unmarkable_iff : cp.unmarkable = true ↔
    cp.cpuid = -2 ∧ cp.flagCache = .willWrite ∧ 1 < cp.shareRef := by
  simp [HashinfoItem.unmarkable, and_assoc]

theorem HashinfoItem.placeable_iff : cp.placeable = true ↔
    cp.diskRange = true ∧ cp.cpuid = -2 ∧ cp.flagCache = .willWrite ∧ cp.shareRef = 1 := by
  simp [HashinfoItem.placeable, and_assoc]

theorem HashinfoItem.committable_iff : cp.committable = true ↔
    cp.flagCache = .willWrite ∧ cp.shareRef = 1 ∧ 0 ≤ cp.cpuid := by
  simp [HashinfoItem.committable, and_assoc]

theorem ItemOk.recpu (h : ItemOk cp) {cp' : HashinfoItem} (hf : cp.flagCache = .willWrite)
    (hf' : cp'.flagCache = cp.flagCache) (hm : cp'.memStyle = cp.memStyle) (hl : cp'.len = cp.len)
    (hg : cp'.flagMem = cp.flagMem) : ItemOk cp' :=
  h.reflag (.inr (.inl hf)) (.inl (hf'.trans hf)) hm hl hg

theorem ItemOk.commit (h : ItemOk cp) (hc : cp.committable = true) :
    ItemOk { cp with flagCache := .disk, memStyle := none } := by
  obtain ⟨hf, _, hcpu⟩ := HashinfoItem.committable_iff.mp hc
  have hfm : cp.flagMem ≠ true := fun hm => by simpa [hf] using (h.loaded hm).1
  constructor <;> simp_all

theorem itemOk_newItem (h : Heap) (info : Digest) (value : List UInt8) :
    ItemOk (newItem h info value).2 := by
  constructor <;> simp [newItem, allocDataMemory]

theorem readItem_loaded (s : State) (c : Nat) (cp : HashinfoItem) :
    (readItem s c cp).2.flagMem = true := by
  unfold readItem
  split
  · assumption
  · rfl

theorem readItem_memStyle (s : State) (c : Nat) (h : ItemOk cp) :
    (readItem s c cp).2.memStyle = some (memStyleOf cp.len) := by
  unfold readItem allocDataMemory
  split
  · obtain ⟨k, hk⟩ := Option.ne_none_iff_exists'.mp (h.loaded ‹_›).2
    rw [hk, h.style k hk]
  · cases hm : cp.memStyle with
    | none => rfl
    | some k => simp [hm, h.style k hm]

theorem ItemOk.read (h : ItemOk cp) (hf : cp.flagCache = .readBack) (s : State) (c : Nat) :
    ItemOk (readItem s c cp).2.release := by
  have hm := readItem_memStyle s c h
  have hl := readItem_loaded s c cp
  have hcpu := h.readBack hf
  constructor <;> simp_all [HashinfoItem.release]

end

section
variable {items : Nat → Option HashinfoItem} {readList : List ReadSkb} {id : Nat}
  {cp cp' : HashinfoItem}

theorem LifeOk.touch (h : LifeOk items readList) (hi : items id = some cp) (hok : ItemOk cp')
    (hq : cp.flagCache = .readBack → cp'.flagCache = .readBack ∧ cp'.cpuid = cp.cpuid) :
    LifeOk (update items id (some cp')) readList where
  item := forall_update h.item hok
  queued r hr cj hj := by
    rcases update_eq_some hj with ⟨rfl, he⟩ | ⟨_, hj⟩
    · cases he
      obtain ⟨hf, hc⟩ := h.queued r hr cp hi
      exact ⟨(hq hf).1, (hq hf).2.trans hc⟩
    · exact h.queued r hr cj hj

theorem LifeOk.insert (h : LifeOk items readList) (hok : ItemOk cp)
    (hq : ∀ r ∈ readList, r.item ≠ id) : LifeOk (update items id (some cp)) readList where
  item := forall_update h.item hok
  queued r hr cj hj := by
    rw [Function.update_of_ne (hq r hr)] at hj
    exact h.queued r hr cj hj

theorem LifeOk.delete (h : LifeOk items readList) : LifeOk (update items id none) readList where
  item j cj hj := h.item j cj (of_update_none hj)
  queued r hr cj hj := h.queued r hr cj (of_update_none hj)

end

variable {cfg : Config} {s t : State} {a : Act} {b c id : Nat} {cp : HashinfoItem} {w : WrFile}

def State.LifeOk (s : State) : Prop := KernelHash.LifeOk s.items s.readList

theorem State.LifeOk.change (hr : s.RefsOk cfg) (h : s.LifeOk) (hch : Change cfg a s t) : t.LifeOk := by
  cases hch with
  | hit _ _ _ hl =>
    have hi := (lookup_some hl).1
    exact LifeOk.touch h hi (LifeOk.item h _ _ hi).hit
      (fun hf => ⟨by simp [HashinfoItem.hit, hf], rfl⟩)
  | insert =>
    refine LifeOk.insert h (itemOk_newItem _ _ _) (fun r hq e => ?_)
    have hpos := @queued_pos cfg s.hand s.readList r hq
    rw [RefsOk.fresh hr _ e.ge] at hpos
    exact absurd hpos (lt_irrefl 0)
  | release _ _ hi hf =>
    exact LifeOk.touch h hi ((LifeOk.item h _ _ hi).release hf) (fun hf' => absurd hf' hf)
  | queue _ _ hi hf =>
    refine ⟨LifeOk.item h, fun r hq cj hj => ?_⟩
    rcases List.mem_cons.mp hq with rfl | hq
    · obtain rfl := Option.some.inj (hi.symm.trans hj)
      have hcpu := (LifeOk.item h _ _ hi).readBack hf
      exact ⟨hf, by simp [hcpu]⟩
    · exact LifeOk.queued h r hq cj hj
  | read _ hq hi =>
    have hf := (LifeOk.queued h _ (List.mem_of_getElem? hq) _ hi).1
    refine LifeOk.touch ⟨LifeOk.item h, fun r hr => LifeOk.queued h r (List.mem_of_mem_eraseIdx hr)⟩
      hi ((LifeOk.item h _ _ hi).read hf _ _) (fun _ => ?_)
    simp [HashinfoItem.release, hf]
  | delete => exact LifeOk.delete h
  | age _ _ _ hi =>
    exact LifeOk.touch h hi (LifeOk.item h _ _ hi).age
      (fun hf => ⟨HashinfoItem.age_readBack hf, rfl⟩)
  | mark _ _ _ hi hm =>
    have hf := (HashinfoItem.markable_iff.mp hm).2.1
    exact LifeOk.touch h hi ((LifeOk.item h _ _ hi).recpu hf rfl rfl rfl rfl) (by simp [hf])
  | unmark _ _ _ hi hm =>
    have hf := (HashinfoItem.unmarkable_iff.mp hm).2.1
    exact LifeOk.touch h hi ((LifeOk.item h _ _ hi).recpu hf rfl rfl rfl rfl) (by simp [hf])
  | place _ _ _ hi hm =>
    have hf := (HashinfoItem.placeable_iff.mp hm).2.2.1
    exact LifeOk.touch h hi ((LifeOk.item h _ _ hi).recpu hf rfl rfl rfl rfl) (by simp [hf])
  | commit _ _ _ hi hm hfree =>
    obtain ⟨_, _, rfl, _⟩ := freeDataMemory_ok hfree
    have hf := (HashinfoItem.committable_iff.mp hm).1
    exact LifeOk.touch h hi ((LifeOk.item h _ _ hi).commit hm) (by simp [hf])
  | _ => exact h

def State.Pending (cfg : Config) (s : State) : Prop :=
  ∀ id cp, s.items id = some cp → cp.flagCache = .readBack → cp.flagMem = true ∨ 0 < holdsOf cfg s id

section
variable {cp' : HashinfoItem} {j : Nat}

theorem State.Pending.touch (h : s.Pending cfg) (hitems : t.items = update s.items id (some cp'))
    (hheld : ∀ j ≠ id, holdsOf cfg t j = holdsOf cfg s j)
    (hp : cp'.flagCache = .readBack → cp'.flagMem = true ∨ 0 < holdsOf cfg t id) : t.Pending cfg := by
  intro j cj hj hf
  rw [hitems] at hj
  rcases update_eq_some hj with ⟨rfl, he⟩ | ⟨hne, hj⟩
  · cases he
    exact hp hf
  · rw [hheld j hne]
    exact h j cj hj hf

theorem State.Pending.keep (h : s.Pending cfg) (hi : s.items id = some cp)
    (hitems : t.items = update s.items id (some cp')) (hheld : ∀ j, holdsOf cfg t j = holdsOf cfg s j)
    (hf : cp'.flagCache = .readBack → cp.flagCache = .readBack) (hm : cp'.flagMem = cp.flagMem) :
    t.Pending cfg :=
  h.touch hitems (fun j _ => hheld j) (fun hr => by rw [hheld, hm]; exact h id cp hi (hf hr))

theorem State.Pending.congr (h : s.Pending cfg) (hitems : ∀ j cj, t.items j = some cj → s.items j = some cj)
    (hheld : ∀ j, holdsOf cfg t j = holdsOf cfg s j) : t.Pending cfg := by
  intro j cj hj hf
  rw [hheld]
  exact h j cj (hitems j cj hj) hf

end

theorem State.Pending.change (hr : s.RefsOk cfg) (h : s.Pending cfg)
    (hch : Change cfg a s t) : t.Pending cfg := by
  cases hch with
  | miss hc hh =>
    exact h.congr (fun _ _ => id) (fun _ => outstanding_rehand hc (by simp [hh, Hand.carries])
      (by simp [Hand.carries]))
  | @hit _ c src dst id cp _ hc hh hl =>
    refine h.touch rfl (fun j hne => (outstanding_found hc hh).trans ?_) (fun _ => .inr ?_)
    · rw [beq_false_of_ne hne.symm]
      exact add_zero _
    · refine lt_of_lt_of_eq ?_ (outstanding_found hc hh).symm
      have hnn := outstanding_nonneg cfg (fun i _ => i == id) s.hand s.readList
      simp only [beq_self_eq_true, if_true]
      omega
  | @refuse _ c _ _ _ _ hh =>
    exact h.congr (fun _ _ => id) (fun _ => outstanding_rehand (RefsOk.lt_ncpu hr (by simp [hh]))
      (by simp [hh, Hand.carries]) (by simp [Hand.carries]))
  | @insert _ c _ _ _ _ hh =>
    exact h.touch rfl (fun _ _ => outstanding_rehand (RefsOk.lt_ncpu hr (by simp [hh]))
      (by simp [hh, Hand.carries]) (by simp [Hand.carries])) (by simp [newItem, allocDataMemory])
  | @release _ c _ _ _ _ _ hh hi hf =>
    have hc : c < cfg.ncpu := RefsOk.lt_ncpu hr (by simp [hh])
    refine h.touch rfl (fun j hne => (outstanding_released hc hh).trans ?_) (fun hf' => absurd hf' hf)
    rw [beq_false_of_ne hne.symm]
    exact sub_zero _
  | @queue _ c _ _ _ _ _ hh =>
    have hc : c < cfg.ncpu := RefsOk.lt_ncpu hr (by simp [hh])
    exact h.congr (fun _ _ => id) (fun _ => outstanding_queued hc hh)
  | read _ hq =>
    refine h.touch rfl (fun j hne => (outstanding_eraseIdx hq).trans ?_)
      (fun _ => .inl (readItem_loaded _ _ _))
    rw [beq_false_of_ne hne.symm]
    exact sub_zero _
  | delete => exact h.congr (fun _ _ => of_update_none) (fun _ => rfl)
  | @age _ _ _ cp _ _ _ hi =>
    refine h.keep hi rfl (fun _ => rfl) (fun hf => ?_) rfl
    rcases cp.age_flagCache with ha | ⟨_, ha | ha⟩ | ⟨_, ha, _⟩
    · exact ha ▸ hf
    all_goals rw [ha] at hf; cases hf
  | mark _ _ _ hi => exact h.keep hi rfl (fun _ => rfl) id rfl
  | unmark _ _ _ hi => exact h.keep hi rfl (fun _ => rfl) id rfl
  | place _ _ _ hi => exact h.keep hi rfl (fun _ => rfl) id rfl
  | commit _ _ _ hi _ hfree =>
    obtain ⟨_, _, rfl, _⟩ := freeDataMemory_ok hfree
    exact h.touch rfl (fun _ _ => rfl) (fun hf => by cases hf)
  | _ => exact h.congr (fun _ _ => id) (fun _ => rfl)

def bufferOf (o : Option HashinfoItem) : Option Nat :=
  o.bind (fun cp => if cp.memStyle.isSome then some cp.data else none)

def Buffers (items : Nat → Option HashinfoItem) (heap : Heap) : Prop :=
  Owned (fun id => bufferOf (items id)) heap.next heap.freed

section
variable {items : Nat → Option HashinfoItem} {heap heap' : Heap} {cp' : HashinfoItem}

theorem bufferOf_update (items : Nat → Option HashinfoItem) (id : Nat) (o : Option HashinfoItem) :
    (fun j => bufferOf (update items id o j)) = update (fun j => bufferOf (items j)) id (bufferOf o) :=
  Function.comp_update bufferOf items id o

theorem Buffers.touch (h : Buffers items heap) (hi : items id = some cp)
    (hm : cp'.memStyle = cp.memStyle) (hd : cp'.data = cp.data) :
    Buffers (update items id (some cp')) heap := by
  have heq : bufferOf (some cp') = bufferOf (items id) := by simp [bufferOf, hi, hm, hd]
  unfold Buffers
  rw [bufferOf_update, heq, Function.update_eq_self]
  exact h

theorem Buffers.alloc (h : Buffers items heap) (hi : bufferOf (items id) = none)
    (hb : bufferOf (some cp') = some heap.next) (hn : heap'.next = heap.next + 1)
    (hf : heap'.freed = heap.freed) : Buffers (update items id (some cp')) heap' := by
  unfold Buffers
  rw [bufferOf_update, hb, hn, hf]
  exact Owned.alloc h hi

theorem Buffers.free {o : Option HashinfoItem} {k : MemStyle} (h : Buffers items heap)
    (hi : items id = some cp) (hk : cp.memStyle = some k) (ho : bufferOf o = none)
    (hn : heap'.next = heap.next) (hf : heap'.freed = cp.data :: heap.freed) :
    Buffers (update items id o) heap' := by
  unfold Buffers
  rw [bufferOf_update, ho, hn, hf]
  exact Owned.free h (by simp [bufferOf, hi, hk])

theorem Buffers.drop {o : Option HashinfoItem} (h : Buffers items heap)
    (hi : bufferOf (items id) = none) (ho : bufferOf o = none) : Buffers (update items id o) heap := by
  unfold Buffers
  rw [bufferOf_update, ho, ← hi, Function.update_eq_self]
  exact h

theorem Buffers.read (h : Buffers s.items s.heap) (hi : s.items id = some cp) :
    Buffers (update s.items id (some (readItem s c cp).2.release)) (readItem s c cp).1 := by
  cases hl : cp.flagMem with
  | true =>
    simp only [readItem, hl, if_true]
    exact h.touch hi rfl rfl
  | false =>
    cases hm : cp.memStyle with
    | some k =>
      simp only [readItem, hl, allocDataMemory, hm, Bool.false_eq_true, if_false]
      exact h.touch hi hm.symm rfl
    | none =>
      simp only [readItem, hl, allocDataMemory, hm, Bool.false_eq_true, if_false]
      exact h.alloc (by simp [bufferOf, hi, hm]) (by simp [bufferOf, HashinfoItem.release]) rfl rfl

theorem HashinfoItem.holdsBuffer_eq_false : cp.holdsBuffer = false ↔ cp.flagCache = .disk := by
  unfold HashinfoItem.holdsBuffer
  cases cp.flagCache <;> simp

theorem Buffers.delete (h : Buffers items heap) (hi : items id = some cp) (hok : ItemOk cp)
    (hf : freeBuffer heap cp = .ok (heap', cp')) : Buffers (update items id none) heap' := by
  cases hb : cp.holdsBuffer with
  | true =>
    simp only [freeBuffer, hb, if_true] at hf
    obtain ⟨k, hk, _, rfl⟩ := freeDataMemory_ok hf
    exact h.free hi hk rfl rfl rfl
  | false =>
    simp only [freeBuffer, hb, Bool.false_eq_true, if_false, Except.ok.injEq, Prod.mk.injEq] at hf
    rw [← hf.1]
    have hm := (hok.disk (HashinfoItem.holdsBuffer_eq_false.mp hb)).1
    exact h.drop (by simp [bufferOf, hi, hm]) rfl

end

theorem State.LifeOk.change_buffers (hx : TableOk cfg s) (hl : s.LifeOk)
    (h : Buffers s.items s.heap) (hch : Change cfg a s t) : Buffers t.items t.heap := by
  cases hch with
  | hit _ _ _ hl => exact h.touch (lookup_some hl).1 rfl rfl
  | insert =>
    exact h.alloc (by simp [bufferOf, hx.indexed.fresh _ le_rfl])
      (by simp [bufferOf, newItem, allocDataMemory]) rfl rfl
  | release _ _ hi => exact h.touch hi rfl rfl
  | read _ _ hi => exact h.read hi
  | delete _ _ _ hi _ hf => exact h.delete hi (LifeOk.item hl _ _ hi) hf
  | age _ _ _ hi => exact h.touch hi rfl rfl
  | mark _ _ _ hi => exact h.touch hi rfl rfl
  | unmark _ _ _ hi => exact h.touch hi rfl rfl
  | place _ _ _ hi => exact h.touch hi rfl rfl
  | commit _ _ _ hi _ hf =>
    obtain ⟨k, hk, rfl, rfl⟩ := freeDataMemory_ok hf
    exact h.free hi hk (by simp [bufferOf]) rfl rfl
  | _ => exact h

/-- The invariants that hold under every schedule; the rest of the development builds on
them. -/
structure Sound (cfg : Config) (s : State) : Prop where
  table : TableOk cfg s
  refs : s.RefsOk cfg
  life : s.LifeOk
  pending : s.Pending cfg
  buffers : Buffers s.items s.heap

theorem Sound.change (h : Sound cfg s) (hch : Change cfg a s t) : Sound cfg t where
  table := h.table.change hch
  refs := h.refs.change h.table hch
  life := h.life.change h.refs hch
  pending := h.pending.change h.refs hch
  buffers := h.life.change_buffers h.table h.buffers hch

theorem sound_init (file : Nat → Nat → UInt8) : Sound cfg (init file) where
  table := tableOk_init file
  refs := refsOk_init file
  life := ⟨by simp [init], by simp [init]⟩
  pending := by simp [State.Pending, init]
  buffers := ⟨by simp [init, bufferOf], by simp [init, bufferOf], by simp [init], by simp [init],
    by simp [init]⟩

theorem Sound.step (h : Sound cfg s) (hst : step cfg s a = .ok t) : Sound cfg t := by
  rcases chain_of_step h.table hst with hch | ⟨_, _, hch⟩
  · exact h.change hch
  · exact invariant_of_chain (fun _ _ hch h => h.change hch) hch h

theorem invariant_of_sound {C : State → Act → Prop} {I : State → Prop}
    (hC : ∀ s b, C s (.bucketClearItem b))
    (hI : ∀ a s t, Sound cfg s → Change cfg a s t → C s a → I s → I t)
    {file : Nat → Nat → UInt8} {as : List Act} (h : Run (step cfg) C (init file) as s)
    (h0 : I (init file)) : Sound cfg s ∧ I s :=
  (invariant_of_change (I := fun s => Sound cfg s ∧ I s) hC
    (fun a s t _ hch hc hs => ⟨hs.1.change hch, hI a s t hs.1 hch hc hs.2⟩) h
    ⟨sound_init file, h0⟩).2

theorem sound_of_run {C : State → Act → Prop} {file : Nat → Nat → UInt8} {as : List Act}
    (h : Run (KernelHash.step cfg) C (init file) as s) : Sound cfg s :=
  Run.invariant (fun _ _ _ _ hst hs => Sound.step hs hst) h (sound_init file)

theorem Sound.item (h : Sound cfg s) (hi : s.items id = some cp) : ItemOk cp := h.life.item id cp hi

theorem Sound.listed (h : Sound cfg s) (hb : id ∈ s.hashTab b) : ∃ cp, s.items id = some cp := by
  obtain ⟨cp, hi, _⟩ := (h.table.indexed.mem_iff b id).mp hb
  exact ⟨cp, hi⟩

theorem Sound.walked (h : Sound cfg s) {rest : List Nat} (hw : s.wr c = some w)
    (ht : w.todo = id :: rest) : ∃ cp, s.items id = some cp :=
  h.listed (h.table.walks.next hw ht)

theorem ItemOk.freeBuffer_ok (h : ItemOk cp) (hl : cp.flagCache = .readBack → cp.flagMem = true) (heap : Heap) :
    ∃ p, freeBuffer heap cp = .ok p := by
  have hm : cp.flagCache ≠ .disk → cp.memStyle ≠ none := by
    intro hd
    cases hf : cp.flagCache with
    | disk => exact absurd hf hd
    | readBack => exact (h.loaded (hl hf)).2
    | _ => simp [h.memory (by simp [hf])]
  cases hb : cp.holdsBuffer with
  | true =>
    have hd : cp.flagCache ≠ .disk := fun e => by
      rw [HashinfoItem.holdsBuffer_eq_false.mpr e] at hb; cases hb
    obtain ⟨k, hk⟩ := Option.ne_none_iff_exists'.mp (hm hd)
    simp [freeBuffer, hb, freeDataMemory, hk]
  | false => simp [freeBuffer, hb]

theorem Sound.loaded (h : Sound cfg s) (hi : s.items id = some cp) (h0 : holdsOf cfg s id = 0)
    (hf : cp.flagCache = .readBack) : cp.flagMem = true :=
  (h.pending id cp hi hf).resolve_right (by omega)

theorem Sound.clearItem_ok (h : Sound cfg s) (hp : s.Protected cfg) (hb : id ∈ s.hashTab b) (flag : Bool) :
    ∃ p, clearItem b s flag id = .ok p := by
  obtain ⟨cp, hi⟩ := h.listed hb
  cases he : cp.expired with
  | true =>
    have hshare := hp.share h.refs hi
    rw [(HashinfoItem.expired_iff.mp he).1] at hshare
    obtain ⟨p, hfree⟩ := (h.item hi).freeBuffer_ok (h.loaded hi (by omega)) s.heap
    simp [clearItem, hi, he, deleteItem, hfree]
  | false => simp [clearItem, hi, he]

theorem Sound.clearLoop_ok {ids : List Nat} (h : Sound cfg s) (hp : s.Protected cfg) (hl : writeLockFree cfg s b = true)
    (hnd : ids.Nodup) (hsub : ∀ id ∈ ids, id ∈ s.hashTab b) (flag : Bool) :
    ∃ p, clearLoop b ids s flag = .ok p := by
  induction ids generalizing s flag with
  | nil => exact ⟨_, rfl⟩
  | cons id ids ih =>
    obtain ⟨hid, hnd⟩ := List.nodup_cons.mp hnd
    have hm := hsub id List.mem_cons_self
    obtain ⟨⟨t, f⟩, hc⟩ := h.clearItem_ok hp hm flag
    obtain ⟨hwr, hkeep⟩ := clearItem_frame hc
    simp only [clearLoop, hc]
    have hch := change_of_clearItem hl hm hc
    refine ih (h.change hch) (hp.change h.refs rfl hch) (by simpa [writeLockFree, hwr] using hl) hnd
      (fun j hj => hkeep j (fun e => hid (e ▸ hj)) (hsub j (List.mem_cons_of_mem _ hj))) f

theorem Sound.bucketClearItem_ok (h : Sound cfg s) (hp : s.Protected cfg) (hl : writeLockFree cfg s b = true) :
    ∃ t, bucketClearItem s b = .ok t := by
  obtain ⟨⟨t, f⟩, hc⟩ := h.clearLoop_ok hp hl (h.table.indexed.nodup b) (fun _ hm => hm) false
  exact ⟨_, by simp [bucketClearItem, hc]; rfl⟩

theorem Sound.commitItem_ok {rest : List Nat} (h : Sound cfg s) (hi : s.items id = some cp) :
    ∃ t, commitItem s c w id cp rest = .ok t := by
  cases hc : cp.committable with
  | true =>
    have hm := (h.item hi).memory (.inr (.inl (HashinfoItem.committable_iff.mp hc).1))
    simp [commitItem, hc, freeDataMemory, hm]
  | false => simp [commitItem, hc]

theorem Sound.wrStep_fault {f : Fault} (h : Sound cfg s) (hst : wrStep s c = .error (.fault f)) :
    f = .bitmapFull := by
  cases hw : s.wr c with
  | none => simp [wrStep, hw] at hst
  | some w =>
    cases ht : w.todo with
    | nil =>
      cases hp : w.phase <;> simp [wrStep, hw, hp, ht] at hst
      split at hst <;> cases hst
    | cons id rest =>
      obtain ⟨cp, hi⟩ := h.walked hw ht
      cases hp : w.phase with
      | place =>
        simp only [wrStep, hw, hp, ht, hi, placeItem] at hst
        split_ifs at hst
        cases hst
        rfl
      | commit =>
        obtain ⟨t, hok⟩ := @Sound.commitItem_ok cfg s c id cp w rest h hi
        simp [wrStep, hw, hp, ht, hi, hok] at hst
      | _ => simp [wrStep, hw, hp, ht, hi] at hst

theorem Sound.step_fault {f : Fault} (h : Sound cfg s) (hp : s.Protected cfg)
    (hst : KernelHash.step cfg s a = .error (.fault f)) : f = .bitmapFull := by
  cases a with
  | getHashItem c src dst =>
    simp only [KernelHash.step] at hst
    split at hst <;> cases hst
  | addHashInfo c z =>
    simp only [KernelHash.step, handAdd] at hst
    split at hst
    · split at hst
      · cases hst
      · split at hst <;> cases hst
    · cases hst
  | releaseItem c =>
    cases hh : s.hand c with
    | found id hold len =>
      obtain ⟨t, ht, _⟩ := hp.releaseItem h.refs hh
      rw [ht] at hst
      cases hst
    | _ => simp [KernelHash.step, hh] at hst
  | readData i =>
    cases hr : s.readList[i]? with
    | none => simp [KernelHash.step, KernelHash.readData, hr] at hst
    | some r =>
      obtain ⟨t, ht, _⟩ := hp.readData hr
      rw [ht] at hst
      cases hst
  | bucketClearItem b =>
    simp only [KernelHash.step] at hst
    split at hst
    · obtain ⟨t, ht⟩ := h.bucketClearItem_ok hp ‹_›
      rw [ht] at hst
      cases hst
    · cases hst
  | wrStart c b =>
    simp only [KernelHash.step] at hst
    split at hst <;> cases hst
  | wrStep c => exact h.wrStep_fault hst

def Heap.allocated (h : Heap) (p : Nat) : Prop := p < h.next ∧ p ∉ h.freed

structure FlagOk (h : Heap) (cp : HashinfoItem) : Prop where
  memory : cp.flagCache = .memory ∨ cp.flagCache = .willWrite ∨ cp.flagCache = .always →
    h.allocated cp.data ∧ cp.memStyle = some (memStyleOf cp.len)
  disk : cp.flagCache = .disk → cp.memStyle = none ∧ 0 ≤ cp.cpuid
  readBack : cp.flagCache = .readBack →
    0 ≤ cp.cpuid ∧ ((cp.memStyle.isSome = true ∧ h.allocated cp.data) ∨ 1 < cp.shareRef)
  unplaced : cp.flagCache = .memory ∨ cp.flagCache = .always → cp.cpuid < 0

structure StateMachineOk (cfg : Config) (s : State) : Prop where
  flags : ∀ b, ∀ id ∈ s.hashTab b, ∃ cp, s.items id = some cp ∧ FlagOk s.heap cp
  no_bug : ∀ a f, KernelHash.step cfg s a = .error (.fault f) → f = .bitmapFull
  freed_once : s.heap.freed.Nodup

theorem Sound.allocated {k : MemStyle} (h : Sound cfg s) (hi : s.items id = some cp)
    (hk : cp.memStyle = some k) : s.heap.allocated cp.data :=
  Owned.live h.buffers id cp.data (by simp [bufferOf, hi, hk])

theorem Sound.flagOk (h : Sound cfg s) (hp : s.Protected cfg) (hi : s.items id = some cp) :
    FlagOk s.heap cp where
  memory hf := ⟨h.allocated hi ((h.item hi).memory hf), (h.item hi).memory hf⟩
  disk := (h.item hi).disk
  readBack hf := by
    refine ⟨(h.item hi).readBack hf, ?_⟩
    rcases h.pending id cp hi hf with hl | hpos
    · obtain ⟨k, hk⟩ := Option.ne_none_iff_exists'.mp ((h.item hi).loaded hl).2
      exact .inl ⟨by simp [hk], h.allocated hi hk⟩
    · have hshare := hp.share h.refs hi
      exact .inr (by omega)
  unplaced := (h.item hi).unplaced

/-- While no item has more than `2 ^ 31 - 2` holds, each item is where its `flag_cache` says, `BUG()` is
out of reach and no buffer is freed twice. -/
theorem flag_cache_sound (cfg : Config) (file : Nat → Nat → UInt8) (as : List Act) (s : State)
    (h : Run (KernelHash.step cfg) (fun s a => holdsFit cfg s a = true) (init file) as s) :
    StateMachineOk cfg s := by
  have hs := sound_of_run h
  have hp := (protected_of_run h).2.2
  refine ⟨fun b id hb => ?_, fun _ _ hst => hs.step_fault hp hst, Owned.nodup hs.buffers⟩
  obtain ⟨cp, hi⟩ := hs.listed hb
  exact ⟨cp, hi, hs.flagOk hp hi⟩

theorem flag_cache_sound_roundTrip :
    StateMachineOk twoCpus
        (final (KernelHash.step twoCpus) (holdsFit twoCpus) (init (fun _ _ => 0)) roundTrip) ∧
      ((final (KernelHash.step twoCpus) (holdsFit twoCpus) (init (fun _ _ => 0)) roundTrip).items 0).map
        (·.flagCache) = some .readBack :=
  ⟨flag_cache_sound twoCpus _ roundTrip _ (run_final (by decide +kernel)), by decide +kernel⟩

theorem flag_cache_unsound : ∃ s, Run (KernelHash.step twoCpus) (fun _ _ => True) (init (fun _ _ => 0))
    (metAgain (2 ^ 31 - 2)) s ∧ ¬StateMachineOk twoCpus s := by
  generalize hn : 2 ^ 31 - 2 = n
  obtain ⟨s, hrun, hs⟩ := awaited_metAgain n
  refine ⟨s, hrun, fun hok => ?_⟩
  obtain ⟨cp, hi, -, hf, hm, -⟩ := hs.item
  obtain ⟨cp', hi', hflag⟩ := hok.flags (bkt digestA) 0 (by simp [hs.listed])
  cases hi.symm.trans hi'
  have hshare := hs.shareRef (sound_of_run hrun).refs hi
  rcases (hflag.readBack hf).2 with ⟨hsome, -⟩ | hlt
  · simp [hm] at hsome
  · rw [hshare, wrapInt_overflow hn] at hlt
    exact absurd hlt (by decide)

end Wspack.KernelHash
