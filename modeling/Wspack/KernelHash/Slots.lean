import Wspack.KernelHash.Lifecycle
import Wspack.Lib.Extents

namespace Wspack.KernelHash

open Function (update)
open Lib

def extentOn (c : Nat) (o : Option HashinfoItem) : Option (Nat × Nat) :=
  o.bind (fun cp => if cp.cpuid = c then some (cp.start, slotCount cp.len) else none)

def SlotsOk (items : Nat → Option HashinfoItem) (bitmap : Nat → Bitmap) (bitmapIndex : Nat → Nat) :
    Prop :=
  ∀ c, Mapped (fun id => extentOn c (items id)) (bitmap c) (bitmapIndex c)

section
variable {items : Nat → Option HashinfoItem} {bitmap : Nat → Bitmap} {bitmapIndex : Nat → Nat}
  {c id find : Nat} {cp cp' : HashinfoItem}

theorem extentOn_update (c : Nat) (items : Nat → Option HashinfoItem) (id : Nat)
    (o : Option HashinfoItem) : (fun j => extentOn c (update items id o j)) =
      update (fun j => extentOn c (items j)) id (extentOn c o) :=
  Function.comp_update (extentOn c) items id o

theorem extentOn_eq_none (h : cp.cpuid < 0) (c : Nat) : extentOn c (some cp) = none := by
  simp only [extentOn, Option.bind_some, ite_eq_right_iff, reduceCtorEq, imp_false]
  omega

theorem extentOn_cpuid (h : cp.cpuid = c) :
    extentOn c (some cp) = some (cp.start, slotCount cp.len) := by
  simp [extentOn, h]

theorem extentOn_ne {c' : Nat} (h : cp.cpuid = c) (hne : c' ≠ c) : extentOn c' (some cp) = none := by
  simp only [extentOn, Option.bind_some, ite_eq_right_iff, reduceCtorEq, imp_false, h]
  omega

theorem SlotsOk.touch {o : Option HashinfoItem} (h : SlotsOk items bitmap bitmapIndex)
    (he : ∀ c, extentOn c o = extentOn c (items id)) :
    SlotsOk (update items id o) bitmap bitmapIndex := by
  intro c
  rw [extentOn_update, he, Function.update_eq_self]
  exact h c

theorem SlotsOk.offDisk (h : SlotsOk items bitmap bitmapIndex) (hi : items id = some cp)
    (hc : cp.cpuid < 0) (hc' : cp'.cpuid < 0) :
    SlotsOk (update items id (some cp')) bitmap bitmapIndex :=
  h.touch (fun c => by rw [hi, extentOn_eq_none hc, extentOn_eq_none hc'])

theorem SlotsOk.keep (h : SlotsOk items bitmap bitmapIndex) (hi : items id = some cp)
    (hc : cp'.cpuid = cp.cpuid) (hs : cp'.start = cp.start) (hl : cp'.len = cp.len) :
    SlotsOk (update items id (some cp')) bitmap bitmapIndex :=
  h.touch (fun c => by simp [extentOn, hi, hc, hs, hl])

theorem SlotsOk.find_eq (h : SlotsOk items bitmap bitmapIndex) {nr : Nat} (hnr : 0 < nr)
    (hf : find = bitmapFindNextZeroArea (bitmap c) bitmapSize (bitmapIndex c) nr 0)
    (hle : find ≤ bitmapSize) : find = bitmapIndex c :=
  hf.trans (bitmapFindNextZeroArea_clear (h c).clear_above hnr (hf ▸ hle)).1

theorem SlotsOk.place (h : SlotsOk items bitmap bitmapIndex) (hi : items id = some cp)
    (hc : cp.cpuid < 0) :
    SlotsOk (update items id (some (cp.place c (bitmapIndex c))))
      (update bitmap c (setBits (bitmap c) (bitmapIndex c) (slotCount cp.len)))
      (update bitmapIndex c (bitmapIndex c + slotCount cp.len)) := by
  intro c'
  have hnone := fun c' => (congrArg (extentOn c') hi).trans (extentOn_eq_none hc c')
  rw [extentOn_update]
  by_cases e : c' = c
  · subst e
    rw [Function.update_self, Function.update_self, extentOn_cpuid rfl]
    refine (h c').place (hnone c') (fun i => ?_)
    simp [setBits_apply, Covers, HashinfoItem.place]
  · rw [Function.update_of_ne e, Function.update_of_ne e, extentOn_ne rfl e, ← hnone c',
      Function.update_eq_self]
    exact h c'

theorem ItemOk.holdsSlot_iff (h : ItemOk cp) : cp.holdsSlot = true ↔ 0 ≤ cp.cpuid := by
  unfold HashinfoItem.holdsSlot
  cases hf : cp.flagCache with
  | memory => have := h.unplaced (.inl hf); simp; omega
  | always => have := h.unplaced (.inr hf); simp; omega
  | disk => simpa using (h.disk hf).2
  | readBack => simpa using h.readBack hf
  | willWrite => simp

theorem SlotsOk.delete (h : SlotsOk items bitmap bitmapIndex) (hi : items id = some cp)
    (hok : ItemOk cp) :
    SlotsOk (update items id none)
      (if cp.holdsSlot then update bitmap cp.cpuid.toNat
          (clearBits (bitmap cp.cpuid.toNat) cp.start (slotCount cp.len))
        else bitmap) bitmapIndex := by
  cases hs : cp.holdsSlot with
  | false =>
    have hneg : cp.cpuid < 0 := not_le.mp (fun hle => by
      rw [(hok.holdsSlot_iff).mpr hle] at hs; cases hs)
    exact h.touch (fun c => by rw [hi, extentOn_eq_none hneg]; rfl)
  | true =>
    have hcpu : cp.cpuid = (cp.cpuid.toNat : Nat) :=
      (Int.toNat_of_nonneg ((hok.holdsSlot_iff).mp hs)).symm
    intro c
    rw [if_pos rfl, extentOn_update]
    by_cases e : c = cp.cpuid.toNat
    · subst e
      rw [Function.update_self]
      refine (h _).drop (by rw [hi, extentOn_cpuid hcpu]) (fun i => ?_)
      rw [clearBits_apply, Covers]
      split <;> simp_all
    · have hnone : extentOn c (items id) = none := by rw [hi, extentOn_ne hcpu e]
      rw [Function.update_of_ne e, show extentOn c none = extentOn c (items id) from hnone.symm,
        Function.update_eq_self]
      exact h c

end

variable {cfg : Config} {s t : State} {a : Act} {b c id : Nat} {cp : HashinfoItem} {w : WrFile}

def State.SlotsOk (s : State) : Prop := KernelHash.SlotsOk s.items s.bitmap s.bitmapIndex

theorem State.SlotsOk.change (hs : Sound cfg s) (h : s.SlotsOk) (hch : Change cfg a s t) :
    t.SlotsOk := by
  cases hch with
  | hit _ _ _ hl => exact SlotsOk.keep h (lookup_some hl).1 rfl rfl rfl
  | insert =>
    refine SlotsOk.touch h (fun c => ?_)
    rw [hs.table.indexed.fresh _ le_rfl]
    exact extentOn_eq_none (by simp [newItem, allocDataMemory]) c
  | release _ _ hi => exact SlotsOk.keep h hi rfl rfl rfl
  | read _ _ hi =>
    exact SlotsOk.keep h hi (by simp [HashinfoItem.release]) (by simp [HashinfoItem.release])
      (by simp [HashinfoItem.release])
  | delete _ _ _ hi => exact SlotsOk.delete h hi (hs.item hi)
  | age _ _ _ hi => exact SlotsOk.keep h hi rfl rfl rfl
  | mark _ _ _ hi hm =>
    have hc := (HashinfoItem.markable_iff.mp hm).2.2.1
    exact SlotsOk.offDisk h hi (by omega) (by simp [HashinfoItem.mark])
  | unmark _ _ _ hi hm =>
    have hc := (HashinfoItem.unmarkable_iff.mp hm).1
    exact SlotsOk.offDisk h hi (by omega) (by simp [HashinfoItem.unmark])
  | place _ _ _ hi hm hf hle =>
    have hc := (HashinfoItem.placeable_iff.mp hm).2.1
    obtain rfl := SlotsOk.find_eq h (slotCount_pos _) hf hle
    exact SlotsOk.place h hi (by omega)
  | commit _ _ _ hi _ hf =>
    obtain ⟨_, _, rfl, _⟩ := freeDataMemory_ok hf
    exact SlotsOk.keep h hi rfl rfl rfl
  | _ => exact h

theorem slotsOk_init (file : Nat → Nat → UInt8) : (init file).SlotsOk :=
  fun _ => ⟨by simp [init, extentOn], by simp [init, extentOn], by simp [init, extentOn]⟩

theorem slotsOk_of_run {C : State → Act → Prop} {file : Nat → Nat → UInt8} {as : List Act}
    (h : Run (step cfg) C (init file) as s) : Sound cfg s ∧ s.SlotsOk :=
  invariant_of_sound (C := fun _ _ => True) (fun _ _ => trivial)
    (fun _ _ _ hs hch _ hk => hk.change hs hch) (h.mono (fun _ _ _ => trivial)) (slotsOk_init file)

def Occupies (s : State) (c id start stop : Nat) : Prop :=
  ∃ b cp, id ∈ s.hashTab b ∧ s.items id = some cp ∧ cp.cpuid = c ∧ start = cp.start ∧
    stop = cp.start + max 1 ((cp.len + chunkStep - 1) / chunkStep)

structure BitmapAgrees (s : State) (c : Nat) : Prop where
  bits : ∀ i, s.bitmap c i = true ↔
    ∃ id start stop, Occupies s c id start stop ∧ start ≤ i ∧ i < stop
  disjoint : ∀ id id' start stop start' stop', Occupies s c id start stop →
    Occupies s c id' start' stop' → id ≠ id' → stop ≤ start' ∨ stop' ≤ start
  below : ∀ id start stop, Occupies s c id start stop → stop ≤ s.bitmapIndex c

theorem Sound.occupies_iff (h : Sound cfg s) {start stop : Nat} : Occupies s c id start stop ↔
    ∃ e, extentOn c (s.items id) = some e ∧ start = e.1 ∧ stop = e.1 + e.2 := by
  constructor
  · rintro ⟨b, cp, _, hi, hc, rfl, rfl⟩
    exact ⟨_, by rw [hi, extentOn_cpuid hc], rfl, by rw [slotCount_eq]⟩
  · rintro ⟨e, he, rfl, rfl⟩
    obtain ⟨cp, hi, hc⟩ := Option.bind_eq_some_iff.mp he
    split at hc
    · cases hc
      exact ⟨_, cp, h.table.indexed.mem hi, hi, ‹_›, rfl, by rw [slotCount_eq]⟩
    · cases hc

theorem Occupies.lt {start stop : Nat} (h : Occupies s c id start stop) : start < stop := by
  obtain ⟨_, _, _, _, _, rfl, rfl⟩ := h
  omega

theorem bitmap_agrees_with_items (cfg : Config) (file : Nat → Nat → UInt8) (as : List Act)
    (s : State) (h : Run (step cfg) (fun _ _ => True) (init file) as s) (c : Nat) :
    BitmapAgrees s c := by
  obtain ⟨hs, hk⟩ := slotsOk_of_run h
  refine ⟨fun i => ?_, fun id id' start stop start' stop' ho ho' hne => ?_,
    fun id start stop ho => ?_⟩
  · rw [(hk c).bits]
    constructor
    · rintro ⟨id, e, he, hi⟩
      exact ⟨id, _, _, hs.occupies_iff.mpr ⟨e, he, rfl, rfl⟩, hi⟩
    · rintro ⟨id, _, _, ho, hi⟩
      obtain ⟨e, he, rfl, rfl⟩ := hs.occupies_iff.mp ho
      exact ⟨id, e, he, hi⟩
  · have hlt := ho.lt
    have hlt' := ho'.lt
    obtain ⟨e, he, rfl, rfl⟩ := hs.occupies_iff.mp ho
    obtain ⟨e', he', rfl, rfl⟩ := hs.occupies_iff.mp ho'
    -- two intervals that overlap share the larger of their starts
    have hd := (hk c).disjoint id id' e e' he he' hne (max e.1 e'.1)
    simp only [Covers] at hd
    omega
  · obtain ⟨e, he, rfl, rfl⟩ := hs.occupies_iff.mp ho
    exact (hk c).below id e he

theorem bitmap_agrees_with_items_roundTrip :
    BitmapAgrees (final (step twoCpus) (fun _ _ => true) (init (fun _ _ => 0)) roundTrip) 0 ∧
      (final (step twoCpus) (fun _ _ => true) (init (fun _ _ => 0)) roundTrip).bitmap 0 0 = true :=
  ⟨bitmap_agrees_with_items twoCpus _ roundTrip _ (run_final_any (by decide +kernel)) 0,
    by decide +kernel⟩

end Wspack.KernelHash
