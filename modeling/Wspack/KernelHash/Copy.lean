import Wspack.KernelHash.Lifecycle

namespace Wspack.KernelHash

open Function (update)
open Lib

def spaceOf : Option HashinfoItem → Nat
  | some cp => slotCount cp.len * chunkStep
  | none => 0

def WrFile.copying (w : WrFile) : Prop := w.phase = .mark ∨ w.phase = .place

def WrFile.owns (w : WrFile) (id : Nat) : Prop :=
  id ∈ w.counted ∧ (w.phase = .mark ∨ w.phase = .place ∧ id ∈ w.todo)

def placing (s : State) (c : Nat) : Option HashinfoItem :=
  (s.wr c).bind (fun w => if w.phase = .place then w.todo.head?.bind s.items else none)

def noWriterOn (cfg : Config) (s : State) (b : Nat) : Bool :=
  (List.range cfg.ncpu).all (fun c => (s.wr c).all (fun w => w.index != b))

/-- Invocations on one bucket do not overlap, and pass 2 does not leave a mark behind. -/
def clearsMarks (cfg : Config) (s : State) : Act → Bool
  | .wrStart _ b => noWriterOn cfg s b
  | .wrStep c => (placing s c).all (fun cp => cp.cpuid != -2 || cp.unmarkable || cp.placeable)
  | _ => true

structure CopyOk (items : Nat → Option HashinfoItem) (tab : Nat → List Nat) (w : WrFile) : Prop where
  sub : ∀ id ∈ w.counted, id ∈ tab w.index
  size : w.allSize = ∑ id ∈ w.counted, spaceOf (items id)
  used : w.memIndex = ∑ id ∈ w.placed, spaceOf (items id)
  placed_sub : w.placed ⊆ w.counted
  marking : w.phase = .mark → w.placed = ∅ ∧ ∀ id ∈ w.todo, id ∉ w.counted
  placing : w.phase = .place → ∀ id ∈ w.todo, id ∉ w.placed

structure PassesOk (items : Nat → Option HashinfoItem) (tab : Nat → List Nat)
    (wr : Nat → Option WrFile) : Prop where
  sole : ∀ c c' w w', wr c = some w → wr c' = some w' → w.index = w'.index → c = c'
  copy : ∀ c w, wr c = some w → w.copying → CopyOk items tab w
  marked : ∀ id cp, items id = some cp → cp.cpuid = -2 → ∃ c w, wr c = some w ∧ w.owns id

section
variable {items items' : Nat → Option HashinfoItem} {tab tab' : Nat → List Nat}
  {wr : Nat → Option WrFile} {n b c id : Nat} {cp cp' : HashinfoItem} {w w' : WrFile}

theorem WrFile.owns.copying (h : w.owns id) : w.copying := h.2.imp_right (·.1)

theorem WrFile.copying.locked (h : w.copying) : w.phase.locked = true := by
  rcases h with h | h <;> rw [h] <;> rfl

theorem CopyOk.congr (h : CopyOk items tab w)
    (hs : ∀ id ∈ w.counted, spaceOf (items' id) = spaceOf (items id))
    (ht : ∀ id ∈ w.counted, id ∈ tab' w.index) : CopyOk items' tab' w where
  sub := ht
  size := h.size.trans (Finset.sum_congr rfl (fun id hid => (hs id hid).symm))
  used := h.used.trans (Finset.sum_congr rfl (fun id hid => (hs id (h.placed_sub hid)).symm))
  placed_sub := h.placed_sub
  marking := h.marking
  placing := h.placing

theorem CopyOk.room (h : CopyOk items tab w) (hc : id ∈ w.counted) (hp : id ∉ w.placed) :
    w.memIndex + spaceOf (items id) ≤ w.allSize := by
  rw [h.used, h.size, add_comm, ← Finset.sum_insert (f := fun j => spaceOf (items j)) hp]
  exact Finset.sum_le_sum_of_subset (Finset.insert_subset hc h.placed_sub)

theorem CopyOk.mark {rest : List Nat} (h : CopyOk items tab w) (hp : w.phase = .mark)
    (ht : w.todo = id :: rest) (hnd : w.todo.Nodup) (hb : id ∈ tab w.index)
    (hi : items id = some cp) :
    CopyOk items tab { w with
      todo := rest
      allSize := w.allSize + slotCount cp.len * chunkStep
      counted := insert id w.counted } := by
  obtain ⟨hnone, hfresh⟩ := h.marking hp
  rw [ht] at hnd hfresh
  have hid : id ∉ w.counted := hfresh id List.mem_cons_self
  refine ⟨?_, ?_, h.used, ?_, fun _ => ⟨hnone, fun j hj => ?_⟩, ?_⟩
  · exact fun j hj => (Finset.mem_insert.mp hj).elim (fun e => e ▸ hb) (h.sub j)
  · simp only
    rw [Finset.sum_insert hid, ← h.size, hi, spaceOf, add_comm]
  · exact h.placed_sub.trans (Finset.subset_insert _ _)
  · rw [Finset.mem_insert, not_or]
    exact ⟨fun e => (List.nodup_cons.mp hnd).1 (e ▸ hj), hfresh j (List.mem_cons_of_mem _ hj)⟩
  · exact fun hp' => by simp [hp] at hp'

theorem CopyOk.place {rest : List Nat} {k : Nat} {m : Nat → UInt8} (h : CopyOk items tab w)
    (hp : w.phase = .place) (ht : w.todo = id :: rest) (hnd : w.todo.Nodup) (hc : id ∈ w.counted)
    (hi : items id = some cp) :
    CopyOk items tab { w with
      todo := rest
      memIndex := w.memIndex + slotCount cp.len * chunkStep
      stAllSize := k
      copyMem := m
      placed := insert id w.placed } := by
  have hfresh := h.placing hp
  rw [ht] at hnd hfresh
  have hid : id ∉ w.placed := hfresh id List.mem_cons_self
  refine ⟨h.sub, h.size, ?_, Finset.insert_subset hc h.placed_sub, ?_, fun _ j hj => ?_⟩
  · simp only
    rw [Finset.sum_insert hid, ← h.used, hi, spaceOf, add_comm]
  · exact fun hp' => by simp [hp] at hp'
  · rw [Finset.mem_insert, not_or]
    exact ⟨fun e => (List.nodup_cons.mp hnd).1 (e ▸ hj), hfresh j (List.mem_cons_of_mem _ hj)⟩

theorem CopyOk.next {rest : List Nat} (h : CopyOk items tab w) (ht : w.todo = id :: rest) :
    CopyOk items tab { w with todo := rest } := by
  have hsub : ∀ j ∈ rest, j ∈ w.todo := fun j hj => ht ▸ List.mem_cons_of_mem _ hj
  exact ⟨h.sub, h.size, h.used, h.placed_sub,
    fun hp => ⟨(h.marking hp).1, fun j hj => (h.marking hp).2 j (hsub j hj)⟩,
    fun hp j hj => h.placing hp j (hsub j hj)⟩

theorem CopyOk.turn (h : CopyOk items tab w) (hp : w.phase = .mark) (l : List Nat) :
    CopyOk items tab { w with phase := .place, todo := l } :=
  ⟨h.sub, h.size, h.used, h.placed_sub, nofun, fun _ j _ => by simp [(h.marking hp).1]⟩

theorem PassesOk.touch (h : PassesOk items tab wr) (hi : items id = some cp)
    (hl : cp'.len = cp.len)
    (hc : cp'.cpuid = -2 → cp.cpuid = -2 ∨ ∃ c w, wr c = some w ∧ w.owns id) :
    PassesOk (update items id (some cp')) tab wr where
  sole := h.sole
  copy c w hw hcw := by
    refine (h.copy c w hw hcw).congr (fun j _ => ?_) (h.copy c w hw hcw).sub
    by_cases e : j = id
    · subst e
      rw [Function.update_self, hi, spaceOf, spaceOf, hl]
    · rw [Function.update_of_ne e]
  marked := by
    apply forall_update h.marked
    intro hm
    exact (hc hm).elim (h.marked id cp hi) (fun ho => ho)

theorem PassesOk.insert (h : PassesOk items tab wr) (hx : Indexed items n tab)
    (hc : cp.cpuid ≠ -2) : PassesOk (update items n (some cp)) (update tab b (n :: tab b)) wr where
  sole := h.sole
  copy c w hw hcw := by
    have hok := h.copy c w hw hcw
    refine hok.congr (fun j hj => ?_) (fun j hj => ?_)
    · obtain ⟨cj, hcj, _⟩ := (hx.mem_iff _ _).mp (hok.sub j hj)
      rw [Function.update_of_ne (hx.lt hcj).ne]
    · by_cases e : w.index = b
      · rw [e, Function.update_self]
        exact List.mem_cons_of_mem _ (e ▸ hok.sub j hj)
      · rw [Function.update_of_ne e]
        exact hok.sub j hj
  marked := forall_update h.marked (fun hm => absurd hm hc)

theorem PassesOk.delete (h : PassesOk items tab wr) (hx : Indexed items n tab) (hb : id ∈ tab b)
    (hfree : ∀ c w, wr c = some w → w.copying → w.index ≠ b) :
    PassesOk (update items id none) (update tab b ((tab b).erase id)) wr where
  sole := h.sole
  copy c w hw hcw := by
    have hok := h.copy c w hw hcw
    have hne := hfree c w hw hcw
    refine hok.congr (fun j hj => ?_) (fun j hj => ?_)
    · rw [Function.update_of_ne]
      rintro rfl
      obtain ⟨cj, hcj, hbj⟩ := (hx.mem_iff _ _).mp (hok.sub j hj)
      exact hne (hbj.symm.trans (hx.bkt_eq hb hcj))
    · rw [Function.update_of_ne hne]
      exact hok.sub j hj
  marked j cj hj hm := h.marked j cj (of_update_none hj) hm

theorem PassesOk.set (h : PassesOk items tab wr) (hw : wr c = some w) (hx : w'.index = w.index)
    (hcopy : w'.copying → CopyOk items tab w')
    (hown : ∀ id cp, items id = some cp → cp.cpuid = -2 → w.owns id → w'.owns id) :
    PassesOk items tab (update wr c (some w')) where
  sole c₁ c₂ w₁ w₂ h₁ h₂ he := by
    have hold : ∀ {c' v}, update wr c (some w') c' = some v →
        ∃ v', wr c' = some v' ∧ v'.index = v.index := by
      intro c' v hv
      rcases update_eq_some hv with ⟨rfl, he⟩ | ⟨_, hv⟩
      · cases he
        exact ⟨w, hw, hx.symm⟩
      · exact ⟨v, hv, rfl⟩
    obtain ⟨v₁, hv₁, e₁⟩ := hold h₁
    obtain ⟨v₂, hv₂, e₂⟩ := hold h₂
    exact h.sole c₁ c₂ v₁ v₂ hv₁ hv₂ (e₁.trans (he.trans e₂.symm))
  copy := forall_update h.copy hcopy
  marked j cj hj hm := by
    obtain ⟨c', v, hv, ho⟩ := h.marked j cj hj hm
    by_cases e : c' = c
    · subst e
      rw [hw] at hv
      cases hv
      exact ⟨c', w', Function.update_self .., hown j cj hj hm ho⟩
    · exact ⟨c', v, by rwa [Function.update_of_ne e], ho⟩

theorem PassesOk.clear (h : PassesOk items tab wr) (hw : wr c = some w)
    (hnone : ∀ id cp, items id = some cp → cp.cpuid = -2 → ¬w.owns id) :
    PassesOk items tab (update wr c none) where
  sole c₁ c₂ w₁ w₂ h₁ h₂ := h.sole c₁ c₂ w₁ w₂ (of_update_none h₁) (of_update_none h₂)
  copy c' v hv := h.copy c' v (of_update_none hv)
  marked j cj hj hm := by
    obtain ⟨c', v, hv, ho⟩ := h.marked j cj hj hm
    have hne : c' ≠ c := by
      rintro rfl
      rw [hw] at hv
      cases hv
      exact hnone j cj hj hm ho
    exact ⟨c', v, by rwa [Function.update_of_ne hne], ho⟩

theorem PassesOk.start {l : List Nat} {k : Nat} {m : Nat → UInt8} (h : PassesOk items tab wr)
    (hc : wr c = none) (hsole : ∀ c' w', wr c' = some w' → w'.index ≠ b) :
    PassesOk items tab (update wr c (some
      { index := b, phase := .mark, todo := l, allSize := 0, memIndex := 0, stAllSize := k,
        copyMem := m, counted := ∅, placed := ∅ })) where
  sole c₁ c₂ w₁ w₂ h₁ h₂ he := by
    rcases update_eq_some h₁ with ⟨e₁, hv₁⟩ | ⟨_, h₁⟩
    · rcases update_eq_some h₂ with ⟨e₂, _⟩ | ⟨_, h₂⟩
      · exact e₁.trans e₂.symm
      · cases hv₁
        exact absurd he.symm (hsole c₂ w₂ h₂)
    · rcases update_eq_some h₂ with ⟨_, hv₂⟩ | ⟨_, h₂⟩
      · cases hv₂
        exact absurd he (hsole c₁ w₁ h₁)
      · exact h.sole c₁ c₂ w₁ w₂ h₁ h₂ he
  copy := forall_update h.copy (fun _ => ⟨by simp, by simp, by simp, by simp, by simp, by simp⟩)
  marked j cj hj hm := by
    obtain ⟨c', v, hv, ho⟩ := h.marked j cj hj hm
    have hne : c' ≠ c := by
      rintro rfl
      rw [hc] at hv
      cases hv
    exact ⟨c', v, by rwa [Function.update_of_ne hne], ho⟩

theorem PassesOk.mark {rest : List Nat} (h : PassesOk items tab wr) (hw : wr c = some w)
    (hp : w.phase = .mark) (ht : w.todo = id :: rest) (hnd : w.todo.Nodup) (hb : id ∈ tab w.index)
    (hi : items id = some cp) :
    PassesOk (update items id (some cp.mark)) tab (update wr c (some { w with
      todo := rest
      allSize := w.allSize + slotCount cp.len * chunkStep
      counted := Insert.insert id w.counted })) := by
  refine PassesOk.touch (h.set hw rfl (fun _ => ?_) (fun j _ _ _ ho => ?_)) hi rfl (fun _ => .inr ?_)
  · exact (h.copy c w hw (.inl hp)).mark hp ht hnd hb hi
  · exact ⟨Finset.mem_insert_of_mem ho.1, .inl hp⟩
  · exact ⟨c, _, Function.update_self .., Finset.mem_insert_self _ _, .inl hp⟩

theorem PassesOk.next {rest : List Nat} (h : PassesOk items tab wr) (hw : wr c = some w)
    (hx : w'.index = w.index) (hp : w'.phase = w.phase) (hct : w'.counted = w.counted)
    (ht : w.todo = id :: rest) (ht' : w'.todo = rest) (hcopy : w.copying → CopyOk items tab w')
    (hm : ∀ cp, items id = some cp → cp.cpuid = -2 → w.phase = .mark) :
    PassesOk items tab (update wr c (some w')) := by
  refine h.set hw hx (fun hc => hcopy (by simpa [WrFile.copying, hp] using hc)) ?_
  rintro j cj hj hmj ⟨hcount, hmark | ⟨hplace, hmem⟩⟩
  · exact ⟨hct ▸ hcount, .inl (hp.trans hmark)⟩
  · refine ⟨hct ▸ hcount, .inr ⟨hp.trans hplace, ?_⟩⟩
    rw [ht] at hmem
    rcases List.mem_cons.mp hmem with rfl | hmem
    · simp [hm cj hj hmj] at hplace
    · rwa [ht']

theorem PassesOk.unmark {rest : List Nat} (h : PassesOk items tab wr) (hw : wr c = some w)
    (ht : w.todo = id :: rest) (hi : items id = some cp) :
    PassesOk (update items id (some cp.unmark)) tab (update wr c (some { w with todo := rest })) := by
  have h' : PassesOk (update items id (some cp.unmark)) tab wr :=
    h.touch hi rfl (by simp [HashinfoItem.unmark])
  refine h'.next hw rfl rfl rfl ht rfl (fun hc => (h'.copy c w hw hc).next ht) (fun cp' hi' hm => ?_)
  rw [Function.update_self] at hi'
  cases hi'
  cases hm

theorem PassesOk.place {rest : List Nat} {k start : Nat} {m : Nat → UInt8}
    (h : PassesOk items tab wr) (hw : wr c = some w) (hp : w.phase = .place)
    (ht : w.todo = id :: rest) (hnd : w.todo.Nodup) (hc : id ∈ w.counted) (hi : items id = some cp) :
    PassesOk (update items id (some (cp.place c start))) tab (update wr c (some { w with
      todo := rest
      memIndex := w.memIndex + slotCount cp.len * chunkStep
      stAllSize := k
      copyMem := m
      placed := Insert.insert id w.placed })) := by
  have h' : PassesOk (update items id (some (cp.place c start))) tab wr :=
    h.touch hi rfl (fun hm => by simp [HashinfoItem.place] at hm)
  have hcopy := (h'.copy c w hw (.inr hp)).place (k := k) (m := m) hp ht hnd hc
    (Function.update_self ..)
  refine h'.next hw rfl rfl rfl ht rfl (fun _ => hcopy) (fun cp' hi' hm => ?_)
  rw [Function.update_self] at hi'
  cases hi'
  simp [HashinfoItem.place] at hm

theorem PassesOk.past (h : PassesOk items tab wr) (hw : wr c = some w) (hn : ¬w.copying)
    (hx : w'.index = w.index) (hn' : ¬w'.copying) : PassesOk items tab (update wr c (some w')) :=
  h.set hw hx (fun hc => absurd hc hn') (fun _ _ _ _ ho => absurd ho.copying hn)

theorem PassesOk.owner (h : PassesOk items tab wr) (hx : Indexed items n tab) (hw : wr c = some w)
    (hb : id ∈ tab w.index) (hi : items id = some cp) (hm : cp.cpuid = -2) : w.owns id := by
  obtain ⟨c', v, hv, ho⟩ := h.marked id cp hi hm
  have hidx : v.index = w.index :=
    (hx.bkt_eq ((h.copy c' v hv ho.copying).sub id ho.1) hi).symm.trans (hx.bkt_eq hb hi)
  obtain rfl := h.sole c' c v w hv hw hidx
  rw [hw] at hv
  cases hv
  exact ho

end

variable {cfg : Config} {s t : State} {a : Act} {b c id : Nat} {cp : HashinfoItem} {w : WrFile}

def State.PassesOk (s : State) : Prop := KernelHash.PassesOk s.items s.hashTab s.wr

theorem noWriterOn_index (hs : Sound cfg s) (h : noWriterOn cfg s b = true) :
    ∀ c w, s.wr c = some w → w.index ≠ b := by
  intro c w hw
  have hc := hs.table.walks.online c w hw
  simpa [hw] using List.all_eq_true.mp h c (List.mem_range.mpr hc)

theorem placing_eq {rest : List Nat} (hw : s.wr c = some w) (hp : w.phase = .place)
    (ht : w.todo = id :: rest) : placing s c = s.items id := by
  simp [placing, hw, hp, ht]

theorem CopyOk.counted_eq_empty {items : Nat → Option HashinfoItem} {tab : Nat → List Nat}
    {n : Nat} (h : CopyOk items tab w) (hx : Indexed items n tab) (h0 : w.allSize = 0) :
    w.counted = ∅ := by
  refine Finset.eq_empty_of_forall_notMem (fun id hid => ?_)
  obtain ⟨cp, hi, _⟩ := (hx.mem_iff _ _).mp (h.sub id hid)
  have hle := Finset.single_le_sum (f := fun j => spaceOf (items j)) (fun _ _ => Nat.zero_le _) hid
  rw [← h.size, h0, hi] at hle
  have hpos : 0 < slotCount cp.len * chunkStep := Nat.mul_pos (slotCount_pos cp.len) (by decide)
  simp only [spaceOf] at hle
  omega

theorem State.PassesOk.change (hs : Sound cfg s) (hC : clearsMarks cfg s a = true)
    (h : s.PassesOk) (hch : Change cfg a s t) : t.PassesOk := by
  have hx := hs.table.indexed
  cases hch with
  | hit _ _ _ hl => exact PassesOk.touch h (lookup_some hl).1 rfl .inl
  | insert => exact PassesOk.insert h hx (by simp [newItem, allocDataMemory])
  | release _ _ hi => exact PassesOk.touch h hi rfl .inl
  | read _ _ hi =>
    exact PassesOk.touch h hi (by simp [HashinfoItem.release])
      (fun hm => .inl (by simpa [HashinfoItem.release] using hm))
  | delete _ hl hb =>
    exact PassesOk.delete h hx hb (fun c w hw hc => hs.table.walks.index_ne hl hw hc.locked)
  | age _ _ _ hi => exact PassesOk.touch h hi rfl .inl
  | start _ hc => exact PassesOk.start h hc (noWriterOn_index hs hC)
  | mark hw hp ht hi =>
    have hsub := hs.table.walks.next hw ht
    exact PassesOk.mark h hw hp ht (hs.table.walks.nodup _ _ hw) hsub hi
  | unmark hw _ ht hi => exact PassesOk.unmark h hw ht hi
  | place hw hp ht hi hm =>
    have hsub := hs.table.walks.next hw ht
    have hown := PassesOk.owner h hx hw hsub hi (HashinfoItem.placeable_iff.mp hm).2.1
    exact PassesOk.place h hw hp ht (hs.table.walks.nodup _ _ hw) hown.1 hi
  | commit hw hp ht hi _ hf =>
    obtain ⟨_, _, rfl, _⟩ := freeDataMemory_ok hf
    refine PassesOk.touch (PassesOk.past h hw ?_ rfl ?_) hi rfl .inl <;> simp [WrFile.copying, hp]
  | skipMark hw hp ht =>
    exact PassesOk.next h hw rfl rfl rfl ht rfl (fun hc => (PassesOk.copy h _ _ hw hc).next ht)
      (fun _ _ _ => hp)
  | skipPlace hw hp ht hi hu hpl =>
    refine PassesOk.next h hw rfl rfl rfl ht rfl (fun hc => (PassesOk.copy h _ _ hw hc).next ht)
      (fun cp hi' hm => ?_)
    obtain rfl := Option.some.inj (hi.symm.trans hi')
    rw [clearsMarks, placing_eq hw hp ht, hi] at hC
    simp [hm, hu, hpl] at hC
  | skipCommit hw hp ht =>
    exact PassesOk.past h hw (by simp [WrFile.copying, hp]) rfl (by simp [WrFile.copying, hp])
  | markNone hw hp _ h0 =>
    refine PassesOk.clear h hw (fun id cp _ _ ho => ?_)
    have he := (PassesOk.copy h _ _ hw (.inl hp)).counted_eq_empty hx h0
    simpa [he] using ho.1
  | markDone hw hp =>
    have hok := PassesOk.copy h _ _ hw (.inl hp)
    refine PassesOk.set h hw rfl (fun _ => hok.turn hp _) (fun j _ _ _ ho => ?_)
    exact ⟨ho.1, .inr ⟨rfl, hok.sub j ho.1⟩⟩
  | placeDone hw hp ht =>
    refine PassesOk.set h hw rfl (fun hc => by simp [WrFile.copying] at hc) ?_
    rintro j cj _ _ ⟨_, hm | ⟨_, hm⟩⟩
    · simp [hp] at hm
    · simp [ht] at hm
  | write hw hp =>
    exact PassesOk.past h hw (by simp [WrFile.copying, hp]) rfl (by simp [WrFile.copying])
  | relock hw hp =>
    exact PassesOk.past h hw (by simp [WrFile.copying, hp]) rfl (by simp [WrFile.copying])
  | commitDone hw hp =>
    exact PassesOk.clear h hw (fun _ _ _ _ ho => by simpa [WrFile.copying, hp] using ho.copying)
  | _ => exact h

theorem passesOk_init (file : Nat → Nat → UInt8) : (init file).PassesOk :=
  ⟨by simp [init], by simp [init], by simp [init]⟩

theorem passesOk_of_run {file : Nat → Nat → UInt8} {as : List Act}
    (h : Run (step cfg) (fun s a => clearsMarks cfg s a = true) (init file) as s) :
    Sound cfg s ∧ s.PassesOk :=
  invariant_of_sound (fun _ _ => rfl) (fun _ _ _ hs hch hC hp => hp.change hs hC hch) h
    (passesOk_init file)

/-- Whatever pass 2 is about to copy was counted by pass 1 of the same invocation, and fits
into the copy buffer. -/
def CopyInBounds (s : State) : Prop :=
  ∀ c w id rest cp, s.wr c = some w → w.phase = .place → w.todo = id :: rest →
    s.items id = some cp → cp.placeable = true → w.memIndex + cp.len ≤ w.allSize ∧ id ∈ w.counted

theorem State.PassesOk.copyInBounds (hs : Sound cfg s) (h : s.PassesOk) : CopyInBounds s := by
  intro c w id rest cp hw hp ht hi hpl
  have hmem : id ∈ w.todo := by rw [ht]; exact List.mem_cons_self
  have hown := PassesOk.owner h hs.table.indexed hw (hs.table.walks.sub c w hw id hmem) hi
    (HashinfoItem.placeable_iff.mp hpl).2.1
  have hok := PassesOk.copy h c w hw (.inr hp)
  have hroom := hok.room hown.1 (hok.placing hp id hmem)
  have hle := le_slotCount cp.len
  rw [hi, spaceOf] at hroom
  exact ⟨by omega, hown.1⟩

theorem copy_in_bounds (cfg : Config) (file : Nat → Nat → UInt8) (as : List Act) (s : State)
    (h : Run (step cfg) (fun s a => clearsMarks cfg s a = true) (init file) as s) :
    CopyInBounds s :=
  let ⟨hs, hp⟩ := passesOk_of_run h
  hp.copyInBounds hs

def markA : List Act :=
  insertOn 1 chunkA digestA ++ List.replicate 5 (.bucketClearItem (bkt digestA)) ++
    hitOn 1 chunkA digestA ++
    [.bucketClearItem (bkt digestA), .wrStart 0 (bkt digestA), .wrStep 0, .wrStep 0]

theorem copy_in_bounds_markA :
    CopyInBounds (final (step twoCpus) (clearsMarks twoCpus) (init (fun _ _ => 0)) markA) ∧
      (placing (final (step twoCpus) (clearsMarks twoCpus) (init (fun _ _ => 0)) markA) 0).map
        (·.placeable) = some true :=
  ⟨copy_in_bounds twoCpus _ _ _ (run_final (by decide +kernel)), by decide +kernel⟩

def strandedMark : List Act :=
  markA ++ hitOn 1 chunkA digestA ++ List.replicate 6 (.wrStep 0) ++
    insertOn 1 chunkB digestB ++ hitOn 1 chunkB digestB ++
    [.bucketClearItem (bkt digestA), .wrStart 0 (bkt digestA)] ++ List.replicate 4 (.wrStep 0)

theorem copy_out_of_bounds : ∃ s, Run (step twoCpus) (fun _ _ => True) (init (fun _ _ => 0))
    strandedMark s ∧ ¬CopyInBounds s := by
  refine ⟨_, run_final_any (g := fun _ _ => true) (by decide +kernel), fun h => ?_⟩
  have hw : ((final (step twoCpus) (fun _ _ => true) (init (fun _ _ => 0)) strandedMark).wr 0).map
      (fun w => (w.phase, w.todo, w.memIndex, w.allSize)) = some (.place, [0], 32, 32) := by
    decide +kernel
  have hi : ((final (step twoCpus) (fun _ _ => true) (init (fun _ _ => 0)) strandedMark).items 0).map
      (fun cp => (cp.placeable, cp.len)) = some (true, 32) := by decide +kernel
  obtain ⟨w, hw, he⟩ := Option.map_eq_some_iff.mp hw
  obtain ⟨cp, hi, hc⟩ := Option.map_eq_some_iff.mp hi
  simp only [Prod.mk.injEq] at he hc
  have hle := (h 0 w 0 [] cp hw he.1 he.2.1 hi hc.1).1
  omega

end Wspack.KernelHash
