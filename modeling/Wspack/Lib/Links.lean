import Mathlib.Logic.Function.Basic
import Mathlib.Data.List.Nodup

universe u

namespace Wspack.Lib

structure Links (α : Type u) where
  next : α → α
  prev : α → α

namespace Links

variable {α : Type u} {m m' : Links α} {a b x y z h null : α} {l l' : List α}

def Reaches (m : Links α) : α → List α → α → Prop
  | a, [], b => a = b
  | a, x :: l, b => a = x ∧ Reaches m (m.next x) l b

theorem reaches_append : m.Reaches a (l ++ l') b ↔ ∃ c, m.Reaches a l c ∧ m.Reaches c l' b := by
  induction l generalizing a with
  | nil =>
    constructor
    · exact fun h => ⟨a, rfl, h⟩
    · rintro ⟨c, rfl, h⟩
      exact h
  | cons x l ih =>
    rw [List.cons_append, Reaches, ih]
    constructor
    · rintro ⟨rfl, c, hl, h⟩
      exact ⟨c, ⟨rfl, hl⟩, h⟩
    · rintro ⟨c, ⟨rfl, hl⟩, h⟩
      exact ⟨rfl, c, hl, h⟩

theorem Reaches.congr (hr : m.Reaches a l b) (hnext : ∀ x ∈ l, m'.next x = m.next x) :
    m'.Reaches a l b := by
  induction l generalizing a with
  | nil => exact hr
  | cons x l ih =>
    obtain ⟨hx, hl⟩ := List.forall_mem_cons.mp hnext
    refine ⟨hr.1, ?_⟩
    rw [hx]
    exact ih hr.2 hl

structure Ends (m : Links α) (null a : α) (l : List α) : Prop where
  reaches : m.Reaches a l null
  nonnull : null ∉ l

theorem ends_nil : m.Ends null null [] := ⟨rfl, List.not_mem_nil⟩

theorem ends_null (he : m.Ends null null l) : l = [] := by
  cases l with
  | nil => rfl
  | cons x l => exact absurd (he.reaches.1 ▸ List.mem_cons_self) he.nonnull

theorem ends_cons : m.Ends null a (x :: l) ↔ a = x ∧ x ≠ null ∧ m.Ends null (m.next x) l := by
  constructor
  · rintro ⟨⟨rfl, hl⟩, hn⟩
    rw [List.mem_cons, not_or] at hn
    exact ⟨rfl, Ne.symm hn.1, hl, hn.2⟩
  · rintro ⟨rfl, hx, hl⟩
    refine ⟨⟨rfl, hl.reaches⟩, ?_⟩
    rw [List.mem_cons, not_or]
    exact ⟨hx.symm, hl.nonnull⟩

theorem Ends.ne_null (he : m.Ends null a l) (hl : l ≠ []) : a ≠ null := by
  rintro rfl
  exact hl (ends_null he)

theorem Ends.exists_cons (he : m.Ends null a l) (ha : a ≠ null) :
    ∃ t, l = a :: t ∧ m.Ends null (m.next a) t := by
  cases l with
  | nil => exact absurd he.reaches ha
  | cons x l =>
    obtain ⟨rfl, -, ht⟩ := ends_cons.mp he
    exact ⟨l, rfl, ht⟩

theorem Ends.congr (he : m.Ends null a l) (hnext : ∀ x ∈ l, m'.next x = m.next x) :
    m'.Ends null a l := ⟨he.reaches.congr hnext, he.nonnull⟩

def Linked (m : Links α) : α → List α → α → Prop
  | x, [], y => m.next x = y ∧ m.prev y = x
  | x, z :: l, y => m.next x = z ∧ m.prev z = x ∧ Linked m z l y

theorem linked_append : m.Linked x (l ++ z :: l') y ↔ m.Linked x l z ∧ m.Linked z l' y := by
  induction l generalizing x with
  | nil =>
    rw [List.nil_append, Linked, Linked]
    exact and_assoc.symm
  | cons w l ih =>
    rw [List.cons_append, Linked, Linked, ih]
    constructor
    · rintro ⟨hn, hp, hl, hz⟩
      exact ⟨⟨hn, hp, hl⟩, hz⟩
    · rintro ⟨⟨hn, hp, hl⟩, hz⟩
      exact ⟨hn, hp, hl, hz⟩

theorem Linked.congr (hl : m.Linked x l y) (hnext : ∀ z ∈ x :: l, m'.next z = m.next z)
    (hprev : ∀ z ∈ l ++ [y], m'.prev z = m.prev z) : m'.Linked x l y := by
  induction l generalizing x with
  | nil => exact ⟨(hnext x (by simp)).trans hl.1, (hprev y (by simp)).trans hl.2⟩
  | cons w l ih =>
    obtain ⟨hx, hnext⟩ := List.forall_mem_cons.mp hnext
    rw [List.cons_append] at hprev
    obtain ⟨hw, hprev⟩ := List.forall_mem_cons.mp hprev
    exact ⟨hx.trans hl.1, hw.trans hl.2.1, ih hl.2.2 hnext hprev⟩

theorem Linked.reaches (hl : m.Linked x l y) : m.Reaches (m.next x) l y := by
  induction l generalizing x with
  | nil => exact hl.1
  | cons w l ih => exact ⟨hl.1, ih hl.2.2⟩

structure Ring (m : Links α) (h : α) (l : List α) : Prop where
  linked : m.Linked h l h
  nodup : (h :: l).Nodup

theorem Ring.congr (hr : m.Ring h l) (hnext : ∀ z ∈ h :: l, m'.next z = m.next z)
    (hprev : ∀ z ∈ h :: l, m'.prev z = m.prev z) : m'.Ring h l := by
  refine ⟨hr.linked.congr hnext (fun z hz => hprev z ?_), hr.nodup⟩
  rcases List.mem_append.mp hz with hz | hz
  · exact List.mem_cons_of_mem _ hz
  · rw [List.mem_singleton.mp hz]
    exact List.mem_cons_self

theorem Ring.next_eq_self_iff (hr : m.Ring h l) : m.next h = h ↔ l = [] := by
  cases l with
  | nil => exact iff_of_true hr.linked.1 rfl
  | cons x l =>
    refine iff_of_false (fun he => ?_) (List.cons_ne_nil x l)
    rw [hr.linked.1] at he
    exact (List.nodup_cons.mp hr.nodup).1 (he ▸ List.mem_cons_self)

theorem Ring.prev_mem (hr : m.Ring h l) (hne : l ≠ []) : m.prev h ∈ l := by
  obtain ⟨init, last, rfl⟩ := (List.eq_nil_or_concat l).resolve_left hne
  have hl := hr.linked
  rw [List.concat_eq_append, linked_append] at hl
  rw [List.concat_eq_append, hl.2.2]
  simp

def Within (m m' : Links α) (l : List α) : Prop :=
  ∀ x ∉ l, m'.next x = m.next x ∧ m'.prev x = m.prev x

theorem Within.trans {m'' : Links α} (h : Within m m' l) (h' : Within m' m'' l) : Within m m'' l :=
  fun x hx => ⟨(h' x hx).1.trans (h x hx).1, (h' x hx).2.trans (h x hx).2⟩

theorem Within.mono (h : Within m m' l) (hl : l ⊆ l') : Within m m' l' :=
  fun x hx => h x fun hmem => hx (hl hmem)

section Writes

variable [DecidableEq α]

def setNext (m : Links α) (a b : α) : Links α := { m with next := Function.update m.next a b }

def setPrev (m : Links α) (a b : α) : Links α := { m with prev := Function.update m.prev a b }

@[simp] theorem setNext_next_self : (m.setNext a b).next a = b := Function.update_self ..

@[simp] theorem setNext_next_of_ne (hne : x ≠ a) : (m.setNext a b).next x = m.next x :=
  Function.update_of_ne hne ..

@[simp] theorem setNext_prev : (m.setNext a b).prev = m.prev := rfl

@[simp] theorem setPrev_prev_self : (m.setPrev a b).prev a = b := Function.update_self ..

@[simp] theorem setPrev_prev_of_ne (hne : x ≠ a) : (m.setPrev a b).prev x = m.prev x :=
  Function.update_of_ne hne ..

@[simp] theorem setPrev_next : (m.setPrev a b).next = m.next := rfl

def join (m : Links α) (a b : α) : Links α := (m.setNext a b).setPrev b a

@[simp] theorem join_next_self : (m.join a b).next a = b := setNext_next_self

@[simp] theorem join_prev_self : (m.join a b).prev b = a := setPrev_prev_self

@[simp] theorem join_next_of_ne (hne : x ≠ a) : (m.join a b).next x = m.next x :=
  setNext_next_of_ne hne

@[simp] theorem join_prev_of_ne (hne : x ≠ b) : (m.join a b).prev x = m.prev x :=
  setPrev_prev_of_ne hne

theorem within_join (ha : a ∈ l) (hb : b ∈ l) : Within m (m.join a b) l := by
  intro x hx
  have hxa : x ≠ a := fun he => hx (he ▸ ha)
  have hxb : x ≠ b := fun he => hx (he ▸ hb)
  exact ⟨join_next_of_ne hxa, join_prev_of_ne hxb⟩

theorem Ring.cut (hr : m.Ring h l) (hne : l ≠ []) (hnull : null ∉ l) :
    (m.setNext (m.prev h) null).Ends null ((m.setNext (m.prev h) null).next h) l := by
  obtain ⟨init, last, rfl⟩ := (List.eq_nil_or_concat l).resolve_left hne
  rw [List.concat_eq_append] at hr hnull ⊢
  obtain ⟨hinit, hlast⟩ := linked_append.mp hr.linked
  have hprev : m.prev h = last := hlast.2
  have hnodup : (h :: init ++ [last]).Nodup := hr.nodup
  have hmem : last ∉ h :: init := fun hl =>
    List.disjoint_of_nodup_append hnodup hl (List.mem_singleton_self last)
  have hkeep : ∀ x ∈ h :: init, (m.setNext last null).next x = m.next x :=
    fun x hx => setNext_next_of_ne fun he => hmem (he ▸ hx)
  rw [hprev, hkeep h List.mem_cons_self]
  refine ⟨reaches_append.mpr ⟨last, hinit.reaches.congr fun x hx => ?_, rfl, ?_⟩, hnull⟩
  · exact hkeep x (List.mem_cons_of_mem _ hx)
  · exact setNext_next_self

end Writes

end Links

end Wspack.Lib
