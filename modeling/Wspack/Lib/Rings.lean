import Wspack.Lib.Links
import Mathlib.Data.List.Chain

universe u

namespace Wspack.Lib.Links

variable {α : Type u} {m m' : Links α} {a b x y h n p : α} {l l' A B : List α}

def Edge (m : Links α) (a b : α) : Prop := m.next a = b ∧ m.prev b = a

abbrev Seg (m : Links α) (A : List α) : Prop := A.IsChain m.Edge

theorem linked_iff_seg : m.Linked x l y ↔ m.Seg (x :: (l ++ [y])) := by
  induction l generalizing x with
  | nil => simp [Linked, Seg, Edge]
  | cons z l ih => rw [Linked, ih, List.cons_append, Seg, Seg, List.isChain_cons_cons, Edge, and_assoc]

theorem ring_iff : m.Ring h l ↔ m.Seg (h :: (l ++ [h])) ∧ (h :: l).Nodup :=
  ⟨fun hr => ⟨linked_iff_seg.mp hr.linked, hr.nodup⟩, fun hr => ⟨linked_iff_seg.mpr hr.1, hr.2⟩⟩

theorem Seg.congr (hA : m.Seg A) (hnext : ∀ z ∈ A.dropLast, m'.next z = m.next z)
    (hprev : ∀ z ∈ A.tail, m'.prev z = m.prev z) : m'.Seg A := by
  induction A with
  | nil => exact .nil
  | cons x A ih =>
    cases A with
    | nil => exact .singleton x
    | cons y A =>
      rw [Seg, List.isChain_cons_cons] at hA
      rw [List.dropLast_cons_of_ne_nil (by simp), List.forall_mem_cons] at hnext
      rw [List.tail_cons, List.forall_mem_cons] at hprev
      rw [Seg, List.isChain_cons_cons]
      exact ⟨⟨hnext.1.trans hA.1.1, hprev.1.trans hA.1.2⟩, ih hA.2 hnext.2 hprev.2⟩

theorem Ring.parts (hr : m.Ring h (l ++ l')) : m.Seg (h :: l) ∧ m.Seg (l' ++ [h]) ∧
    ∀ p n, (h :: l).getLast? = some p → (l' ++ [h]).head? = some n → m.next p = n ∧ m.prev n = p := by
  have hseg : m.Seg ((h :: l) ++ (l' ++ [h])) := by
    have hall := (ring_iff.mp hr).1
    rwa [List.append_assoc, ← List.cons_append] at hall
  obtain ⟨hl, hl', hedge⟩ := List.isChain_append.mp hseg
  exact ⟨hl, hl', fun p n hp hn => hedge p hp n hn⟩

def flip (m : Links α) : Links α := ⟨m.prev, m.next⟩

theorem Ring.flip (hr : m.Ring h l) : m.flip.Ring h l.reverse := by
  obtain ⟨hseg, hnodup⟩ := ring_iff.mp hr
  refine ring_iff.mpr ⟨?_, (l.reverse_perm.cons h).nodup_iff.mpr hnodup⟩
  have hlist : h :: (l.reverse ++ [h]) = (h :: (l ++ [h])).reverse := by simp
  rw [hlist, Seg, List.isChain_reverse]
  exact hseg.imp fun a b hab => ⟨hab.2, hab.1⟩

theorem Ring.head?_next (hr : m.Ring h l) : (l ++ [h]).head? = some (m.next h) := by
  obtain ⟨n, hn⟩ : ∃ n, (l ++ [h]).head? = some n := ⟨_, List.head?_eq_some_head (by simp)⟩
  rw [hn, ((Ring.parts (l := []) hr).2.2 h n rfl hn).1]

theorem Ring.getLast?_prev (hr : m.Ring h l) : (h :: l).getLast? = some (m.prev h) := by
  obtain ⟨p, hp⟩ : ∃ p, (h :: l).getLast? = some p := ⟨_, List.getLast?_eq_some_getLast (by simp)⟩
  have hr' : m.Ring h (l ++ []) := by rwa [List.append_nil]
  rw [hp, (hr'.parts.2.2 p h hp rfl).2]

theorem Ring.around (hr : m.Ring h (l ++ x :: l')) :
    (h :: l).getLast? = some (m.prev x) ∧ (l' ++ [h]).head? = some (m.next x) := by
  obtain ⟨p, hp⟩ : ∃ p, (h :: l).getLast? = some p := ⟨_, List.getLast?_eq_some_getLast (by simp)⟩
  obtain ⟨n, hn⟩ : ∃ n, (l' ++ [h]).head? = some n := ⟨_, List.head?_eq_some_head (by simp)⟩
  have hr' : m.Ring h (l ++ [x] ++ l') := by simpa using hr
  have hlast : (h :: (l ++ [x])).getLast? = some x := List.getLast?_concat (l := h :: l)
  rw [hp, hn, (hr.parts.2.2 p x hp rfl).2, (hr'.parts.2.2 x n hlast hn).1]
  exact ⟨rfl, rfl⟩

theorem nodup_behind (hnodup : (h :: (l ++ l')).Nodup) : (l' ++ [h]).Nodup ∧ ∀ z ∈ l' ++ [h], z ∉ l := by
  obtain ⟨hh, hall⟩ := List.nodup_cons.mp hnodup
  obtain ⟨-, hl', hdisj⟩ := List.nodup_append'.mp hall
  rw [List.mem_append, not_or] at hh
  constructor
  · rw [List.nodup_append_comm]
    exact List.nodup_cons.mpr ⟨hh.2, hl'⟩
  · intro z hz
    rcases List.mem_append.mp hz with hz | hz
    · exact fun hl => hdisj hl hz
    · rw [List.mem_singleton.mp hz]
      exact hh.1

variable [DecidableEq α]

theorem Seg.join (hA : m.Seg (A ++ [p])) (hB : m.Seg (n :: B)) (hpA : p ∉ A) (hpB : p ∉ (n :: B).dropLast)
    (hnA : n ∉ (A ++ [p]).tail) (hnB : n ∉ B) : (m.join p n).Seg (A ++ p :: n :: B) := by
  rw [Seg, List.isChain_append_cons_cons]
  refine ⟨hA.congr (fun z hz => ?_) (fun z hz => ?_), ⟨join_next_self, join_prev_self⟩,
    hB.congr (fun z hz => ?_) (fun z hz => ?_)⟩
  · rw [List.dropLast_concat] at hz
    exact join_next_of_ne fun he => hpA (he ▸ hz)
  · exact join_prev_of_ne fun he => hnA (he ▸ hz)
  · exact join_next_of_ne fun he => hpB (he ▸ hz)
  · exact join_prev_of_ne fun he => hnB (he ▸ hz)

theorem ring_join (hl : m.Seg (h :: l)) (hl' : m.Seg (l' ++ [h])) (hnodup : (h :: (l ++ l')).Nodup)
    (hp : (h :: l).getLast? = some p) (hn : (l' ++ [h]).head? = some n) :
    (m.join p n).Ring h (l ++ l') := by
  obtain ⟨A, hA⟩ := List.getLast?_eq_some_iff.mp hp
  obtain ⟨B, hB⟩ := List.head?_eq_some_iff.mp hn
  obtain ⟨hback, hapart⟩ := nodup_behind hnodup
  have happ : (h :: l ++ l').Nodup := hnodup
  have hfront : (A ++ [p]).Nodup := hA ▸ happ.of_append_left
  have hseg : (m.join p n).Seg (A ++ p :: n :: B) := by
    refine Seg.join (hA ▸ hl) (hB ▸ hl') ?_ ?_ ?_ ?_
    · exact fun hmem => List.disjoint_of_nodup_append hfront hmem (List.mem_singleton_self p)
    · rw [← hB, List.dropLast_concat]
      exact fun hmem => List.disjoint_of_nodup_append happ (hA ▸ List.mem_concat_self) hmem
    · rw [← hA, List.tail_cons]
      exact hapart n (hB ▸ List.mem_cons_self)
    · rw [hB] at hback
      exact (List.nodup_cons.mp hback).1
  have hlist : h :: (l ++ l' ++ [h]) = A ++ p :: n :: B := by
    rw [← hB, List.append_assoc, ← List.cons_append, hA]
    simp
  exact ring_iff.mpr ⟨hlist ▸ hseg, hnodup⟩

theorem Ring.insert (hr : m.Ring h (l ++ l')) (hx : x ∉ h :: (l ++ l')) (hp : (h :: l).getLast? = some p)
    (hn : (l' ++ [h]).head? = some n) : ((m.join x n).join p x).Ring h (l ++ x :: l') := by
  obtain ⟨hl, hl', -⟩ := hr.parts
  obtain ⟨B, hB⟩ := List.head?_eq_some_iff.mp hn
  obtain ⟨hback, hapart⟩ := nodup_behind hr.nodup
  have hnodup : (h :: l ++ x :: l').Nodup :=
    List.perm_middle.nodup_iff.mpr (List.nodup_cons.mpr ⟨hx, hr.nodup⟩)
  have hxl : x ∉ h :: l := fun hmem => hx ((List.sublist_append_left (h :: l) l').subset hmem)
  refine ring_join (hl.congr (fun z hz => ?_) (fun z hz => ?_)) ?_ hnodup hp rfl
  · exact join_next_of_ne fun he => hxl (he ▸ List.dropLast_subset _ hz)
  · exact join_prev_of_ne fun he => hapart n (hB ▸ List.mem_cons_self) (he ▸ hz)
  · rw [List.cons_append, hB]
    refine Seg.join (A := []) (.singleton x) (hB ▸ hl') List.not_mem_nil ?_ List.not_mem_nil ?_
    · rw [← hB, List.dropLast_concat]
      exact fun hmem => hx (List.mem_cons_of_mem h (List.mem_append_right l hmem))
    · rw [hB] at hback
      exact (List.nodup_cons.mp hback).1

theorem Ring.remove (hr : m.Ring h (l ++ x :: l')) : (m.join (m.prev x) (m.next x)).Ring h (l ++ l') := by
  obtain ⟨hp, hn⟩ := hr.around
  have hr' : m.Ring h (l ++ [x] ++ l') := by simpa using hr
  refine ring_join hr.parts.1 hr'.parts.2.1 (hr.nodup.sublist ?_) hp hn
  exact ((List.sublist_cons_self x l').append_left l).cons_cons h

theorem Ring.splice {g f e : α} (hg : m.Ring g l) (hr : m.Ring h l') (hdisj : l.Disjoint (h :: l'))
    (hf : l.head? = some f) (he : l.getLast? = some e) (hn : (l' ++ [h]).head? = some n) :
    ((m.join h f).join e n).Ring h (l ++ l') := by
  obtain ⟨L, rfl⟩ := List.head?_eq_some_iff.mp hf
  have hl : m.Seg (f :: L) := ((List.append_nil (f :: L)).symm ▸ hg).parts.1.tail
  have hl' : m.Seg (l' ++ [h]) := (Ring.parts (l := []) hr).2.1
  have hnodup := (List.nodup_cons.mp hg.nodup).2
  have hh : h ∉ f :: L := fun hmem => hdisj hmem List.mem_cons_self
  have hall : (h :: (f :: L ++ l')).Nodup := by
    obtain ⟨hhl', hl'nodup⟩ := List.nodup_cons.mp hr.nodup
    refine List.nodup_cons.mpr ⟨fun hmem => (List.mem_append.mp hmem).elim hh hhl', ?_⟩
    exact hnodup.append hl'nodup (List.disjoint_of_subset_right (List.subset_cons_self h l') hdisj)
  have hfront : (m.join h f).Seg ([] ++ h :: f :: L) :=
    Seg.join (.singleton h) hl List.not_mem_nil (fun hmem => hh (List.dropLast_subset _ hmem))
      List.not_mem_nil (List.nodup_cons.mp hnodup).1
  refine ring_join hfront (hl'.congr (fun z hz => ?_) (fun z hz => ?_)) hall ?_ hn
  · rw [List.dropLast_concat] at hz
    exact join_next_of_ne fun heq => (List.nodup_cons.mp hr.nodup).1 (heq ▸ hz)
  · have hmem : z ∈ h :: l' := List.perm_append_singleton h l' |>.mem_iff.mp (List.mem_of_mem_tail hz)
    exact join_prev_of_ne fun heq => hdisj (heq ▸ List.mem_cons_self) hmem
  · rw [List.getLast?_cons_cons]
    exact he

structure Rings (m : Links α) (lists : α → Option (List α)) : Prop where
  ring : ∀ {h l}, lists h = some l → m.Ring h l
  apart : ∀ {h l g k}, lists h = some l → lists g = some k → h ≠ g → (h :: l).Disjoint (g :: k)

section Rings

variable {lists : α → Option (List α)} {w : List α}

theorem Rings.update (hm : m.Rings lists) (hr : m'.Ring h l) (hw : m.Within m' w)
    (hoff : ∀ g k, lists g = some k → g ≠ h → w.Disjoint (g :: k) ∧ (h :: l).Disjoint (g :: k)) :
    m'.Rings (Function.update lists h (some l)) where
  ring {g k} hg := by
    by_cases he : g = h
    · subst he
      rw [Function.update_self] at hg
      cases hg
      exact hr
    · rw [Function.update_of_ne he] at hg
      have hkeep : ∀ z ∈ g :: k, z ∉ w := fun z hz hzw => (hoff g k hg he).1 hzw hz
      exact (hm.ring hg).congr (fun z hz => (hw z (hkeep z hz)).1) (fun z hz => (hw z (hkeep z hz)).2)
  apart {g k g' k'} hg hg' hne := by
    by_cases he : g = h
    · subst he
      rw [Function.update_self] at hg
      rw [Function.update_of_ne (Ne.symm hne)] at hg'
      cases hg
      exact (hoff g' k' hg' (Ne.symm hne)).2
    · rw [Function.update_of_ne he] at hg
      by_cases he' : g' = h
      · subst he'
        rw [Function.update_self] at hg'
        cases hg'
        exact List.disjoint_symm (hoff g k hg he).2
      · rw [Function.update_of_ne he'] at hg'
        exact hm.apart hg hg' hne

theorem Rings.change (hm : m.Rings lists) (hl : lists h = some l) (hr : m'.Ring h l')
    (hw : m.Within m' (h :: l)) (hsub : l' ⊆ l) : m'.Rings (Function.update lists h (some l')) := by
  refine hm.update hr hw fun g k hg hne => ?_
  have hdisj := hm.apart hl hg (Ne.symm hne)
  exact ⟨hdisj, List.disjoint_of_subset_left (List.cons_subset_cons h hsub) hdisj⟩

theorem Rings.forget (hm : m.Rings lists) (g : α) : m.Rings (Function.update lists g none) := by
  have hsome : ∀ {h l}, Function.update lists g none h = some l → lists h = some l := by
    intro h l hl
    by_cases he : h = g
    · subst he
      rw [Function.update_self] at hl
      cases hl
    · rwa [Function.update_of_ne he] at hl
  exact ⟨fun hl => hm.ring (hsome hl), fun hl hk hne => hm.apart (hsome hl) (hsome hk) hne⟩

end Rings

end Wspack.Lib.Links
