import Mathlib.Data.List.Perm.Basic
import Mathlib.Data.List.Pairwise
import Mathlib.Data.List.Nodup

universe u

namespace Wspack.KernelHash

variable {α : Type u} {cmp : α → α → Int} {R : α → α → Prop} {a b l : List α} {parts : List (List α)}
  {x y : α}

/-- `MAX_LIST_LENGTH_BITS`, beyond which `part` has only its sentinel. -/
def maxListLengthBits : Nat := 20

/-- `merge`: of equal elements the one of `a` goes first. -/
def mergeBy (cmp : α → α → Int) (a b : List α) : List α := a.merge b (fun x y => decide (cmp x y ≤ 0))

/-- The loop over `part` from `lev` on, where a part that is NULL is empty, and `part` ends
behind `max_lev`.  On the last level the merged list stays where it is. -/
def addPart (cmp : α → α → Int) : Nat → List (List α) → List α → List (List α)
  | _, [], cur => [cur]
  | lev, part :: parts, cur =>
    if part.isEmpty then cur :: parts
    else if lev + 1 = maxListLengthBits then mergeBy cmp part cur :: parts
    else [] :: addPart cmp (lev + 1) parts (mergeBy cmp part cur)

def mergeParts (cmp : α → α → Int) : List (List α) → List α → List α
  | [], list => list
  | part :: parts, list => mergeParts cmp parts (mergeBy cmp part list)

def listSort (cmp : α → α → Int) (l : List α) : List α :=
  mergeParts cmp (l.foldl (fun parts x => addPart cmp 0 parts [x]) []) []

theorem mergeBy_perm : (mergeBy cmp a b).Perm (a ++ b) := List.merge_perm_append _

theorem mem_mergeBy : x ∈ mergeBy cmp a b ↔ x ∈ a ∨ x ∈ b := by
  rw [mergeBy_perm.mem_iff, List.mem_append]

theorem addPart_perm (lev : Nat) : (addPart cmp lev parts a).flatten.Perm (a ++ parts.flatten) := by
  induction parts generalizing lev a with
  | nil => simp [addPart]
  | cons part parts ih =>
    have hmerge : (mergeBy cmp part a ++ parts.flatten).Perm (a ++ (part ++ parts.flatten)) := by
      rw [← List.append_assoc]
      exact (mergeBy_perm.trans List.perm_append_comm).append_right _
    rw [addPart, List.flatten_cons]
    split
    · rename_i h
      rw [List.isEmpty_iff.mp h, List.flatten_cons, List.nil_append]
    · split
      · rw [List.flatten_cons]
        exact hmerge
      · rw [List.flatten_cons, List.nil_append]
        exact (ih _).trans hmerge

theorem mergeParts_perm : (mergeParts cmp parts a).Perm (a ++ parts.flatten) := by
  induction parts generalizing a with
  | nil => simp [mergeParts]
  | cons part parts ih =>
    rw [mergeParts, List.flatten_cons, ← List.append_assoc]
    exact ih.trans ((mergeBy_perm.trans List.perm_append_comm).append_right _)

theorem foldl_addPart_perm :
    (l.foldl (fun parts x => addPart cmp 0 parts [x]) parts).flatten.Perm (l ++ parts.flatten) := by
  induction l generalizing parts with
  | nil => simp
  | cons x l ih =>
    rw [List.foldl_cons]
    exact ih.trans (((addPart_perm 0).append_left l).trans List.perm_middle)

theorem listSort_perm : (listSort cmp l).Perm l := by
  rw [listSort]
  refine mergeParts_perm.trans (foldl_addPart_perm.trans ?_)
  simp

def Agrees (cmp : α → α → Int) (R : α → α → Prop) (x y : α) : Prop :=
  (cmp x y ≤ 0 → R x y) ∧ (0 < cmp x y → R y x)

section Sorted

variable (htrans : ∀ x y z, R x y → R y z → R x z)

include htrans

theorem mergeBy_pairwise (ha : a.Pairwise R) (hb : b.Pairwise R)
    (hab : ∀ x ∈ a, ∀ y ∈ b, Agrees cmp R x y) : (mergeBy cmp a b).Pairwise R := by
  induction a generalizing b with
  | nil => simpa [mergeBy] using hb
  | cons x a iha =>
    obtain ⟨hxa, ha⟩ := List.pairwise_cons.mp ha
    induction b with
    | nil => simpa [mergeBy] using ⟨hxa, ha⟩
    | cons y b ihb =>
      obtain ⟨hyb, hb⟩ := List.pairwise_cons.mp hb
      obtain ⟨hle, hgt⟩ := hab x List.mem_cons_self y List.mem_cons_self
      rw [mergeBy, List.cons_merge_cons]
      by_cases hc : cmp x y ≤ 0
      · rw [if_pos (by simpa using hc), List.pairwise_cons]
        refine ⟨fun z hz => ?_, iha ha (List.pairwise_cons.mpr ⟨hyb, hb⟩)
          (fun u hu => hab u (List.mem_cons_of_mem _ hu))⟩
        rcases mem_mergeBy.mp hz with hz | hz
        · exact hxa z hz
        · rcases List.mem_cons.mp hz with rfl | hz
          · exact hle hc
          · exact htrans x y z (hle hc) (hyb z hz)
      · rw [if_neg (by simpa using hc), List.pairwise_cons]
        refine ⟨fun z hz => ?_, ihb hb (fun u hu v hv => hab u hu v (List.mem_cons_of_mem _ hv))⟩
        rcases mem_mergeBy.mp hz with hz | hz
        · rcases List.mem_cons.mp hz with rfl | hz
          · exact hgt (by omega)
          · exact htrans y x z (hgt (by omega)) (hxa z hz)
        · exact hyb z hz

structure Layered (cmp : α → α → Int) (R : α → α → Prop) (parts : List (List α)) : Prop where
  sorted : ∀ p ∈ parts, p.Pairwise R
  older : parts.Pairwise (fun p q => ∀ x ∈ q, ∀ y ∈ p, Agrees cmp R x y)

omit htrans in
theorem layered_cons {p : List α} : Layered cmp R (p :: parts) ↔
    p.Pairwise R ∧ (∀ q ∈ parts, ∀ x ∈ q, ∀ y ∈ p, Agrees cmp R x y) ∧ Layered cmp R parts := by
  constructor
  · rintro ⟨hs, ho⟩
    obtain ⟨hp, hparts⟩ := List.forall_mem_cons.mp hs
    obtain ⟨hq, ho⟩ := List.pairwise_cons.mp ho
    exact ⟨hp, hq, hparts, ho⟩
  · rintro ⟨hp, hq, hs, ho⟩
    exact ⟨List.forall_mem_cons.mpr ⟨hp, hs⟩, List.pairwise_cons.mpr ⟨hq, ho⟩⟩

theorem Layered.addPart (h : Layered cmp R parts) (lev : Nat) (ha : a.Pairwise R)
    (hpa : ∀ p ∈ parts, ∀ x ∈ p, ∀ y ∈ a, Agrees cmp R x y) :
    Layered cmp R (addPart cmp lev parts a) := by
  induction parts generalizing lev a with
  | nil => exact layered_cons.mpr ⟨ha, fun _ hq => absurd hq List.not_mem_nil, h⟩
  | cons part parts ih =>
    obtain ⟨hpart, hold, hparts⟩ := layered_cons.mp h
    obtain ⟨hfirst, hrest⟩ := List.forall_mem_cons.mp hpa
    have hmerged : (mergeBy cmp part a).Pairwise R := mergeBy_pairwise htrans hpart ha hfirst
    have holder : ∀ q ∈ parts, ∀ x ∈ q, ∀ y ∈ mergeBy cmp part a, Agrees cmp R x y := by
      intro q hq x hx y hy
      rcases mem_mergeBy.mp hy with hy | hy
      · exact hold q hq x hx y hy
      · exact hrest q hq x hx y hy
    rw [KernelHash.addPart]
    split
    · exact layered_cons.mpr ⟨ha, hrest, hparts⟩
    · split
      · exact layered_cons.mpr ⟨hmerged, holder, hparts⟩
      · exact layered_cons.mpr ⟨.nil, fun _ _ _ _ _ hy => absurd hy List.not_mem_nil,
          ih hparts (lev + 1) hmerged holder⟩

theorem Layered.mergeParts (h : Layered cmp R parts) (ha : a.Pairwise R)
    (hpa : ∀ p ∈ parts, ∀ x ∈ p, ∀ y ∈ a, Agrees cmp R x y) :
    (mergeParts cmp parts a).Pairwise R := by
  induction parts generalizing a with
  | nil => exact ha
  | cons part parts ih =>
    obtain ⟨hpart, hold, hparts⟩ := layered_cons.mp h
    obtain ⟨hfirst, hrest⟩ := List.forall_mem_cons.mp hpa
    apply ih hparts (mergeBy_pairwise htrans hpart ha hfirst)
    intro q hq x hx y hy
    rcases mem_mergeBy.mp hy with hy | hy
    · exact hold q hq x hx y hy
    · exact hrest q hq x hx y hy

theorem Layered.foldl (h : Layered cmp R parts) (hl : l.Pairwise (Agrees cmp R))
    (hpl : ∀ x ∈ parts.flatten, ∀ y ∈ l, Agrees cmp R x y) :
    Layered cmp R (l.foldl (fun parts x => KernelHash.addPart cmp 0 parts [x]) parts) := by
  induction l generalizing parts with
  | nil => exact h
  | cons x l ih =>
    obtain ⟨hx, hl⟩ := List.pairwise_cons.mp hl
    have hadd := h.addPart htrans 0 (List.pairwise_singleton R x) (fun p hp u hu v hv =>
      hpl u (List.mem_flatten_of_mem hp hu) v (by rw [List.mem_singleton.mp hv]; exact List.mem_cons_self))
    apply ih hadd hl
    intro u hu v hv
    rcases List.mem_append.mp ((addPart_perm 0).mem_iff.mp hu) with hu | hu
    · rw [List.mem_singleton.mp hu]
      exact hx v hv
    · exact hpl u hu v (List.mem_cons_of_mem _ hv)

theorem listSort_pairwise (hl : l.Pairwise (Agrees cmp R)) : (listSort cmp l).Pairwise R := by
  have hnil : Layered cmp R [] := ⟨fun _ hp => absurd hp List.not_mem_nil, .nil⟩
  apply (hnil.foldl htrans hl (fun _ hx => absurd hx List.not_mem_nil)).mergeParts htrans .nil
  exact fun _ _ _ _ _ hy => absurd hy List.not_mem_nil

end Sorted

section Stable

variable {z : α}

theorem pair_sublist_cons : [x, y].Sublist (z :: l) ↔ [x, y].Sublist l ∨ x = z ∧ y ∈ l := by
  constructor
  · intro h
    cases h with
    | cons _ h => exact .inl h
    | cons_cons _ h => exact .inr ⟨rfl, List.singleton_sublist.mp h⟩
  · rintro (h | ⟨rfl, h⟩)
    · exact h.cons _
    · exact (List.singleton_sublist.mpr h).cons_cons _

theorem mem_of_pair (h : [x, y].Sublist l) : x ∈ l ∧ y ∈ l :=
  ⟨h.subset List.mem_cons_self, h.subset (List.mem_cons_of_mem _ List.mem_cons_self)⟩

theorem pair_total (hx : x ∈ l) (hy : y ∈ l) (hne : x ≠ y) : [x, y].Sublist l ∨ [y, x].Sublist l := by
  induction l with
  | nil => cases hx
  | cons c l ih =>
    rw [pair_sublist_cons, pair_sublist_cons]
    rcases List.mem_cons.mp hx with rfl | hx₁ <;> rcases List.mem_cons.mp hy with rfl | hy₁
    · exact absurd rfl hne
    · exact .inl (.inr ⟨rfl, hy₁⟩)
    · exact .inr (.inr ⟨rfl, hx₁⟩)
    · exact (ih hx₁ hy₁).imp .inl .inl

theorem pair_asymm (hl : l.Nodup) (h : [x, y].Sublist l) : ¬[y, x].Sublist l := by
  induction l with
  | nil => cases h
  | cons c l ih =>
    obtain ⟨hc, hl⟩ := List.nodup_cons.mp hl
    intro h'
    rcases pair_sublist_cons.mp h with h₁ | ⟨rfl, hy⟩ <;>
      rcases pair_sublist_cons.mp h' with h₂ | ⟨rfl, hx⟩
    · exact ih hl h₁ h₂
    · exact hc (mem_of_pair h₁).2
    · exact hc (mem_of_pair h₂).2
    · exact hc hx

theorem pair_trans (hl : l.Nodup) (h : [x, y].Sublist l) (h' : [y, z].Sublist l) : [x, z].Sublist l := by
  induction l with
  | nil => cases h
  | cons c l ih =>
    obtain ⟨hc, hl⟩ := List.nodup_cons.mp hl
    rw [pair_sublist_cons]
    rcases pair_sublist_cons.mp h with h₁ | ⟨rfl, hy⟩ <;>
      rcases pair_sublist_cons.mp h' with h₂ | ⟨rfl, hz⟩
    · exact .inl (ih hl h₁ h₂)
    · exact absurd (mem_of_pair h₁).2 hc
    · exact .inr ⟨rfl, (mem_of_pair h₂).2⟩
    · exact absurd hy hc

structure TotalPreorder (cmp : α → α → Int) (l : List α) : Prop where
  total : ∀ x ∈ l, ∀ y ∈ l, cmp x y ≤ 0 ∨ cmp y x ≤ 0
  trans : ∀ x ∈ l, ∀ y ∈ l, ∀ z ∈ l, cmp x y ≤ 0 → cmp y z ≤ 0 → cmp x z ≤ 0

def Ahead (cmp : α → α → Int) (l : List α) (x y : α) : Prop :=
  [x, y].Sublist l ∧ cmp x y ≤ 0 ∨ [y, x].Sublist l ∧ 0 < cmp y x

theorem Ahead.mem (h : Ahead cmp l x y) : x ∈ l ∧ y ∈ l := by
  rcases h with ⟨h, -⟩ | ⟨h, -⟩
  · exact mem_of_pair h
  · exact (mem_of_pair h).symm

theorem Ahead.le (hp : TotalPreorder cmp l) (h : Ahead cmp l x y) : cmp x y ≤ 0 := by
  obtain ⟨hx, hy⟩ := h.mem
  rcases h with ⟨-, h⟩ | ⟨-, h⟩
  · exact h
  · exact (hp.total x hx y hy).resolve_right (by omega)

theorem Ahead.asymm (hl : l.Nodup) (h : Ahead cmp l x y) : ¬Ahead cmp l y x := by
  rintro (⟨h', hc'⟩ | ⟨h', hc'⟩) <;> rcases h with ⟨h, hc⟩ | ⟨h, hc⟩
  · exact pair_asymm hl h h'
  · omega
  · omega
  · exact pair_asymm hl h h'

theorem ahead_total (hx : x ∈ l) (hy : y ∈ l) (hne : x ≠ y) : Ahead cmp l x y ∨ Ahead cmp l y x := by
  rcases pair_total hx hy hne with h | h
  · by_cases hc : cmp x y ≤ 0
    · exact .inl (.inl ⟨h, hc⟩)
    · exact .inr (.inr ⟨h, by omega⟩)
  · by_cases hc : cmp y x ≤ 0
    · exact .inr (.inl ⟨h, hc⟩)
    · exact .inl (.inr ⟨h, by omega⟩)

theorem Ahead.trans (hl : l.Nodup) (hp : TotalPreorder cmp l) (h : Ahead cmp l x y)
    (h' : Ahead cmp l y z) : Ahead cmp l x z := by
  obtain ⟨hx, hy⟩ := h.mem
  obtain ⟨-, hz⟩ := h'.mem
  have hne : x ≠ z := fun e => h.asymm hl (e ▸ h')
  have hxz : cmp x z ≤ 0 := hp.trans x hx y hy z hz (h.le hp) (h'.le hp)
  refine (ahead_total hx hz hne).resolve_right ?_
  -- `z` in front of `x` makes the three equivalent, so that their places decide
  intro hzx
  have hback : cmp z y ≤ 0 := hp.trans z hz x hx y hy (hzx.le hp) (h.le hp)
  have hforth : cmp y x ≤ 0 := hp.trans y hy z hz x hx (h'.le hp) (hzx.le hp)
  have hxy : [x, y].Sublist l := by
    rcases h with ⟨h, -⟩ | ⟨-, h⟩
    · exact h
    · omega
  have hyz : [y, z].Sublist l := by
    rcases h' with ⟨h', -⟩ | ⟨-, h'⟩
    · exact h'
    · omega
  rcases hzx with ⟨hzx, -⟩ | ⟨-, hzx⟩
  · exact pair_asymm hl (pair_trans hl hxy hyz) hzx
  · omega

theorem pair_listSort_iff (hl : l.Nodup) (hp : TotalPreorder cmp l) :
    [x, y].Sublist (listSort cmp l) ↔ Ahead cmp l x y := by
  have hsorted : (listSort cmp l).Pairwise (Ahead cmp l) := by
    apply listSort_pairwise (fun _ _ _ h h' => h.trans hl hp h')
    rw [List.pairwise_iff_forall_sublist]
    exact fun h => ⟨fun hc => .inl ⟨h, hc⟩, fun hc => .inr ⟨h, hc⟩⟩
  rw [List.pairwise_iff_forall_sublist] at hsorted
  constructor
  · exact fun h => hsorted h
  · intro h
    obtain ⟨hx, hy⟩ := h.mem
    have hne : x ≠ y := fun e => h.asymm hl (e ▸ h)
    refine (pair_total (listSort_perm.mem_iff.mpr hx) (listSort_perm.mem_iff.mpr hy) hne).resolve_right ?_
    exact fun h' => h.asymm hl (hsorted h')

end Stable

end Wspack.KernelHash
