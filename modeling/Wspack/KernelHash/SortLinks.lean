import Mathlib.Algebra.Order.Ring.Nat
import Wspack.Lib.Links
import Wspack.KernelHash.ListSort

/-! `sort.c` on the links themselves: the pointers that `merge`, `merge_and_restore_back_links` and
`list_sort` follow and write.  The comparison may read the memory as it is when it is called.  A loop has a
bound on its rounds, and gives up beyond it. -/

namespace Wspack.KernelHash.Nodes

open Lib

def NULL : Nat := 0

/-- `tail->next = p` in `merge`, where `tail` points to the local `head` at first; the value of
`head.next` and the memory afterwards. -/
def linkTail (tail : Option Nat) (first p : Nat) (m : Links Nat) : Nat × Links Nat :=
  match tail with
  | none => (p, m)
  | some t => (first, m.setNext t p)

def mergeLoop (cmp : Links Nat → Nat → Nat → Int) :
    (n : Nat) → Option Nat → (first a b : Nat) → Links Nat → Option (Nat × Links Nat)
  | 0, _, _, _, _, _ => none
  | n + 1, tail, first, a, b, m =>
    if a ≠ NULL ∧ b ≠ NULL then
      if cmp m a b ≤ 0 then
        let (first, m) := linkTail tail first a m
        mergeLoop cmp n (some a) first (m.next a) b m
      else
        let (first, m) := linkTail tail first b m
        mergeLoop cmp n (some b) first a (m.next b) m
    else some (linkTail tail first (if a ≠ NULL then a else b) m)

def merge (cmp : Links Nat → Nat → Nat → Int) (n a b : Nat) (m : Links Nat) : Option (Nat × Links Nat) :=
  mergeLoop cmp n none NULL a b m

def mergeBackLoop (cmp : Links Nat → Nat → Nat → Int) :
    (n : Nat) → (tail a b : Nat) → Links Nat → Option (Nat × Links Nat)
  | 0, _, _, _, _ => none
  | n + 1, tail, a, b, m =>
    if a ≠ NULL ∧ b ≠ NULL then
      if cmp m a b ≤ 0 then
        let m := (m.setNext tail a).setPrev a tail
        mergeBackLoop cmp n a (m.next a) b m
      else
        let m := (m.setNext tail b).setPrev b tail
        mergeBackLoop cmp n b a (m.next b) m
    else some (tail, m.setNext tail (if a ≠ NULL then a else b))

/-- The second loop, which only sets the links back; what `cmp` returns there is not used. -/
def backLoop : (n tail : Nat) → Links Nat → Option (Nat × Links Nat)
  | 0, _, _ => none
  | n + 1, tail, m =>
    let m := m.setPrev (m.next tail) tail
    let tail := m.next tail
    if m.next tail ≠ NULL then backLoop n tail m else some (tail, m)

def mergeAndRestoreBackLinks (cmp : Links Nat → Nat → Nat → Int) (n head a b : Nat) (m : Links Nat) :
    Option (Links Nat) := do
  let (tail, m) ← mergeBackLoop cmp n head a b m
  let (tail, m) ← backLoop n tail m
  some ((m.setNext tail head).setPrev head tail)

structure Sorting where
  part : Nat → Nat
  maxLev : Nat

/-- The loop over `lev`, which merges as long as there is a part; `part` has 21 entries. -/
def levLoop (cmp : Links Nat → Nat → Nat → Int) (n : Nat) :
    (k lev : Nat) → (Nat → Nat) → (cur : Nat) → Links Nat → Option (Nat × (Nat → Nat) × Nat × Links Nat)
  | 0, _, _, _, _ => none
  | k + 1, lev, part, cur, m =>
    if maxListLengthBits < lev then none
    else if part lev ≠ NULL then do
      let (cur, m) ← merge cmp n (part lev) cur m
      levLoop cmp n k (lev + 1) (Function.update part lev NULL) cur m
    else some (lev, part, cur, m)

def keepPart (s : Sorting) (lev cur : Nat) : Sorting :=
  if s.maxLev < lev then
    let lev := if maxListLengthBits ≤ lev then lev - 1 else lev
    ⟨Function.update s.part lev cur, lev⟩
  else ⟨Function.update s.part lev cur, s.maxLev⟩

def addNode (cmp : Links Nat → Nat → Nat → Int) (n lev cur : Nat) (s : Sorting) (m : Links Nat) :
    Option (Sorting × Links Nat) := do
  let (lev, part, cur, m) ← levLoop cmp n n lev s.part cur m
  some (keepPart ⟨part, s.maxLev⟩ lev cur, m)

def nodeLoop (cmp : Links Nat → Nat → Nat → Int) (n : Nat) :
    (k list : Nat) → Sorting → Links Nat → Option (Sorting × Links Nat)
  | 0, _, _, _ => none
  | k + 1, list, s, m =>
    if list ≠ NULL then do
      let cur := list
      let list := m.next list
      let m := m.setNext cur NULL
      let (s, m) ← addNode cmp n 0 cur s m
      nodeLoop cmp n k list s m
    else some (s, m)

def partLoop (cmp : Links Nat → Nat → Nat → Int) (n : Nat) (part : Nat → Nat) :
    (k lev list : Nat) → Links Nat → Option (Nat × Links Nat)
  | 0, _, list, m => some (list, m)
  | k + 1, lev, list, m =>
    if part lev ≠ NULL then do
      let (list, m) ← merge cmp n (part lev) list m
      partLoop cmp n part k (lev + 1) list m
    else partLoop cmp n part k (lev + 1) list m

def listSort (cmp : Links Nat → Nat → Nat → Int) (n head : Nat) (m : Links Nat) : Option (Links Nat) :=
  if m.next head = head then some m
  else do
    let m := m.setNext (m.prev head) NULL
    let (s, m) ← nodeLoop cmp n n (m.next head) ⟨fun _ => NULL, 0⟩ m
    let (list, m) ← partLoop cmp n s.part s.maxLev 0 NULL m
    mergeAndRestoreBackLinks cmp n head (s.part s.maxLev) list m

variable {cmp : Links Nat → Nat → Nat → Int} {c : Nat → Nat → Int} {m m' : Links Nat}
  {first a b head n : Nat} {tail : Option Nat} {la lb out : List Nat}

def Tailed (m : Links Nat) (first : Nat) (out : List Nat) (tail : Option Nat) : Prop :=
  out = [] ∧ tail = none ∨ ∃ o t, out = o ++ [t] ∧ tail = some t ∧ m.Reaches first o t

theorem linkTail_spec (h : Tailed m first out tail) (hout : out.Nodup) (p : Nat) :
    (linkTail tail first p m).2.Reaches (linkTail tail first p m).1 out p ∧
      (∀ x ∉ out, (linkTail tail first p m).2.next x = m.next x) ∧
      (linkTail tail first p m).2.prev = m.prev := by
  rcases h with ⟨rfl, rfl⟩ | ⟨o, t, rfl, rfl, ho⟩
  · exact ⟨rfl, fun _ _ => rfl, rfl⟩
  · have ht : t ∉ o := fun h => (List.disjoint_of_nodup_append hout) h (List.mem_singleton_self t)
    refine ⟨?_, fun x hx => ?_, rfl⟩
    · refine Links.reaches_append.mpr ⟨t, ho.congr fun x hx => ?_, rfl, Links.setNext_next_self⟩
      exact Links.setNext_next_of_ne fun he => ht (he ▸ hx)
    · exact Links.setNext_next_of_ne fun he => hx (by simp [he])

theorem Tailed.of_reaches (h : m.Reaches first out a) : Tailed m first (out ++ [a]) (some a) :=
  .inr ⟨out, a, rfl, rfl, h⟩

theorem linkTail_ends (h : Tailed m first out tail) (hout : out.Nodup) (p : Nat) {q : Nat}
    {l : List Nat} (hl : m.Ends NULL q l) (hdisj : out.Disjoint l) :
    (linkTail tail first p m).2.Ends NULL q l :=
  hl.congr fun _ hx => (linkTail_spec h hout p).2.1 _ fun ho => hdisj ho hx

theorem mergeBy_nil_right (l : List Nat) : mergeBy c l [] = l := by simp [mergeBy]

theorem mergeBy_nil_left (l : List Nat) : mergeBy c [] l = l := by simp [mergeBy]

theorem mergeBy_cons_le (h : c a b ≤ 0) :
    mergeBy c (a :: la) (b :: lb) = a :: mergeBy c la (b :: lb) := by
  rw [mergeBy, List.cons_merge_cons, if_pos (by simpa using h), mergeBy]

theorem mergeBy_cons_gt (h : ¬c a b ≤ 0) :
    mergeBy c (a :: la) (b :: lb) = b :: mergeBy c (a :: la) lb := by
  rw [mergeBy, List.cons_merge_cons, if_neg (by simpa using h), mergeBy]

def Steady (cmp : Links Nat → Nat → Nat → Int) (c : Nat → Nat → Int) (l : List Nat) : Prop :=
  ∀ m, ∀ x ∈ l, ∀ y ∈ l, cmp m x y = c x y

theorem Steady.mono {l l' : List Nat} (h : Steady cmp c l) (hl : l' ⊆ l) : Steady cmp c l' :=
  fun m x hx y hy => h m x (hl hx) y (hl hy)

theorem Steady.eq_head (h : Steady cmp c (a :: la ++ b :: lb)) (m : Links Nat) : cmp m a b = c a b :=
  h m a (by simp) b (by simp)

structure Merges (cmp : Links Nat → Nat → Nat → Int) (c : Nat → Nat → Int) (la lb l' : List Nat) : Prop where
  perm : l'.Perm (la ++ lb)
  eq : Steady cmp c (la ++ lb) → l' = mergeBy c la lb

theorem Merges.nil_left (l : List Nat) : Merges cmp c [] l l := ⟨.refl l, fun _ => (mergeBy_nil_left l).symm⟩

theorem Merges.nil_right (l : List Nat) : Merges cmp c l [] l :=
  ⟨.of_eq (List.append_nil l).symm, fun _ => (mergeBy_nil_right l).symm⟩

theorem Merges.cons_left {l : List Nat} (h : Merges cmp c la (b :: lb) l) (hc : cmp m a b ≤ 0) :
    Merges cmp c (a :: la) (b :: lb) (a :: l) where
  perm := h.perm.cons a
  eq hs := by
    rw [mergeBy_cons_le (hs.eq_head m ▸ hc), h.eq (hs.mono (List.subset_cons_self a _))]

theorem Merges.cons_right {l : List Nat} (h : Merges cmp c (a :: la) lb l) (hc : ¬cmp m a b ≤ 0) :
    Merges cmp c (a :: la) (b :: lb) (b :: l) where
  perm := (h.perm.cons b).trans List.perm_middle.symm
  eq hs := by
    have hsub : a :: la ++ lb ⊆ a :: la ++ b :: lb := ((List.sublist_cons_self b lb).append_left (a :: la)).subset
    rw [mergeBy_cons_gt (hs.eq_head m ▸ hc), h.eq (hs.mono hsub)]

theorem mergeLoop_spec (c : Nat → Nat → Int) (ha : m.Ends NULL a la) (hb : m.Ends NULL b lb)
    (hnodup : (out ++ (la ++ lb)).Nodup) (hnull : NULL ∉ out) (ht : Tailed m first out tail)
    (hn : la.length + lb.length < n) :
    ∃ p m' l, mergeLoop cmp n tail first a b m = some (p, m') ∧
      m'.Ends NULL p (out ++ l) ∧ Merges cmp c la lb l ∧
      (∀ x ∉ out ++ (la ++ lb), m'.next x = m.next x) ∧ m'.prev = m.prev := by
  induction n generalizing m tail first out a b la lb with
  | zero => omega
  | succ n ih =>
    obtain ⟨hout, -, hdisj⟩ := List.nodup_append'.mp hnodup
    have hdisja : out.Disjoint la := List.disjoint_of_subset_right (List.subset_append_left la lb) hdisj
    have hdisjb : out.Disjoint lb := List.disjoint_of_subset_right (List.subset_append_right la lb) hdisj
    rw [mergeLoop]
    by_cases hab : a ≠ NULL ∧ b ≠ NULL
    · rw [if_pos hab]
      obtain ⟨la', rfl, ha'⟩ := ha.exists_cons hab.1
      obtain ⟨lb', rfl, hb'⟩ := hb.exists_cons hab.2
      have hlen : la'.length + lb'.length + 1 < n := by
        simp only [List.length_cons] at hn
        omega
      by_cases hc : cmp m a b ≤ 0
      · rw [if_pos hc]
        obtain ⟨hr, hnext, hprev⟩ := linkTail_spec ht hout a
        have hrest : (out ++ [a] ++ (la' ++ b :: lb')).Nodup := by simpa using hnodup
        have haout : a ∉ out := fun h => hdisja h List.mem_cons_self
        have ha₁ := linkTail_ends ht hout a ha'
          (List.disjoint_of_subset_right (List.subset_cons_self a la') hdisja)
        rw [← hnext a haout] at ha₁
        obtain ⟨p, m', l, he, hends, hl, hframe, hback⟩ := ih ha₁ (linkTail_ends ht hout a hb hdisjb) hrest
          (by simpa [hnull] using hab.1.symm) (.of_reaches hr) (by rw [List.length_cons]; omega)
        refine ⟨p, m', a :: l, he, by simpa using hends, hl.cons_left hc, fun x hx => ?_, hback.trans hprev⟩
        rw [hframe x (by simpa using hx), hnext x fun h => hx (List.mem_append_left _ h)]
      · rw [if_neg hc]
        obtain ⟨hr, hnext, hprev⟩ := linkTail_spec ht hout b
        have hperm : (out ++ (a :: la' ++ b :: lb')).Perm (out ++ [b] ++ (a :: la' ++ lb')) := by
          rw [List.append_assoc]
          exact List.perm_middle.append_left out
        have hbout : b ∉ out := fun h => hdisjb h List.mem_cons_self
        have hb₁ := linkTail_ends ht hout b hb'
          (List.disjoint_of_subset_right (List.subset_cons_self b lb') hdisjb)
        rw [← hnext b hbout] at hb₁
        obtain ⟨p, m', l, he, hends, hl, hframe, hback⟩ := ih (linkTail_ends ht hout b ha hdisja) hb₁
          (hperm.nodup_iff.mp hnodup) (by simpa [hnull] using hab.2.symm) (.of_reaches hr)
          (by rw [List.length_cons]; omega)
        refine ⟨p, m', b :: l, he, by simpa using hends, hl.cons_right hc, fun x hx => ?_, hback.trans hprev⟩
        rw [hframe x (mt hperm.mem_iff.mpr hx), hnext x fun h => hx (List.mem_append_left _ h)]
    · rw [if_neg hab]
      -- one of the lists is at its end, and the other one is linked as it is
      have hlast : ∃ l, m.Ends NULL (if a ≠ NULL then a else b) l ∧ Merges cmp c la lb l ∧
          out.Disjoint l := by
        by_cases hnulla : a = NULL
        · rw [hnulla] at ha
          rw [if_neg (not_not.mpr hnulla), Links.ends_null ha]
          exact ⟨lb, hb, .nil_left lb, hdisjb⟩
        · have hnullb : b = NULL := not_not.mp fun h => hab ⟨hnulla, h⟩
          rw [hnullb] at hb
          rw [if_pos hnulla, Links.ends_null hb]
          exact ⟨la, ha, .nil_right la, hdisja⟩
      obtain ⟨l, hl, hmerge, hdisjl⟩ := hlast
      obtain ⟨hr, hnext, hprev⟩ := linkTail_spec ht hout (if a ≠ NULL then a else b)
      have hl' := linkTail_ends ht hout (if a ≠ NULL then a else b) hl hdisjl
      refine ⟨_, _, l, rfl, ?_, hmerge, fun x hx => hnext x fun h => hx (List.mem_append_left _ h), hprev⟩
      refine ⟨Links.reaches_append.mpr ⟨_, hr, hl'.reaches⟩, ?_⟩
      rw [List.mem_append, not_or]
      exact ⟨hnull, hl.nonnull⟩

theorem merge_spec (cmp : Links Nat → Nat → Nat → Int) (c : Nat → Nat → Int) (ha : m.Ends NULL a la)
    (hb : m.Ends NULL b lb) (hnodup : (la ++ lb).Nodup) (hn : la.length + lb.length < n) :
    ∃ p m' l, merge cmp n a b m = some (p, m') ∧ m'.Ends NULL p l ∧ Merges cmp c la lb l ∧
      (∀ x ∉ la ++ lb, m'.next x = m.next x) ∧ m'.prev = m.prev :=
  mergeLoop_spec c ha hb (show ([] ++ (la ++ lb)).Nodup from hnodup) List.not_mem_nil (.inl ⟨rfl, rfl⟩) hn

variable {t : Nat} {r : List Nat}

def Built (m : Links Nat) (head : Nat) (out : List Nat) (t : Nat) : Prop :=
  out = [] ∧ t = head ∨ ∃ o, out = o ++ [t] ∧ m.Linked head o t

theorem Built.link (h : Built m head out t) (hnodup : (head :: out).Nodup) (hnext : m'.next t = a)
    (hprev : m'.prev a = t) (hkeep : ∀ z ∈ head :: out, z ≠ t → m'.next z = m.next z)
    (hback : ∀ z ∈ out, m'.prev z = m.prev z) : m'.Linked head out a := by
  rcases h with ⟨rfl, rfl⟩ | ⟨o, rfl, ho⟩
  · exact ⟨hnext, hprev⟩
  · refine Links.linked_append.mpr ⟨ho.congr (fun z hz => hkeep z ?_ ?_) hback, hnext, hprev⟩
    · rw [← List.cons_append]
      exact List.mem_append_left _ hz
    · rintro rfl
      rw [← List.cons_append] at hnodup
      exact List.disjoint_of_nodup_append hnodup hz (List.mem_singleton_self z)

theorem Built.of_linked (h : m.Linked head out a) : Built m head (out ++ [a]) a := .inr ⟨out, rfl, h⟩

theorem Built.mem (h : Built m head out t) : t ∈ head :: out := by
  rcases h with ⟨rfl, rfl⟩ | ⟨o, rfl, -⟩
  · exact List.mem_cons_self
  · simp

theorem Built.push (h : Built m head out t) (hnodup : (head :: (out ++ [a])).Nodup) :
    Built ((m.setNext t a).setPrev a t) head (out ++ [a]) a := by
  rw [← List.cons_append] at hnodup
  obtain ⟨hout, -, hdisj⟩ := List.nodup_append'.mp hnodup
  have ha : a ∉ head :: out := fun hmem => hdisj hmem (List.mem_singleton_self a)
  refine .of_linked (h.link hout (by simp) (by simp) (fun z _ hz => ?_) (fun z hz => ?_))
  · rw [Links.setPrev_next, Links.setNext_next_of_ne hz]
  · have hne : z ≠ a := fun he => ha (he ▸ List.mem_cons_of_mem _ hz)
    rw [Links.setPrev_prev_of_ne hne, Links.setNext_prev]

theorem push_ends {l : List Nat} {q : Nat} (hl : m.Ends NULL q l) (ht : t ∉ l) (p : Nat) :
    ((m.setNext t p).setPrev p t).Ends NULL q l := by
  refine hl.congr fun x hx => ?_
  rw [Links.setPrev_next, Links.setNext_next_of_ne fun he : x = t => ht (he ▸ hx)]

theorem mergeBackLoop_spec (cmp : Links Nat → Nat → Nat → Int) (c : Nat → Nat → Int)
    (ha : m.Ends NULL a la) (hb : m.Ends NULL b lb) (hne : la ++ lb ≠ []) (hnodup : (head :: (out ++ (la ++ lb))).Nodup) (hbuilt : Built m head out t)
    (hn : la.length + lb.length < n) :
    ∃ t' m' out' r l, mergeBackLoop cmp n t a b m = some (t', m') ∧ Built m' head out' t' ∧
      m'.Ends NULL (m'.next t') r ∧ r ≠ [] ∧ out' ++ r = out ++ l ∧ Merges cmp c la lb l ∧
      Links.Within m m' (head :: (out ++ (la ++ lb))) := by
  induction n generalizing m t out a b la lb with
  | zero => omega
  | succ n ih =>
    have hsplit : ((head :: out) ++ (la ++ lb)).Nodup := hnodup
    obtain ⟨hout, -, hdisj⟩ := List.nodup_append'.mp hsplit
    have hta : t ∉ la := fun h => hdisj hbuilt.mem (List.mem_append_left lb h)
    have htb : t ∉ lb := fun h => hdisj hbuilt.mem (List.mem_append_right la h)
    have htin : t ∈ head :: (out ++ (la ++ lb)) := List.mem_append_left (la ++ lb) hbuilt.mem
    rw [mergeBackLoop]
    by_cases hab : a ≠ NULL ∧ b ≠ NULL
    · rw [if_pos hab]
      obtain ⟨la', rfl, ha'⟩ := ha.exists_cons hab.1
      obtain ⟨lb', rfl, hb'⟩ := hb.exists_cons hab.2
      have hlen : la'.length + lb'.length + 1 < n := by
        simp only [List.length_cons] at hn
        omega
      by_cases hc : cmp m a b ≤ 0
      · rw [if_pos hc]
        have hrest : (head :: (out ++ [a] ++ (la' ++ b :: lb'))).Nodup := by simpa using hnodup
        have hpush : (head :: (out ++ [a])).Nodup := (List.nodup_append'.mp hrest).1
        have hat : a ≠ t := fun he => hta (he ▸ List.mem_cons_self)
        have ha₁ := push_ends ha' (fun h => hta (List.mem_cons_of_mem a h)) a
        have hnext : ((m.setNext t a).setPrev a t).next a = m.next a := by simp [hat]
        rw [← hnext] at ha₁
        obtain ⟨t', m', out', r, l, he, hb', hr, hrne, heq, hl, hw⟩ := ih ha₁ (push_ends hb htb a)
          (by simp) hrest (hbuilt.push hpush) (by rw [List.length_cons]; omega)
        refine ⟨t', m', out', r, a :: l, he, hb', hr, hrne, by simpa using heq, hl.cons_left hc, ?_⟩
        have hw₀ : m.Within ((m.setNext t a).setPrev a t) _ := Links.within_join htin (by simp)
        exact hw₀.trans (by simpa using hw)
      · rw [if_neg hc]
        have hperm : (head :: (out ++ (a :: la' ++ b :: lb'))).Perm
            (head :: (out ++ [b] ++ (a :: la' ++ lb'))) := by
          rw [List.append_assoc]
          exact (List.perm_middle.append_left out).cons head
        have hrest := hperm.nodup_iff.mp hnodup
        have hpush : (head :: (out ++ [b])).Nodup := (List.nodup_append'.mp hrest).1
        have hbt : b ≠ t := fun he => htb (he ▸ List.mem_cons_self)
        have hb₁ := push_ends hb' (fun h => htb (List.mem_cons_of_mem b h)) b
        have hnext : ((m.setNext t b).setPrev b t).next b = m.next b := by simp [hbt]
        rw [← hnext] at hb₁
        obtain ⟨t', m', out', r, l, he, hb', hr, hrne, heq, hl, hw⟩ := ih (push_ends ha hta b) hb₁
          (by simp) hrest (hbuilt.push hpush) (by rw [List.length_cons]; omega)
        refine ⟨t', m', out', r, b :: l, he, hb', hr, hrne, by simpa using heq, hl.cons_right hc, ?_⟩
        exact (Links.within_join (b := b) htin (by simp)).trans (hw.mono hperm.symm.subset)
    · rw [if_neg hab]
      have hlast : ∃ l, m.Ends NULL (if a ≠ NULL then a else b) l ∧ Merges cmp c la lb l ∧ l ≠ [] ∧
          t ∉ l := by
        by_cases hnulla : a = NULL
        · rw [hnulla] at ha
          obtain rfl := Links.ends_null ha
          rw [if_neg (not_not.mpr hnulla)]
          exact ⟨lb, hb, .nil_left lb, hne, htb⟩
        · have hnullb : b = NULL := not_not.mp fun h => hab ⟨hnulla, h⟩
          rw [hnullb] at hb
          obtain rfl := Links.ends_null hb
          rw [if_pos hnulla]
          exact ⟨la, ha, .nil_right la, by simpa using hne, hta⟩
      obtain ⟨l, hl, hmerge, hlne, htl⟩ := hlast
      refine ⟨t, _, out, l, l, rfl, ?_, ?_, hlne, rfl, hmerge, fun x hx => ?_⟩
      · rcases hbuilt with hnil | ⟨o, rfl, ho⟩
        · exact .inl hnil
        · refine .inr ⟨o, rfl, ho.congr (fun z hz => ?_) (fun _ _ => rfl)⟩
          apply Links.setNext_next_of_ne
          rintro rfl
          rw [← List.cons_append] at hout
          exact List.disjoint_of_nodup_append hout hz (List.mem_singleton_self z)
      · rw [Links.setNext_next_self]
        refine hl.congr fun x hx => Links.setNext_next_of_ne fun he => htl (he ▸ hx)
      · exact ⟨Links.setNext_next_of_ne fun he => hx (he ▸ htin), rfl⟩

theorem backLoop_spec (hbuilt : Built m head out t) (hr : m.Ends NULL (m.next t) r) (hne : r ≠ [])
    (hnodup : (head :: (out ++ r)).Nodup) (hn : r.length ≤ n) :
    ∃ t' m', backLoop n t m = some (t', m') ∧ Built m' head (out ++ r) t' ∧
      Links.Within m m' (head :: (out ++ r)) := by
  induction n generalizing m t out r with
  | zero => exact absurd (List.length_eq_zero_iff.mp (Nat.le_zero.mp hn)) hne
  | succ n ih =>
    obtain ⟨x, r', rfl⟩ := List.exists_cons_of_ne_nil hne
    obtain ⟨hx, -, hr'⟩ := Links.ends_cons.mp hr
    have hrest : (head :: (out ++ [x] ++ r')).Nodup := by simpa using hnodup
    have hsplit : (head :: out ++ x :: r').Nodup := hnodup
    obtain ⟨hout, -, hdisj⟩ := List.nodup_append'.mp hsplit
    have hxout : x ∉ head :: out := fun h => hdisj h List.mem_cons_self
    have hbuilt' : Built (m.setPrev x t) head (out ++ [x]) x := by
      refine .of_linked (hbuilt.link hout hx Links.setPrev_prev_self (fun _ _ _ => rfl) fun z hz => ?_)
      exact Links.setPrev_prev_of_ne fun he : z = x => hxout (he ▸ List.mem_cons_of_mem _ hz)
    have hw : Links.Within m (m.setPrev x t) (head :: (out ++ x :: r')) := by
      refine fun z hz => ⟨rfl, Links.setPrev_prev_of_ne fun he : z = x => hz ?_⟩
      simp [he]
    have hends : (m.setPrev x t).Ends NULL ((m.setPrev x t).next x) r' := hr'.congr fun _ _ => rfl
    rw [backLoop, hx, Links.setPrev_next, hx]
    by_cases hnull : m.next x = NULL
    · rw [if_neg (not_not.mpr hnull)]
      rw [hnull] at hr'
      obtain rfl := Links.ends_null hr'
      exact ⟨x, _, rfl, hbuilt', hw⟩
    · rw [if_pos hnull]
      have hne' : r' ≠ [] := by
        rintro rfl
        exact hnull hr'.reaches
      obtain ⟨t', m', he, hb, hw'⟩ := ih hbuilt' hends hne' hrest
        (Nat.le_of_succ_le_succ hn)
      refine ⟨t', m', he, by simpa using hb, hw.trans ?_⟩
      simpa using hw'

theorem Built.close (h : Built m head out t) (hnodup : (head :: out).Nodup) :
    ((m.setNext t head).setPrev head t).Ring head out := by
  refine ⟨h.link hnodup (by simp) (by simp) (fun z _ hz => ?_) (fun z hz => ?_), hnodup⟩
  · rw [Links.setPrev_next, Links.setNext_next_of_ne hz]
  · have hzh : z ≠ head := fun he => (List.nodup_cons.mp hnodup).1 (he ▸ hz)
    rw [Links.setPrev_prev_of_ne hzh, Links.setNext_prev]

theorem mergeAndRestoreBackLinks_spec (cmp : Links Nat → Nat → Nat → Int) (c : Nat → Nat → Int)
    (ha : m.Ends NULL a la) (hb : m.Ends NULL b lb) (hne : la ++ lb ≠ [])
    (hnodup : (head :: (la ++ lb)).Nodup) (hn : la.length + lb.length < n) :
    ∃ m' l, mergeAndRestoreBackLinks cmp n head a b m = some m' ∧ m'.Ring head l ∧ Merges cmp c la lb l ∧
      Links.Within m m' (head :: (la ++ lb)) := by
  obtain ⟨t, m₁, out, r, l, h₁, hbuilt, hr, hrne, heq, hl, hw₁⟩ :=
    mergeBackLoop_spec cmp c ha hb hne (show (head :: ([] ++ (la ++ lb))).Nodup from hnodup)
      (.inl ⟨rfl, rfl⟩) hn
  rw [List.nil_append] at heq hw₁
  have hperm : (out ++ r).Perm (la ++ lb) := by
    rw [heq]
    exact hl.perm
  have hnodup' : (head :: (out ++ r)).Nodup := (hperm.cons head).nodup_iff.mpr hnodup
  have hlen : r.length ≤ n := by
    have hsum := hperm.length_eq
    simp only [List.length_append] at hsum
    omega
  obtain ⟨t', m₂, h₂, hbuilt', hw₂⟩ := backLoop_spec hbuilt hr hrne hnodup' hlen
  refine ⟨(m₂.setNext t' head).setPrev head t', l, ?_, ?_, hl, ?_⟩
  · simp only [mergeAndRestoreBackLinks, h₁, h₂, Option.bind_eq_bind, Option.bind_some]
  · rw [← heq]
    exact hbuilt'.close hnodup'
  · have hw₃ := Links.within_join (m := m₂) hbuilt'.mem List.mem_cons_self
    exact hw₁.trans ((hw₂.trans hw₃).mono (hperm.cons head).subset)

variable {part part' : Nat → Nat} {lev cur k maxLev list : Nat} {curl l : List Nat}
  {parts : List (List Nat)}

def PartsAt (m : Links Nat) (part : Nat → Nat) : Nat → List (List Nat) → Prop
  | lev, [] => ∀ i ≥ lev, part i = NULL
  | lev, p :: parts => m.Ends NULL (part lev) p ∧ PartsAt m part (lev + 1) parts

theorem PartsAt.congr (h : PartsAt m part lev parts) (hpart : ∀ i ≥ lev, part' i = part i)
    (hnext : ∀ x ∈ parts.flatten, m'.next x = m.next x) : PartsAt m' part' lev parts := by
  induction parts generalizing lev with
  | nil => exact fun i hi => (hpart i hi).trans (h i hi)
  | cons p parts ih =>
    refine ⟨?_, ih h.2 (fun i hi => hpart i (by omega)) fun x hx => hnext x ?_⟩
    · rw [hpart lev le_rfl]
      exact h.1.congr fun x hx => hnext x (List.mem_append_left _ hx)
    · exact List.mem_append_right _ hx

theorem PartsAt.set {p : Nat} {pl : List Nat} (hp : m.Ends NULL p pl)
    (h : PartsAt m part (lev + 1) parts) : PartsAt m (Function.update part lev p) lev (pl :: parts) := by
  refine ⟨?_, h.congr (fun i hi => Function.update_of_ne (by omega) ..) fun _ _ => rfl⟩
  rwa [Function.update_self]

theorem PartsAt.drop (h : PartsAt m part lev []) : PartsAt m part (lev + 1) [] :=
  fun i hi => h i (by omega)

theorem keepPart_below (h : lev ≤ maxLev) :
    keepPart ⟨part, maxLev⟩ lev cur = ⟨Function.update part lev cur, maxLev⟩ :=
  if_neg (Nat.not_lt.mpr h)

theorem keepPart_new (h : maxLev < lev) (hlev : lev < maxListLengthBits) :
    keepPart ⟨part, maxLev⟩ lev cur = ⟨Function.update part lev cur, lev⟩ := by
  rw [keepPart, if_pos h, if_neg (Nat.not_le.mpr hlev)]

theorem keepPart_last (h : maxLev < lev + 1) (hlev : lev + 1 = maxListLengthBits) :
    keepPart ⟨part, maxLev⟩ (lev + 1) cur = ⟨Function.update part lev cur, lev⟩ := by
  rw [keepPart, if_pos h, if_pos hlev.ge]
  rfl

theorem addPart_last (hp : l ≠ []) (hlev : lev + 1 = maxListLengthBits) :
    addPart c lev (l :: parts) curl = mergeBy c l curl :: parts := by
  rw [addPart, if_neg (by simpa using hp), if_pos hlev]

theorem addPart_carry (hp : l ≠ []) (hlev : lev + 1 ≠ maxListLengthBits) :
    addPart c lev (l :: parts) curl = [] :: addPart c (lev + 1) parts (mergeBy c l curl) := by
  rw [addPart, if_neg (by simpa using hp), if_neg hlev]

structure Adds (cmp : Links Nat → Nat → Nat → Int) (c : Nat → Nat → Int) (lev : Nat)
    (parts : List (List Nat)) (curl : List Nat) (parts' : List (List Nat)) : Prop where
  perm : parts'.flatten.Perm (curl ++ parts.flatten)
  length : lev + parts'.length ≤ maxListLengthBits
  eq : Steady cmp c (curl ++ parts.flatten) → parts' = addPart c lev parts curl

theorem Adds.nil (hlev : lev < maxListLengthBits) : Adds cmp c lev [] curl [curl] :=
  ⟨.refl _, hlev, fun _ => rfl⟩

theorem Adds.empty (hlen : lev + ([] :: parts).length ≤ maxListLengthBits) :
    Adds cmp c lev ([] :: parts) curl (curl :: parts) := ⟨.refl _, hlen, fun _ => rfl⟩

theorem perm_flatten_cons (p curl : List Nat) (parts : List (List Nat)) :
    (p ++ curl ++ parts.flatten).Perm (curl ++ (p :: parts).flatten) := by
  rw [List.flatten_cons, ← List.append_assoc]
  exact List.perm_append_comm.append_right _

theorem Steady.merges {p curl l' : List Nat} (hs : Steady cmp c (curl ++ (p :: parts).flatten))
    (h : Merges cmp c p curl l') : l' = mergeBy c p curl :=
  h.eq (hs.mono fun _ hx => (perm_flatten_cons p curl parts).subset (List.mem_append_left _ hx))

theorem Adds.last {p l' : List Nat} (hp : p ≠ []) (hlev : lev + 1 = maxListLengthBits)
    (h : Merges cmp c p curl l') : Adds cmp c lev [p] curl [l'] where
  perm := by
    rw [List.flatten_singleton]
    simpa using h.perm.trans List.perm_append_comm
  length := hlev.le
  eq hs := by rw [addPart_last hp hlev, hs.merges h]

theorem Adds.carry {p l' : List Nat} {parts' : List (List Nat)} (hp : p ≠ [])
    (hlev : lev + 1 ≠ maxListLengthBits) (h : Merges cmp c p curl l')
    (ha : Adds cmp c (lev + 1) parts l' parts') : Adds cmp c lev (p :: parts) curl ([] :: parts') where
  perm := ha.perm.trans ((h.perm.append_right _).trans (perm_flatten_cons p curl parts))
  length := by
    have hlen := ha.length
    rw [List.length_cons]
    omega
  eq hs := by
    have hrest : l' ++ parts.flatten ⊆ curl ++ (p :: parts).flatten :=
      ((h.perm.append_right _).trans (perm_flatten_cons p curl parts)).subset
    rw [addPart_carry hp hlev, ha.eq (hs.mono hrest), hs.merges h]

theorem levLoop_null (hk : 0 < k) (hlev : lev ≤ maxListLengthBits) (hnull : part lev = NULL) :
    levLoop cmp n k lev part cur m = some (lev, part, cur, m) := by
  obtain ⟨k, rfl⟩ := Nat.exists_eq_succ_of_ne_zero hk.ne'
  rw [levLoop, if_neg (Nat.not_lt.mpr hlev), if_neg (not_not.mpr hnull)]

theorem levLoop_spec (cmp : Links Nat → Nat → Nat → Int) (c : Nat → Nat → Int)
    (hparts : PartsAt m part lev parts) (hcur : m.Ends NULL cur curl)
    (hnodup : (curl ++ parts.flatten).Nodup) (hlev : lev < maxListLengthBits)
    (hlen : lev + parts.length ≤ maxListLengthBits)
    (hmax : maxLev + 1 = lev + parts.length ∨ parts = [] ∧ lev = 0 ∧ maxLev = 0)
    (hn : (curl ++ parts.flatten).length < n) (hk : parts.length + 1 < k) :
    ∃ lev' part' cur' m' parts', levLoop cmp n k lev part cur m = some (lev', part', cur', m') ∧
      PartsAt m' (keepPart ⟨part', maxLev⟩ lev' cur').part lev parts' ∧
      (keepPart ⟨part', maxLev⟩ lev' cur').maxLev + 1 = lev + parts'.length ∧
      (∀ i < lev, (keepPart ⟨part', maxLev⟩ lev' cur').part i = part i) ∧ Adds cmp c lev parts curl parts' ∧
      (∀ x ∉ curl ++ parts.flatten, m'.next x = m.next x) ∧ m'.prev = m.prev := by
  induction parts generalizing lev part cur curl m k with
  | nil =>
    have hkeep : keepPart ⟨part, maxLev⟩ lev cur = ⟨Function.update part lev cur, lev⟩ := by
      rcases hmax with hmax | ⟨-, rfl, rfl⟩
      · exact keepPart_new (by rw [List.length_nil] at hmax; omega) hlev
      · exact keepPart_below (Nat.le_refl 0)
    refine ⟨lev, part, cur, m, [curl], levLoop_null (by omega) hlev.le (hparts lev (Nat.le_refl lev)), ?_⟩
    rw [hkeep]
    exact ⟨hparts.drop.set hcur, rfl, fun i hi => Function.update_of_ne (by omega) .., .nil hlev,
      fun _ _ => rfl, rfl⟩
  | cons p parts ih =>
    obtain ⟨hp, hrest⟩ := hparts
    have htop : maxLev = lev + parts.length := by
      rcases hmax with hmax | ⟨hnil, -⟩
      · rw [List.length_cons] at hmax
        omega
      · cases hnil
    by_cases hempty : p = []
    · subst hempty
      refine ⟨lev, part, cur, m, curl :: parts, levLoop_null (by omega) hlev.le hp.reaches, ?_⟩
      rw [keepPart_below (by omega)]
      refine ⟨hrest.set hcur, ?_, fun i hi => Function.update_of_ne (by omega) .., .empty hlen,
        fun _ _ => rfl, rfl⟩
      rw [List.length_cons, htop, Nat.add_assoc]
    · obtain ⟨k, rfl⟩ := Nat.exists_eq_succ_of_ne_zero (show k ≠ 0 by omega)
      have hperm := perm_flatten_cons p curl parts
      obtain ⟨hpc, -, hdisj⟩ := List.nodup_append'.mp (hperm.nodup_iff.mpr hnodup)
      have hlen' := hperm.length_eq
      simp only [List.length_append] at hlen' hn
      obtain ⟨cur₁, m₁, l', hmerge, hcur₁, hl', hnext, hprev⟩ :=
        merge_spec cmp c hp hcur hpc (show p.length + curl.length < n by omega)
      have hrest₁ : PartsAt m₁ (Function.update part lev NULL) (lev + 1) parts :=
        hrest.congr (fun i hi => Function.update_of_ne (by omega) ..)
          fun x hx => hnext x fun h => hdisj h hx
      have hstep : levLoop cmp n (k + 1) lev part cur m =
          levLoop cmp n k (lev + 1) (Function.update part lev NULL) cur₁ m₁ := by
        rw [levLoop, if_neg (by omega), if_pos (hp.ne_null hempty), hmerge]
        rfl
      have hframe : ∀ x ∉ curl ++ (p :: parts).flatten, m₁.next x = m.next x :=
        fun x hx => hnext x fun h => hx (hperm.subset (List.mem_append_left _ h))
      by_cases hlast : lev + 1 = maxListLengthBits
      · have hnil : parts = [] := by
          rw [← List.length_eq_zero_iff]
          rw [List.length_cons] at hlen
          omega
        subst hnil
        refine ⟨lev + 1, Function.update part lev NULL, cur₁, m₁, [l'], ?_, ?_⟩
        · rw [hstep]
          exact levLoop_null (by omega) hlast.le (hrest₁ (lev + 1) le_rfl)
        · rw [keepPart_last (by simp at htop; omega) hlast]
          refine ⟨hrest₁.set hcur₁, rfl, fun i hi => ?_, .last hempty hlast hl', hframe, hprev⟩
          simp [Function.update_of_ne hi.ne]
      · have hmerged : (l' ++ parts.flatten).Perm (curl ++ (p :: parts).flatten) :=
          (hl'.perm.append_right _).trans hperm
        have hlen₁ := hmerged.length_eq
        simp only [List.length_append] at hlen₁
        obtain ⟨lev', part', cur', m', parts', he, hp', hml, hbelow, hadds, hnext', hprev'⟩ :=
          ih (k := k) hrest₁ hcur₁ (hmerged.nodup_iff.mpr hnodup) (by omega)
            (by rw [List.length_cons] at hlen; omega) (.inl (by omega))
            (by rw [List.length_append]; omega) (by rw [List.length_cons] at hk; omega)
        refine ⟨lev', part', cur', m', [] :: parts', hstep.trans he, ⟨?_, hp'⟩, ?_, fun i hi => ?_,
          .carry hempty hlast hl' hadds, fun x hx => ?_, hprev'.trans hprev⟩
        · rw [hbelow lev (Nat.lt_succ_self lev), Function.update_self]
          exact Links.ends_nil
        · rw [hml, List.length_cons]
          omega
        · rw [hbelow i (by omega), Function.update_of_ne hi.ne]
        · rw [hnext' x fun h => hx (hmerged.mem_iff.mp h), hframe x hx]

structure Holds (m : Links Nat) (s : Sorting) (parts : List (List Nat)) : Prop where
  held : PartsAt m s.part 0 parts
  length : parts.length ≤ maxListLengthBits
  maxLev : s.maxLev + 1 = parts.length ∨ parts = [] ∧ s.maxLev = 0

theorem addNode_spec {s : Sorting} (cmp : Links Nat → Nat → Nat → Int) (c : Nat → Nat → Int)
    (hs : Holds m s parts) (hcur : m.Ends NULL cur curl) (hnodup : (curl ++ parts.flatten).Nodup)
    (hn : (curl ++ parts.flatten).length + 21 < n) :
    ∃ s' m' parts', addNode cmp n 0 cur s m = some (s', m') ∧ Holds m' s' parts' ∧
      Adds cmp c 0 parts curl parts' ∧
      (∀ x ∉ curl ++ parts.flatten, m'.next x = m.next x) ∧ m'.prev = m.prev := by
  have hlen : 0 + parts.length ≤ maxListLengthBits := by
    rw [Nat.zero_add]
    exact hs.length
  have hmax : s.maxLev + 1 = 0 + parts.length ∨ parts = [] ∧ 0 = 0 ∧ s.maxLev = 0 := by
    rw [Nat.zero_add]
    exact hs.maxLev.imp_right fun h => ⟨h.1, rfl, h.2⟩
  have hk : parts.length + 1 < n := by
    rw [maxListLengthBits] at hlen
    omega
  obtain ⟨lev, part, cur', m', parts', he, hp, hml, -, hadds, hnext, hprev⟩ :=
    levLoop_spec (n := n) cmp c hs.held hcur hnodup (by decide) hlen hmax (by omega) hk
  have hlen' := hadds.length
  rw [Nat.zero_add] at hlen' hml
  refine ⟨keepPart ⟨part, s.maxLev⟩ lev cur', m', parts', ?_, ⟨hp, hlen', .inl hml⟩, hadds, hnext, hprev⟩
  simp only [addNode, he, Option.bind_eq_bind, Option.bind_some]

theorem nodeLoop_spec {s : Sorting} (cmp : Links Nat → Nat → Nat → Int) (c : Nat → Nat → Int)
    (hs : Holds m s parts) (hl : m.Ends NULL list l) (hnodup : (l ++ parts.flatten).Nodup)
    (hn : (l ++ parts.flatten).length + 21 < n) (hk : l.length < k) :
    ∃ s' m' parts', nodeLoop cmp n k list s m = some (s', m') ∧ Holds m' s' parts' ∧
      parts'.flatten.Perm (l ++ parts.flatten) ∧
      (Steady cmp c (l ++ parts.flatten) → parts' = l.foldl (fun parts x => addPart c 0 parts [x]) parts) ∧
      (∀ x ∉ l ++ parts.flatten, m'.next x = m.next x) ∧ m'.prev = m.prev := by
  induction l generalizing m s list parts k with
  | nil =>
    obtain ⟨k, rfl⟩ := Nat.exists_eq_succ_of_ne_zero (show k ≠ 0 by omega)
    refine ⟨s, m, parts, ?_, hs, .refl _, fun _ => rfl, fun _ _ => rfl, rfl⟩
    have hnull : list = NULL := hl.reaches
    rw [nodeLoop, if_neg (not_not.mpr hnull)]
  | cons x l ih =>
    obtain ⟨k, rfl⟩ := Nat.exists_eq_succ_of_ne_zero (show k ≠ 0 by omega)
    obtain ⟨rfl, hx, hl'⟩ := Links.ends_cons.mp hl
    have hxl : list ∉ l ++ parts.flatten := (List.nodup_cons.mp hnodup).1
    have hnode : (m.setNext list NULL).Ends NULL list [list] :=
      ⟨⟨rfl, Links.setNext_next_self⟩, by simpa using hx.symm⟩
    have hkeep : ∀ y ∈ l ++ parts.flatten, (m.setNext list NULL).next y = m.next y :=
      fun y hy => Links.setNext_next_of_ne fun he => hxl (he ▸ hy)
    have hs₁ : Holds (m.setNext list NULL) s parts :=
      ⟨hs.held.congr (fun _ _ => rfl) fun y hy => hkeep y (List.mem_append_right l hy), hs.length, hs.maxLev⟩
    have hperm : (l ++ ([list] ++ parts.flatten)).Perm (list :: (l ++ parts.flatten)) := List.perm_middle
    obtain ⟨-, hcur, hdisj⟩ := List.nodup_append'.mp (hperm.nodup_iff.mpr hnodup)
    have hlen := hperm.length_eq
    simp only [List.length_append, List.length_cons] at hlen hn hk
    obtain ⟨s', m', parts', he, hs', hadds, hnext, hprev⟩ := addNode_spec (n := n) cmp c hs₁ hnode hcur
      (by simp only [List.length_append, List.length_cons]; omega)
    have hadd : (l ++ parts'.flatten).Perm (list :: (l ++ parts.flatten)) :=
      (hadds.perm.append_left l).trans hperm
    have hl₁ : m'.Ends NULL (m.next list) l := by
      refine hl'.congr fun y hy => ?_
      rw [hnext y fun h => hdisj hy h]
      exact hkeep y (List.mem_append_left _ hy)
    have hlen₁ := hadd.length_eq
    simp only [List.length_append, List.length_cons] at hlen₁
    obtain ⟨s'', m'', parts'', he', hs'', hperm', heq, hnext', hprev'⟩ := ih hs' hl₁
      (hadd.nodup_iff.mpr hnodup) (by simp only [List.length_append]; omega) (by omega : l.length < k)
    refine ⟨s'', m'', parts'', ?_, hs'', hperm'.trans hadd, fun hsteady => ?_, fun y hy => ?_,
      hprev'.trans hprev⟩
    · rw [nodeLoop, if_pos hx]
      simp only [he, Option.bind_eq_bind, Option.bind_some, he']
    · have hsub : [list] ++ parts.flatten ⊆ list :: l ++ parts.flatten :=
        fun y hy => hperm.subset (List.mem_append_right l hy)
      rw [heq (hsteady.mono hadd.subset), hadds.eq (hsteady.mono hsub), List.foldl_cons]
    · have hy' : y ∉ list :: (l ++ parts.flatten) := hy
      rw [hnext' y fun h => hy' (hadd.mem_iff.mp h),
        hnext y fun h => hy' (hperm.mem_iff.mp (List.mem_append_right l h))]
      exact Links.setNext_next_of_ne fun he => hy' (he ▸ List.mem_cons_self)

theorem mergeParts_concat (front : List (List Nat)) :
    mergeParts c (front ++ [la]) l = mergeBy c la (mergeParts c front l) := by
  induction front generalizing l with
  | nil => rfl
  | cons p front ih => exact ih

theorem partLoop_spec {front : List (List Nat)} (cmp : Links Nat → Nat → Nat → Int) (c : Nat → Nat → Int)
    (hparts : PartsAt m part lev (front ++ parts)) (hl : m.Ends NULL list l)
    (hnodup : (l ++ (front ++ parts).flatten).Nodup)
    (hn : (l ++ (front ++ parts).flatten).length < n) :
    ∃ list' m' l', partLoop cmp n part front.length lev list m = some (list', m') ∧
      m'.Ends NULL list' l' ∧ l'.Perm (l ++ front.flatten) ∧
      (Steady cmp c (l ++ front.flatten) → l' = mergeParts c front l) ∧
      PartsAt m' part (lev + front.length) parts ∧
      (∀ x ∉ l ++ (front ++ parts).flatten, m'.next x = m.next x) ∧ m'.prev = m.prev := by
  induction front generalizing m lev list l with
  | nil =>
    exact ⟨list, m, l, rfl, hl, by simp, fun _ => rfl, hparts, fun _ _ => rfl, rfl⟩
  | cons p front ih =>
    obtain ⟨hp, hrest⟩ := hparts
    have hlevs : lev + (p :: front).length = lev + 1 + front.length := by
      rw [List.length_cons]
      omega
    rw [List.cons_append] at hnodup hn ⊢
    rw [hlevs]
    by_cases hempty : p = []
    · subst hempty
      obtain ⟨list', m', l', he, hends, hperm, heq, hparts', hnext, hprev⟩ := ih hrest hl hnodup hn
      have hnull : part lev = NULL := hp.reaches
      refine ⟨list', m', l', ?_, hends, hperm, fun hs => ?_, hparts', hnext, hprev⟩
      · rw [List.length_cons, partLoop, if_neg (not_not.mpr hnull)]
        exact he
      · rw [mergeParts, mergeBy_nil_left, heq hs]
    · have hperm := perm_flatten_cons p l (front ++ parts)
      obtain ⟨hpl, -, hdisj⟩ := List.nodup_append'.mp (hperm.nodup_iff.mpr hnodup)
      have hlen := hperm.length_eq
      simp only [List.length_append] at hlen hn
      obtain ⟨list₁, m₁, l₁, hmerge, hends₁, hl₁, hnext₁, hprev₁⟩ :=
        merge_spec cmp c hp hl hpl (show p.length + l.length < n by omega)
      have hmerged : (l₁ ++ (front ++ parts).flatten).Perm (l ++ (p :: (front ++ parts)).flatten) :=
        (hl₁.perm.append_right _).trans hperm
      have hlow : (l₁ ++ front.flatten).Perm (l ++ (p :: front).flatten) :=
        (hl₁.perm.append_right _).trans (perm_flatten_cons p l front)
      have hlen₁ := hmerged.length_eq
      simp only [List.length_append] at hlen₁
      obtain ⟨list', m', l', he, hends, hperm', heq, hparts', hnext, hprev⟩ := ih
        (hrest.congr (fun _ _ => rfl) fun x hx => hnext₁ x fun h => hdisj h hx) hends₁
        (hmerged.nodup_iff.mpr hnodup) (by rw [List.length_append]; omega)
      refine ⟨list', m', l', ?_, hends, hperm'.trans hlow, fun hs => ?_, hparts', fun x hx => ?_,
        hprev.trans hprev₁⟩
      · rw [List.length_cons, partLoop, if_pos (hp.ne_null hempty)]
        simp only [hmerge, Option.bind_eq_bind, Option.bind_some]
        exact he
      · rw [mergeParts, ← hs.merges hl₁, heq (hs.mono hlow.subset)]
      · rw [hnext x fun h => hx (hmerged.mem_iff.mp h),
          hnext₁ x fun h => hx (hperm.subset (List.mem_append_left _ h))]

theorem listSort_spec (cmp : Links Nat → Nat → Nat → Int) (c : Nat → Nat → Int) (hr : m.Ring head l)
    (hnull : NULL ∉ l) (hn : l.length + 21 < n) :
    ∃ m' l', listSort cmp n head m = some m' ∧ m'.Ring head l' ∧ l'.Perm l ∧
      (Steady cmp c l → l' = KernelHash.listSort c l) ∧ Links.Within m m' (head :: l) := by
  by_cases hne : l = []
  · subst hne
    refine ⟨m, [], ?_, hr, .refl _, fun _ => rfl, fun _ _ => ⟨rfl, rfl⟩⟩
    rw [listSort, if_pos (hr.next_eq_self_iff.mpr rfl)]
  · obtain ⟨hhead, hnodup⟩ := List.nodup_cons.mp hr.nodup
    have hstart : Holds (m.setNext (m.prev head) NULL) ⟨fun _ => NULL, 0⟩ [] :=
      ⟨fun _ _ => rfl, by simp, .inr ⟨rfl, rfl⟩⟩
    obtain ⟨s, m₁, parts, h₁, hs, hperm, hfold, hnext₁, hprev₁⟩ := nodeLoop_spec (n := n) (k := n) cmp c hstart
      (hr.cut hne hnull) (by simpa using hnodup) (by simpa using hn) (by omega)
    rw [List.flatten_nil, List.append_nil] at hperm hfold
    have hpne : parts ≠ [] := by
      rintro rfl
      exact hne (List.nil_perm.mp hperm)
    obtain ⟨front, top, rfl⟩ := (List.eq_nil_or_concat parts).resolve_left hpne
    rw [List.concat_eq_append] at hs hperm hfold
    have htop : s.maxLev = front.length := by
      have h := hs.maxLev
      simp only [List.length_append, List.length_singleton, List.append_eq_nil_iff] at h
      rcases h with h | ⟨⟨-, h⟩, -⟩
      · omega
      · cases h
    have hflat : ((front ++ [top]).flatten).Nodup := hperm.nodup_iff.mpr hnodup
    obtain ⟨list, m₂, low, h₂, hlist, hlow, hmerge, hpart, hnext₂, hprev₂⟩ :=
      partLoop_spec (n := n) cmp c hs.held Links.ends_nil (by simpa using hflat)
        (by rw [List.nil_append, hperm.length_eq]; omega)
    rw [Nat.zero_add] at hpart
    rw [List.nil_append] at hlow hmerge
    have hall : (top ++ low).Perm l := by
      refine ((hlow.append_left top).trans List.perm_append_comm).trans ?_
      simpa using hperm
    have hfront : front.flatten ⊆ l := fun x hx => hall.subset (List.mem_append_right top (hlow.symm.subset hx))
    obtain ⟨m₃, l', h₃, hring, hl', hw⟩ := mergeAndRestoreBackLinks_spec (n := n) cmp c hpart.1 hlist
      (fun h => hne (List.nil_perm.mp (h ▸ hall))) ((hall.cons head).nodup_iff.mpr hr.nodup)
      (by rw [← List.length_append, hall.length_eq]; omega)
    refine ⟨m₃, l', ?_, hring, hl'.perm.trans hall, fun hsteady => ?_, ?_⟩
    · rw [listSort, if_neg (mt hr.next_eq_self_iff.mp hne)]
      simp only [h₁, htop, h₂, h₃, Option.bind_eq_bind, Option.bind_some]
    · rw [KernelHash.listSort, ← hfold hsteady, mergeParts_concat, ← hmerge (hsteady.mono hfront),
        hl'.eq (hsteady.mono hall.subset)]
    · refine Links.Within.trans (fun x hx => ?_) (hw.mono (hall.cons head).subset)
      obtain ⟨-, hxl⟩ := not_or.mp (mt List.mem_cons.mpr hx)
      have hxprev : x ≠ m.prev head := fun he => hxl (he ▸ hr.prev_mem hne)
      have hx₁ : x ∉ l ++ ([] : List (List Nat)).flatten := by simpa using hxl
      have hx₂ : x ∉ [] ++ (front ++ [top]).flatten := fun h => hxl (hperm.mem_iff.mp h)
      rw [hnext₂ x hx₂, hnext₁ x hx₁, hprev₂, hprev₁, Links.setNext_next_of_ne hxprev]
      exact ⟨rfl, rfl⟩

/-- On the nodes in memory, `list_sort` ends for every comparison, leaves a list that is linked both
ways, with the nodes in the order of the sort on lists, and writes no other node. -/
theorem list_sort_links (cmp : Nat → Nat → Int) (m : Links Nat) (head : Nat) (l : List Nat)
    (hr : m.Ring head l) (hnull : NULL ∉ l) (n : Nat) (hn : l.length + 21 < n) :
    ∃ m' l', listSort (fun _ => cmp) n head m = some m' ∧ m'.Ring head l' ∧ l'.Perm l ∧
      l' = KernelHash.listSort cmp l ∧
      (TotalPreorder cmp l → ∀ x y, [x, y].Sublist l' ↔ Ahead cmp l x y) ∧
      ∀ x ∉ head :: l, m'.next x = m.next x ∧ m'.prev x = m.prev x := by
  obtain ⟨m', l', he, hring, -, hl', hw⟩ := listSort_spec (fun _ => cmp) cmp hr hnull hn
  obtain rfl := hl' fun _ _ _ _ _ => rfl
  refine ⟨m', _, he, hring, listSort_perm, rfl, fun hp x y => ?_, hw⟩
  exact pair_listSort_iff (List.nodup_cons.mp hr.nodup).2 hp

def sampleLinks : Links Nat where
  next x := if x = 8 then 32 else if x = 32 then 48 else if x = 48 then 16 else 8
  prev x := if x = 8 then 16 else if x = 16 then 48 else if x = 48 then 32 else 8

theorem list_sort_links_three :
    ∃ m', listSort (fun _ (x y : Nat) => (x : Int) - (y : Int)) 25 8 sampleLinks = some m' ∧
      m'.Ring 8 [16, 32, 48] := by
  have hr : sampleLinks.Ring 8 [32, 48, 16] :=
    ⟨⟨rfl, rfl, rfl, rfl, rfl, rfl, rfl, rfl⟩, by decide⟩
  obtain ⟨m', l', he, hring, -, hl', -⟩ := list_sort_links (fun x y : Nat => (x : Int) - (y : Int))
    sampleLinks 8 [32, 48, 16] hr (by decide) 25 (by decide)
  have hsorted : KernelHash.listSort (fun x y : Nat => (x : Int) - (y : Int)) ([32, 48, 16] : List Nat) =
      [16, 32, 48] := by
    simp [KernelHash.listSort, addPart, mergeParts, mergeBy, maxListLengthBits]
  rw [hl', hsorted] at hring
  exact ⟨m', he, hring⟩

end Wspack.KernelHash.Nodes
