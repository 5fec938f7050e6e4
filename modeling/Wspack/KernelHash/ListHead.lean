import Wspack.Lib.Rings

namespace Wspack.KernelHash.ListHead

open Function (update)
open Lib

def poison1 : Nat := 0x00100100

def poison2 : Nat := 0x00200200

def initListHead (ptr : Nat) (m : Links Nat) : Links Nat := (m.setNext ptr ptr).setPrev ptr ptr

def rawListAdd (new prev next : Nat) (m : Links Nat) : Links Nat :=
  (((m.setPrev next new).setNext new next).setPrev new prev).setNext prev new

def listAdd (new head : Nat) (m : Links Nat) : Links Nat := rawListAdd new head (m.next head) m

def listAddTail (new head : Nat) (m : Links Nat) : Links Nat := rawListAdd new (m.prev head) head m

def rawListDel (prev next : Nat) (m : Links Nat) : Links Nat := (m.setPrev next prev).setNext prev next

def listDel (entry : Nat) (m : Links Nat) : Links Nat :=
  ((rawListDel (m.prev entry) (m.next entry) m).setNext entry poison1).setPrev entry poison2

def listDelInit (entry : Nat) (m : Links Nat) : Links Nat :=
  initListHead entry (rawListDel (m.prev entry) (m.next entry) m)

def listMove (list head : Nat) (m : Links Nat) : Links Nat :=
  listAdd list head (rawListDel (m.prev list) (m.next list) m)

def listMoveTail (list head : Nat) (m : Links Nat) : Links Nat :=
  listAddTail list head (rawListDel (m.prev list) (m.next list) m)

def listEmpty (head : Nat) (m : Links Nat) : Bool := m.next head == head

def rawListSplice (list head : Nat) (m : Links Nat) : Links Nat :=
  let first := m.next list
  let last := m.prev list
  let at_ := m.next head
  (((m.setPrev first head).setNext head first).setNext last at_).setPrev at_ last

def listSplice (list head : Nat) (m : Links Nat) : Links Nat :=
  if listEmpty list m then m else rawListSplice list head m

def listSpliceInit (list head : Nat) (m : Links Nat) : Links Nat :=
  if listEmpty list m then m else initListHead list (rawListSplice list head m)

def listForEach (head : Nat) (m : Links Nat) : (n pos : Nat) → Option (List Nat)
  | 0, _ => none
  | n + 1, pos => if pos = head then some [] else (listForEach head m n (m.next pos)).map (pos :: ·)

def listForEachPrev (head : Nat) (m : Links Nat) : (n pos : Nat) → Option (List Nat)
  | 0, _ => none
  | n + 1, pos => if pos = head then some [] else (listForEachPrev head m n (m.prev pos)).map (pos :: ·)

abbrev Lists := Nat → Option (List Nat)

inductive Call
  | init (ptr : Nat)
  | add (new head : Nat)
  | addTail (new head : Nat)
  | del (entry : Nat)
  | delInit (entry : Nat)
  | move (list head : Nat)
  | moveTail (list head : Nat)
  | splice (list head : Nat)
  | spliceInit (list head : Nat)

def Call.exec : Call → Links Nat → Links Nat
  | .init ptr => initListHead ptr
  | .add new head => listAdd new head
  | .addTail new head => listAddTail new head
  | .del entry => listDel entry
  | .delInit entry => listDelInit entry
  | .move list head => listMove list head
  | .moveTail list head => listMoveTail list head
  | .splice list head => listSplice list head
  | .spliceInit list head => listSpliceInit list head

def Free (lists : Lists) (x : Nat) : Prop := ∀ g k, lists g = some k → x ∉ g :: k

def Off (lists : Lists) (x : Nat) : Prop := ∀ g k, lists g = some k → x ∉ k

def execAll (cs : List Call) (m : Links Nat) : Links Nat := cs.foldl (fun m c => c.exec m) m

/-- What a call does to the lists, where its arguments are what the header asks for. -/
inductive Call.Does (lists : Lists) : Call → Lists → Prop
  | init {h : Nat} (hh : Off lists h) : Does lists (.init h) (update lists h (some []))
  | add {x h : Nat} {l : List Nat} (hx : Off lists x) (hne : x ≠ h) (hl : lists h = some l) :
      Does lists (.add x h) (update (update lists x none) h (some (x :: l)))
  | addTail {x h : Nat} {l : List Nat} (hx : Off lists x) (hne : x ≠ h) (hl : lists h = some l) :
      Does lists (.addTail x h) (update (update lists x none) h (some (l ++ [x])))
  | del {x h : Nat} {l l' : List Nat} (hl : lists h = some (l ++ x :: l')) :
      Does lists (.del x) (update lists h (some (l ++ l')))
  | delInit {x h : Nat} {l l' : List Nat} (hl : lists h = some (l ++ x :: l')) :
      Does lists (.delInit x) (update (update lists h (some (l ++ l'))) x (some []))
  | move {x g h : Nat} {l l' k : List Nat} (hl : lists g = some (l ++ x :: l'))
      (hk : update lists g (some (l ++ l')) h = some k) :
      Does lists (.move x h) (update (update lists g (some (l ++ l'))) h (some (x :: k)))
  | moveTail {x g h : Nat} {l l' k : List Nat} (hl : lists g = some (l ++ x :: l'))
      (hk : update lists g (some (l ++ l')) h = some k) :
      Does lists (.moveTail x h) (update (update lists g (some (l ++ l'))) h (some (k ++ [x])))
  | spliceNil {g h : Nat} (hg : lists g = some []) : Does lists (.splice g h) lists
  | splice {g h : Nat} {l k : List Nat} (hg : lists g = some l) (hnil : l ≠ []) (hl : lists h = some k)
      (hne : g ≠ h) : Does lists (.splice g h) (update (update lists g none) h (some (l ++ k)))
  | spliceInitNil {g h : Nat} (hg : lists g = some []) : Does lists (.spliceInit g h) lists
  | spliceInit {g h : Nat} {l k : List Nat} (hg : lists g = some l) (hnil : l ≠ [])
      (hl : lists h = some k) (hne : g ≠ h) :
      Does lists (.spliceInit g h)
        (update (update (update lists g none) h (some (l ++ k))) g (some []))

inductive Calls : Lists → List Call → Lists → Prop
  | nil (lists : Lists) : Calls lists [] lists
  | cons {lists lists' lists'' : Lists} {c : Call} {cs : List Call} :
      c.Does lists lists' → Calls lists' cs lists'' → Calls lists (c :: cs) lists''

variable {m m' : Links Nat} {lists : Lists} {h x g : Nat} {l l' k : List Nat}

theorem Free.off (hx : Free lists x) : Off lists x :=
  fun g k hg hmem => hx g k hg (List.mem_cons_of_mem g hmem)

theorem Off.free (hx : Off lists x) : Free (update lists x none) x := by
  intro g k hg hmem
  by_cases he : g = x
  · subst he
    rw [Function.update_self] at hg
    cases hg
  · rw [Function.update_of_ne he] at hg
    exact (List.mem_cons.mp hmem).elim (fun h => he h.symm) (hx g k hg)

theorem rings_write (hm : m.Rings lists) (hx : Free lists x) (hw : m.Within m' [x]) : m'.Rings lists := by
  refine ⟨fun {g k} hg => ?_, hm.apart⟩
  have hkeep : ∀ z ∈ g :: k, z ∉ [x] := fun z hz he => hx g k hg (List.mem_singleton.mp he ▸ hz)
  exact (hm.ring hg).congr (fun z hz => (hw z (hkeep z hz)).1) (fun z hz => (hw z (hkeep z hz)).2)

theorem rings_remove (hm : m.Rings lists) (hl : lists h = some (l ++ x :: l')) :
    (rawListDel (m.prev x) (m.next x) m).Rings (update lists h (some (l ++ l'))) ∧
      Free (update lists h (some (l ++ l'))) x := by
  have hr := hm.ring hl
  obtain ⟨hp, hn⟩ := hr.around
  have hsub : l ++ l' ⊆ l ++ x :: l' := ((List.sublist_cons_self x l').append_left l).subset
  constructor
  · refine hm.change hl hr.remove (Links.within_join ?_ ?_) hsub
    · exact (List.sublist_append_left (h :: l) (x :: l')).subset (List.mem_of_getLast? hp)
    · have hmem := List.mem_of_head? hn
      simp only [List.mem_append, List.mem_cons] at hmem ⊢
      tauto
  · intro g k hg hxk
    by_cases he : g = h
    · subst he
      rw [Function.update_self] at hg
      cases hg
      have hnodup : (g :: l ++ x :: l').Nodup := hr.nodup
      exact (List.nodup_cons.mp (List.perm_middle.nodup_iff.mp hnodup)).1 hxk
    · rw [Function.update_of_ne he] at hg
      exact hm.apart hl hg (Ne.symm he) (by simp) hxk

theorem rings_del (hm : m.Rings lists) (hl : lists h = some (l ++ x :: l')) :
    (listDel x m).Rings (update lists h (some (l ++ l'))) ∧ Free (update lists h (some (l ++ l'))) x := by
  obtain ⟨hrest, hfree⟩ := rings_remove hm hl
  refine ⟨rings_write hrest hfree fun z hz => ?_, hfree⟩
  rw [List.mem_singleton] at hz
  exact ⟨Links.setNext_next_of_ne hz, Links.setPrev_prev_of_ne hz⟩

theorem ring_listDel (hr : m.Ring h (x :: l)) :
    (listDel x m).Ring h l ∧ m.Within (listDel x m) (h :: x :: l) ∧ m.next x = (listDel x m).next h := by
  obtain ⟨hp, hn⟩ := Links.Ring.around (l := []) hr
  have hx : x ∉ h :: l := (List.nodup_cons.mp ((List.Perm.swap x h l).nodup_iff.mp hr.nodup)).1
  have hpoison : (m.join (m.prev x) (m.next x)).Within (listDel x m) [x] := fun z hz => by
    rw [List.mem_singleton] at hz
    exact ⟨Links.setNext_next_of_ne hz, Links.setPrev_prev_of_ne hz⟩
  have hkeep : ∀ z ∈ h :: l, z ∉ [x] := fun z hz he => hx (List.mem_singleton.mp he ▸ hz)
  have hring : (listDel x m).Ring h l := by
    refine (Links.Ring.remove (l := []) hr).congr (fun z hz => ?_) fun z hz => ?_
    · exact (hpoison z (hkeep z hz)).1
    · exact (hpoison z (hkeep z hz)).2
  refine ⟨hring, ?_, Option.some_inj.mp (hn.symm.trans hring.head?_next)⟩
  have hprev : m.prev x ∈ h :: x :: l := by
    rw [List.getLast?_singleton, Option.some_inj] at hp
    simp [← hp]
  have hnext : m.next x ∈ h :: x :: l := by
    have hmem := List.mem_of_head? hn
    simp only [List.mem_append, List.mem_cons, List.not_mem_nil, or_false] at hmem ⊢
    tauto
  exact (Links.within_join hprev hnext).trans (hpoison.mono (by simp))

theorem rings_insert (hm : m.Rings lists) (hx : Free lists x) (hl : lists h = some (l ++ l'))
    {p n : Nat} (hp : (h :: l).getLast? = some p) (hn : (l' ++ [h]).head? = some n) :
    (rawListAdd x p n m).Rings (update lists h (some (l ++ x :: l'))) := by
  have hxl : x ∉ h :: (l ++ l') := hx h _ hl
  have hpmem : p ∈ x :: h :: (l ++ l') :=
    List.mem_cons_of_mem x ((List.sublist_append_left (h :: l) l').subset (List.mem_of_getLast? hp))
  have hnmem : n ∈ x :: h :: (l ++ l') := by
    have hmem := List.mem_of_head? hn
    simp only [List.mem_append, List.mem_cons] at hmem ⊢
    tauto
  have hxmem : x ∈ x :: h :: (l ++ l') := List.mem_cons_self
  have hw : m.Within (rawListAdd x p n m) (x :: h :: (l ++ l')) :=
    (Links.within_join hxmem hnmem).trans (Links.within_join hpmem hxmem)
  have hperm : (h :: (l ++ x :: l')).Perm (x :: h :: (l ++ l')) := @List.perm_middle _ x (h :: l) l'
  refine hm.update ((hm.ring hl).insert hxl hp hn) hw fun g k hg hne => ?_
  have hdisj : (x :: h :: (l ++ l')).Disjoint (g :: k) :=
    List.disjoint_cons_left.mpr ⟨hx g k hg, hm.apart hl hg (Ne.symm hne)⟩
  exact ⟨hdisj, List.disjoint_of_subset_left hperm.subset hdisj⟩

theorem rings_add (hm : m.Rings lists) (hx : Free lists x) (hl : lists h = some l) :
    (listAdd x h m).Rings (update lists h (some (x :: l))) :=
  rings_insert (l := []) hm hx hl rfl (hm.ring hl).head?_next

theorem rings_addTail (hm : m.Rings lists) (hx : Free lists x) (hl : lists h = some l) :
    (listAddTail x h m).Rings (update lists h (some (l ++ [x]))) := by
  have hnil : lists h = some (l ++ []) := by rwa [List.append_nil]
  exact rings_insert hm hx hnil (hm.ring hl).getLast?_prev rfl

theorem rings_init (hm : m.Rings lists) (hh : Off lists h) :
    (initListHead h m).Rings (update lists h (some [])) := by
  have hr : (initListHead h m).Ring h [] :=
    ⟨⟨Links.join_next_self, Links.join_prev_self⟩, List.nodup_singleton h⟩
  have hw : m.Within (initListHead h m) [h] := Links.within_join List.mem_cons_self List.mem_cons_self
  refine hm.update hr hw fun g k hg hne => ?_
  have hdisj : [h].Disjoint (g :: k) := by
    rw [List.singleton_disjoint, List.mem_cons, not_or]
    exact ⟨Ne.symm hne, hh g k hg⟩
  exact ⟨hdisj, hdisj⟩

theorem rings_splice (hm : m.Rings lists) (hg : lists g = some l) (hl : lists h = some k) (hne : g ≠ h)
    (hnil : l ≠ []) :
    (rawListSplice g h m).Rings (update (update lists g none) h (some (l ++ k))) ∧
      Free (update (update lists g none) h (some (l ++ k))) g := by
  obtain ⟨f, L, rfl⟩ := List.exists_cons_of_ne_nil hnil
  have hrg := hm.ring hg
  have hrh := hm.ring hl
  have hf : (f :: L).head? = some (m.next g) := hrg.head?_next
  have he : (f :: L).getLast? = some (m.prev g) := by
    rw [← List.getLast?_cons_cons (a := g)]
    exact hrg.getLast?_prev
  have hn := hrh.head?_next
  have hdisj := hm.apart hg hl hne
  have hring : (rawListSplice g h m).Ring h (f :: L ++ k) :=
    hrg.splice hrh (List.disjoint_of_subset_left (List.subset_cons_self g _) hdisj) hf he hn
  have hother : ∀ g' k', update lists g none g' = some k' → g' ≠ h →
      lists g' = some k' ∧ g' ≠ g := by
    intro g' k' hg' _
    have hne' : g' ≠ g := by
      rintro rfl
      rw [Function.update_self] at hg'
      cases hg'
    rw [Function.update_of_ne hne'] at hg'
    exact ⟨hg', hne'⟩
  constructor
  · have hw : m.Within (rawListSplice g h m) (h :: (f :: L ++ k)) := by
      refine Links.Within.trans (Links.within_join (a := h) (b := m.next g) ?_ ?_)
        (Links.within_join (a := m.prev g) (b := m.next h) ?_ ?_)
      · exact List.mem_cons_self
      · exact List.mem_cons_of_mem h (List.mem_append_left k (List.mem_of_head? hf))
      · exact List.mem_cons_of_mem h (List.mem_append_left k (List.mem_of_getLast? he))
      · have hmem := List.mem_of_head? hn
        simp only [List.mem_append, List.mem_cons] at hmem ⊢
        tauto
    refine (hm.forget g).update hring hw fun g' k' hg' hne' => ?_
    obtain ⟨hg'', hgne⟩ := hother g' k' hg' hne'
    have hd : (h :: (f :: L ++ k)).Disjoint (g' :: k') := by
      have hdg := hm.apart hg hg'' (Ne.symm hgne)
      have hdh := hm.apart hl hg'' (Ne.symm hne')
      rw [List.disjoint_cons_left] at hdg hdh ⊢
      exact ⟨hdh.1, List.disjoint_append_left.mpr ⟨hdg.2, hdh.2⟩⟩
    exact ⟨hd, hd⟩
  · intro g' k' hg' hmem
    by_cases hh : g' = h
    · subst hh
      rw [Function.update_self] at hg'
      cases hg'
      have hself : g ∉ f :: L := (List.nodup_cons.mp hrg.nodup).1
      have hoff : g ∉ g' :: k := fun hmem' => hdisj List.mem_cons_self hmem'
      simp only [List.mem_append, List.mem_cons] at hmem hself hoff
      tauto
    · rw [Function.update_of_ne hh] at hg'
      obtain ⟨hg'', hgne⟩ := hother g' k' hg' hh
      exact hm.apart hg hg'' (Ne.symm hgne) List.mem_cons_self hmem

theorem listEmpty_eq (hr : m.Ring h l) : listEmpty h m = l.isEmpty := by
  rw [Bool.eq_iff_iff, listEmpty, beq_iff_eq, hr.next_eq_self_iff, List.isEmpty_iff]

variable {c : Call} {lists' : Lists} {l? : Option (List Nat)}

theorem Call.Does.rings (hc : c.Does lists lists') (hm : m.Rings lists) : (c.exec m).Rings lists' := by
  cases hc with
  | init hh => exact rings_init hm hh
  | add hx hne hl => exact rings_add (hm.forget _) hx.free (by rwa [Function.update_of_ne hne.symm])
  | addTail hx hne hl => exact rings_addTail (hm.forget _) hx.free (by rwa [Function.update_of_ne hne.symm])
  | del hl => exact (rings_del hm hl).1
  | delInit hl =>
    obtain ⟨hrest, hfree⟩ := rings_remove hm hl
    exact rings_init hrest hfree.off
  | move hl hk =>
    obtain ⟨hrest, hfree⟩ := rings_remove hm hl
    exact rings_add hrest hfree hk
  | moveTail hl hk =>
    obtain ⟨hrest, hfree⟩ := rings_remove hm hl
    exact rings_addTail hrest hfree hk
  | spliceNil hg =>
    rw [exec, listSplice, listEmpty_eq (hm.ring hg)]
    exact hm
  | splice hg hnil hl hne =>
    rw [exec, listSplice, listEmpty_eq (hm.ring hg), if_neg (by simpa using hnil)]
    exact (rings_splice hm hg hl hne hnil).1
  | spliceInitNil hg =>
    rw [exec, listSpliceInit, listEmpty_eq (hm.ring hg)]
    exact hm
  | spliceInit hg hnil hl hne =>
    rw [exec, listSpliceInit, listEmpty_eq (hm.ring hg), if_neg (by simpa using hnil)]
    obtain ⟨hrest, hfree⟩ := rings_splice hm hg hl hne hnil
    exact rings_init hrest hfree.off

theorem Calls.rings {cs : List Call} (hc : Calls lists cs lists') (hm : m.Rings lists) :
    (execAll cs m).Rings lists' := by
  induction hc generalizing m with
  | nil => exact hm
  | cons hc _ ih => exact ih (hc.rings hm)

theorem listForEach_eq {n pos : Nat} (hr : m.Reaches pos l h) (hh : h ∉ l) (hn : l.length < n) :
    listForEach h m n pos = some l := by
  induction l generalizing n pos with
  | nil =>
    obtain ⟨n, rfl⟩ := Nat.exists_eq_succ_of_ne_zero (Nat.ne_zero_of_lt hn)
    have hpos : pos = h := hr
    rw [listForEach, if_pos hpos]
  | cons x l ih =>
    obtain ⟨n, rfl⟩ := Nat.exists_eq_succ_of_ne_zero (Nat.ne_zero_of_lt hn)
    obtain ⟨rfl, hr⟩ := hr
    obtain ⟨hx, hh⟩ := not_or.mp (mt List.mem_cons.mpr hh)
    rw [listForEach, if_neg (Ne.symm hx), ih hr hh (Nat.lt_of_succ_lt_succ hn), Option.map_some]

theorem listForEachPrev_eq (n pos : Nat) : listForEachPrev h m n pos = listForEach h m.flip n pos := by
  induction n generalizing pos with
  | zero => rfl
  | succ n ih =>
    rw [listForEachPrev, listForEach, ih]
    rfl

/-- On any memory, after any sequence of calls that are made as the header asks for, each list in use
holds what the calls put there, in order: `list_empty` tells whether it is empty, and the loops over
it come to its nodes forwards and backwards and end. -/
theorem list_calls_refine (m : Links Nat) (cs : List Call) (lists : Lists)
    (hc : Calls (fun _ => none) cs lists) (h : Nat) (l : List Nat) (hl : lists h = some l) (n : Nat)
    (hn : l.length < n) :
    listEmpty h (execAll cs m) = l.isEmpty ∧
      listForEach h (execAll cs m) n ((execAll cs m).next h) = some l ∧
      listForEachPrev h (execAll cs m) n ((execAll cs m).prev h) = some l.reverse := by
  have hr := (hc.rings (m := m) ⟨nofun, nofun⟩).ring hl
  have hflip := hr.flip
  refine ⟨listEmpty_eq hr, listForEach_eq hr.linked.reaches (List.nodup_cons.mp hr.nodup).1 hn, ?_⟩
  rw [listForEachPrev_eq]
  exact listForEach_eq hflip.linked.reaches (List.nodup_cons.mp hflip.nodup).1 (by rwa [List.length_reverse])

def sampleCalls : List Call :=
  [.init 8, .init 9, .addTail 16 8, .addTail 24 8, .move 16 9, .spliceInit 9 8]

theorem off_none (x : Nat) : Off (fun _ => none) x := nofun

theorem Off.update (hx : Off lists x) (hl : ∀ k, l? = some k → x ∉ k) : Off (update lists h l?) x := by
  intro g k hg
  by_cases he : g = h
  · subst he
    rw [Function.update_self] at hg
    exact hl k hg
  · rw [Function.update_of_ne he] at hg
    exact hx g k hg

theorem list_calls_refine_sample : listForEach 8 (execAll sampleCalls ⟨id, id⟩) 3
    ((execAll sampleCalls ⟨id, id⟩).next 8) = some [16, 24] := by
  have hc := Calls.cons (.init (off_none 8)) <|
    .cons (.init ((off_none 9).update (by simp))) <|
    .cons (.addTail (l := []) (((off_none 16).update (by simp)).update (by simp)) (by decide : 16 ≠ 8) rfl) <|
    .cons (.addTail (l := [16]) (((((off_none 24).update (by simp)).update (by simp)).update (by simp)).update
      (by simp)) (by decide : 24 ≠ 8) rfl) <|
    .cons (.move (g := 8) (h := 9) (l := []) (x := 16) rfl rfl) <|
    .cons (.spliceInit (g := 9) (h := 8) rfl (by simp) rfl (by decide)) (.nil _)
  exact (list_calls_refine ⟨id, id⟩ sampleCalls _ hc 8 [16, 24] rfl 3 (by decide)).2.1

end Wspack.KernelHash.ListHead
