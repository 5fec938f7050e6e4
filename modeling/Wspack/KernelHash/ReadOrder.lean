import Wspack.KernelHash.Lifecycle
import Wspack.KernelHash.ListHead
import Wspack.KernelHash.SortLinks

namespace Wspack.KernelHash

open Lib
open Nodes (NULL Steady)
open ListHead (listDel ring_listDel)

/-- Memory around the lists: where a `list_head` lies, a load finds its pointers as they are at the time,
and anywhere else a word that `list_sort` does not write. -/
structure Memory where
  heads : List Nat
  rest : Nat → UInt64

def Memory.load (w : Memory) (m : Links Nat) (addr : Nat) : UInt64 :=
  if addr ∈ w.heads then .ofNat (m.next addr)
  else if 8 ≤ addr ∧ addr - 8 ∈ w.heads then .ofNat (m.prev (addr - 8))
  else w.rest addr

def startOffset : Nat := 72

/-- The nodes that are compared lie in a `struct read_skb`, and what `list_entry` takes for
`start` is the word of memory at that distance behind the node. -/
def filePoisitCompare (w : Memory) (m : Links Nat) (a b : Nat) : Int :=
  wrapInt (w.load m (a + startOffset) - w.load m (b + startOffset)).toNat

/-- The positions of `reserve_file` that a turn of the loop reads from, in chunk steps. -/
def kernelReads (s : State) (r : ReadSkb) : List Nat :=
  match s.items r.item with
  | some cp => if cp.flagMem then [] else [cp.start]
  | none => []

variable {entry : Nat → ReadSkb}

def readLoop (entry : Nat → ReadSkb) (head : Nat) :
    (n pos next : Nat) → Links Nat → State → Option (Links Nat × State × List Nat)
  | 0, _, _, _, _ => none
  | n + 1, pos, next, m, s =>
    if pos = head then some (m, s, [])
    else do
      let t ← (readData s (s.readList.idxOf (entry pos))).toOption
      let m := listDel pos m
      let (m, u, reads) ← readLoop entry head n next (m.next next) m t
      some (m, u, kernelReads s (entry pos) ++ reads)

def sortLists (w : Memory) (n : Nat) (head : Nat → Nat) : List Nat → Links Nat → Option (Links Nat)
  | [], m => some m
  | cpu :: cpus, m => do
    let m ← Nodes.listSort (filePoisitCompare w) n (head cpu) m
    sortLists w n head cpus m

def readLists (entry : Nat → ReadSkb) (n : Nat) (head : Nat → Nat) :
    List Nat → Links Nat → State → Option (Links Nat × State × List (List Nat))
  | [], m, s => some (m, s, [])
  | cpu :: cpus, m, s => do
    let pos := m.next (head cpu)
    let (m, t, reads) ← readLoop entry (head cpu) n pos (m.next pos) m s
    let (m, u, rest) ← readLists entry n head cpus m t
    some (m, u, reads :: rest)

def readAll (cfg : Config) (w : Memory) (entry : Nat → ReadSkb) (n : Nat) (head : Nat → Nat) (m : Links Nat)
    (s : State) : Option (Links Nat × State × List (List Nat)) := do
  let m ← sortLists w n head (List.range cfg.ncpu) m
  readLists entry n head (List.range cfg.ncpu) m s

def queued (cfg : Config) (lists : Nat → List Nat) : List Nat := (List.range cfg.ncpu).flatMap lists

structure Queued (cfg : Config) (w : Memory) (entry : Nat → ReadSkb) (head : Nat → Nat)
    (lists : Nat → List Nat) (m : Links Nat) (s : State) : Prop where
  held : ((queued cfg lists).map entry).Subperm s.readList
  alive : ∀ cpu < cfg.ncpu, ∀ x ∈ lists cpu, ∃ cp, s.items (entry x).item = some cp ∧ cp.cpuid = cpu
  ring : ∀ cpu < cfg.ncpu, m.Ring (head cpu) (lists cpu)
  apart : ((List.range cfg.ncpu).flatMap fun cpu => head cpu :: lists cpu).Nodup
  nonnull : ∀ cpu < cfg.ncpu, NULL ∉ lists cpu
  heads : w.heads.Perm ((List.range cfg.ncpu).flatMap fun cpu => head cpu :: lists cpu)

def Memory.Apart (w : Memory) (l : List Nat) : Prop :=
  ∀ x ∈ l, x + startOffset ∉ w.heads ∧ ¬(8 ≤ x + startOffset ∧ x + startOffset - 8 ∈ w.heads)

theorem Memory.Apart.steady {w : Memory} {l : List Nat} (hw : w.Apart l) (m : Links Nat) :
    Steady (filePoisitCompare w) (filePoisitCompare w m) l := by
  have hload : ∀ m m' : Links Nat, ∀ x ∈ l, w.load m (x + startOffset) = w.load m' (x + startOffset) := by
    intro m m' x hx
    rw [Memory.load, Memory.load, if_neg (hw x hx).1, if_neg (hw x hx).2, if_neg (hw x hx).1,
      if_neg (hw x hx).2]
  intro m' x hx y hy
  rw [filePoisitCompare, filePoisitCompare, hload m' m x hx, hload m' m y hy]

structure Done (entry : Nat → ReadSkb) (s : State) (rs : List Nat) (t : State) : Prop where
  freed : s.readList.Perm (rs.map entry ++ t.readList)
  released : t.released.Perm (rs.map (fun r => (entry r).hold) ++ s.released)
  items : ∀ id cp, s.items id = some cp → ∃ cp', t.items id = some cp' ∧
    cp'.start = cp.start ∧ cp'.cpuid = cp.cpuid ∧
    cp'.shareRef = (fun r => wrapInt (r - 1))^[(rs.map (fun r => (entry r).item)).count id] cp.shareRef ∧
    cp'.flagMem = (cp.flagMem || (rs.map (fun r => (entry r).item)).contains id)

theorem Done.nil (s : State) : Done entry s [] s where
  freed := by simp
  released := by simp
  items _ cp h := ⟨cp, h, by simp⟩

theorem Done.append {s t u : State} {rs rs' : List Nat} (h : Done entry s rs t) (h' : Done entry t rs' u) :
    Done entry s (rs ++ rs') u where
  freed := by
    rw [List.map_append, List.append_assoc]
    exact h.freed.trans (h'.freed.append_left _)
  released := by
    rw [List.map_append]
    refine h'.released.trans ((h.released.append_left _).trans ?_)
    rw [← List.append_assoc]
    exact List.perm_append_comm.append_right _
  items id cp hcp := by
    obtain ⟨cp₁, hcp₁, hstart, hcpu, hshare, hmem⟩ := h.items id cp hcp
    obtain ⟨cp₂, hcp₂, hstart', hcpu', hshare', hmem'⟩ := h'.items id cp₁ hcp₁
    refine ⟨cp₂, hcp₂, hstart'.trans hstart, hcpu'.trans hcpu, ?_, ?_⟩
    · rw [hshare', hshare, List.map_append, List.count_append, Nat.add_comm, Function.iterate_add_apply]
    · rw [hmem', hmem, List.map_append, List.contains_append, Bool.or_assoc]

theorem Done.perm {s t : State} {rs rs' : List Nat} (h : Done entry s rs t) (hp : rs.Perm rs') :
    Done entry s rs' t where
  freed := h.freed.trans ((hp.map _).append_right _)
  released := h.released.trans ((hp.map _).append_right _)
  items id cp hcp := by
    obtain ⟨cp', hcp', hstart, hcpu, hshare, hmem⟩ := h.items id cp hcp
    refine ⟨cp', hcp', hstart, hcpu, ?_, ?_⟩
    · rw [hshare, (hp.map _).count_eq]
    · rw [hmem]
      congr 1
      rw [Bool.eq_iff_iff, List.contains_iff_mem, List.contains_iff_mem]
      exact (hp.map _).mem_iff

theorem readData_done {s : State} {r : Nat} {cp : HashinfoItem} (hr : entry r ∈ s.readList)
    (hcp : s.items (entry r).item = some cp) :
    ∃ t, readData s (s.readList.idxOf (entry r)) = .ok t ∧ Done entry s [r] t := by
  have hget : s.readList[s.readList.idxOf (entry r)]? = some (entry r) := by
    rw [List.getElem?_eq_getElem (List.idxOf_lt_length_of_mem hr), List.getElem_idxOf]
  obtain ⟨t, ht, hlist, hreleased, hitems⟩ : ∃ t, readData s (s.readList.idxOf (entry r)) = .ok t ∧
      t.readList = s.readList.erase (entry r) ∧ t.released = (entry r).hold :: s.released ∧
      t.items = Function.update s.items (entry r).item (some (readItem s (entry r).cpu cp).2.release) := by
    simp only [readData, hget, hcp]
    exact ⟨_, rfl, List.eraseIdx_idxOf_eq_erase _ _, rfl, rfl⟩
  refine ⟨t, ht, ?_, ?_, ?_⟩
  · rw [hlist]
    exact List.perm_cons_erase hr
  · rw [hreleased]
    exact .refl _
  · intro id cp' hcp'
    rw [hitems]
    by_cases e : id = (entry r).item
    · subst e
      rw [hcp] at hcp'
      cases hcp'
      exact ⟨_, Function.update_self _ _ _, by simp [HashinfoItem.release, readItem_loaded]⟩
    · refine ⟨cp', by rw [Function.update_of_ne e, hcp'], ?_⟩
      simp [e, Ne.symm e]

def firsts (entry : Nat → ReadSkb) (seen : Nat → Bool) : List Nat → List Nat
  | [] => []
  | r :: rs =>
    if seen (entry r).item then firsts entry seen rs
    else r :: firsts entry (Function.update seen (entry r).item true) rs

def State.inMemory (s : State) (id : Nat) : Bool := (s.items id).any (·.flagMem)

def State.startOf (s : State) (id : Nat) : Nat := ((s.items id).map (·.start)).getD 0

theorem firsts_congr {seen seen' : Nat → Bool} {rs : List Nat}
    (h : ∀ r ∈ rs, seen (entry r).item = seen' (entry r).item) :
    firsts entry seen rs = firsts entry seen' rs := by
  induction rs generalizing seen seen' with
  | nil => rfl
  | cons r rs ih =>
    obtain ⟨hr, hrs⟩ := List.forall_mem_cons.mp h
    rw [firsts, firsts, hr, ih hrs]
    congr 2
    apply ih
    intro r' hr'
    by_cases e : (entry r').item = (entry r).item
    · rw [e, Function.update_self, Function.update_self]
    · rw [Function.update_of_ne e, Function.update_of_ne e, hrs r' hr']

theorem firsts_subset {seen : Nat → Bool} {rs : List Nat} :
    ∀ r ∈ firsts entry seen rs, r ∈ rs ∧ seen (entry r).item = false := by
  induction rs generalizing seen with
  | nil => simp [firsts]
  | cons c rs ih =>
    intro r hr
    rw [firsts] at hr
    by_cases hs : seen (entry c).item = true
    · rw [if_pos hs] at hr
      exact ⟨List.mem_cons_of_mem _ (ih r hr).1, (ih r hr).2⟩
    · rw [if_neg hs] at hr
      rcases List.mem_cons.mp hr with rfl | hr
      · exact ⟨List.mem_cons_self, by simpa using hs⟩
      · obtain ⟨hmem, hseen⟩ := ih r hr
        refine ⟨List.mem_cons_of_mem _ hmem, ?_⟩
        by_cases e : (entry r).item = (entry c).item
        · rw [e, Function.update_self] at hseen
          cases hseen
        · rwa [Function.update_of_ne e] at hseen

theorem Done.inMemory {s t : State} {rs : List Nat} (h : Done entry s rs t) {id : Nat} {cp : HashinfoItem}
    (hcp : s.items id = some cp) :
    t.inMemory id = (s.inMemory id || (rs.map (fun r => (entry r).item)).contains id) ∧
      t.startOf id = s.startOf id := by
  obtain ⟨cp', hcp', hstart, -, -, hmem⟩ := h.items id cp hcp
  simp [State.inMemory, State.startOf, hcp, hcp', hstart, hmem]

theorem Done.kept {s t : State} {rs : List Nat} (h : Done entry s rs t) {id : Nat} {cp : HashinfoItem}
    (hcp : s.items id = some cp) : ∃ cp', t.items id = some cp' ∧ cp'.cpuid = cp.cpuid := by
  obtain ⟨cp', hcp', -, hid, -⟩ := h.items id cp hcp
  exact ⟨cp', hcp', hid⟩

theorem Done.held {s t : State} {rs rs' : List Nat} (h : Done entry s rs t)
    (hheld : ((rs ++ rs').map entry).Subperm s.readList) :
    (rs'.map entry).Subperm t.readList := by
  rw [List.map_append] at hheld
  exact (List.subperm_append_left _).mp (hheld.trans h.freed.subperm)

theorem Done.inMemory_other {s t : State} {rs : List Nat} (h : Done entry s rs t) {id cpu : Nat}
    {cp : HashinfoItem} (hrs : ∀ r ∈ rs, ∃ cp, s.items (entry r).item = some cp ∧ cp.cpuid = cpu)
    (hcp : s.items id = some cp) (hne : cp.cpuid ≠ cpu) :
    t.inMemory id = s.inMemory id ∧ t.startOf id = s.startOf id := by
  obtain ⟨hmem, hstart⟩ := h.inMemory hcp
  have hnot : (rs.map (fun r => (entry r).item)).contains id = false := by
    rw [Bool.eq_false_iff, ne_eq, List.contains_iff_mem, List.mem_map]
    rintro ⟨r, hr, rfl⟩
    obtain ⟨cp', hcp', hid⟩ := hrs r hr
    rw [hcp] at hcp'
    cases hcp'
    exact hne hid
  rw [hmem, hnot, Bool.or_false]
  exact ⟨rfl, hstart⟩

theorem map_firsts_congr {seen seen' : Nat → Bool} {start start' : Nat → Nat} {rs : List Nat}
    (h : ∀ r ∈ rs, seen (entry r).item = seen' (entry r).item ∧ start (entry r).item = start' (entry r).item) :
    (firsts entry seen rs).map (fun r => start (entry r).item) =
      (firsts entry seen' rs).map (fun r => start' (entry r).item) := by
  rw [firsts_congr fun r hr => (h r hr).1]
  exact List.map_congr_left fun r hr => (h r (firsts_subset r hr).1).2

theorem map_firsts_cons {s : State} {r : Nat} {rs : List Nat} {cp : HashinfoItem}
    (hcp : s.items (entry r).item = some cp) :
    (firsts entry s.inMemory (r :: rs)).map (fun r => s.startOf (entry r).item) =
      kernelReads s (entry r) ++ (firsts entry (Function.update s.inMemory (entry r).item true) rs).map
        (fun r => s.startOf (entry r).item) := by
  rw [firsts]
  cases hm : cp.flagMem with
  | true =>
    have hself : Function.update s.inMemory (entry r).item true = s.inMemory := by
      rw [Function.update_eq_self_iff]
      simp [State.inMemory, hcp, hm]
    rw [hself]
    simp [kernelReads, State.inMemory, hcp, hm]
  | false => simp [kernelReads, State.inMemory, State.startOf, hcp, hm]

theorem readLoop_done {m : Links Nat} {s : State} {head n : Nat} {l : List Nat} (hr : m.Ring head l)
    (hheld : (l.map entry).Subperm s.readList) (halive : ∀ x ∈ l, ∃ cp, s.items (entry x).item = some cp)
    (hn : l.length < n) :
    ∃ m' t, readLoop entry head n (m.next head) (m.next (m.next head)) m s =
        some (m', t, (firsts entry s.inMemory l).map (fun r => s.startOf (entry r).item)) ∧
      Done entry s l t ∧ m.Within m' (head :: l) := by
  induction l generalizing m s n with
  | nil =>
    obtain ⟨n, rfl⟩ := Nat.exists_eq_succ_of_ne_zero (Nat.ne_zero_of_lt hn)
    refine ⟨m, s, ?_, .nil s, fun _ _ => ⟨rfl, rfl⟩⟩
    rw [readLoop, if_pos (hr.next_eq_self_iff.mpr rfl)]
    rfl
  | cons x l ih =>
    obtain ⟨n, rfl⟩ := Nat.exists_eq_succ_of_ne_zero (Nat.ne_zero_of_lt hn)
    obtain ⟨⟨cp, hcp⟩, hrest⟩ := List.forall_mem_cons.mp halive
    obtain ⟨hring, hw, hnext⟩ := ring_listDel hr
    have hx : m.next head = x := hr.linked.1
    have hne : x ≠ head := fun he => (List.nodup_cons.mp hr.nodup).1 (he ▸ List.mem_cons_self)
    obtain ⟨t, ht, hdone⟩ := readData_done (hheld.subset List.mem_cons_self) hcp
    have halive' : ∀ r ∈ l, ∃ cp, t.items (entry r).item = some cp := by
      intro r hr
      obtain ⟨cp', hcp'⟩ := hrest r hr
      exact (hdone.kept hcp').imp fun _ h => h.1
    obtain ⟨m', u, hu, hdone', hw'⟩ := ih hring (hdone.held hheld) halive' (Nat.lt_of_succ_lt_succ hn)
    refine ⟨m', u, ?_, hdone.append hdone', hw.trans (hw'.mono ?_)⟩
    · have hseen : ∀ r ∈ l, t.inMemory (entry r).item =
          Function.update s.inMemory (entry x).item true (entry r).item ∧
            t.startOf (entry r).item = s.startOf (entry r).item := by
        intro r hr
        obtain ⟨cp', hcp'⟩ := hrest r hr
        obtain ⟨hmem, hstart⟩ := hdone.inMemory hcp'
        refine ⟨?_, hstart⟩
        rw [hmem]
        by_cases e : (entry r).item = (entry x).item <;> simp [e]
      rw [map_firsts_cons hcp, ← map_firsts_congr hseen, hx, readLoop, if_neg hne, ht, hnext]
      simp only [Except.toOption, Option.bind_eq_bind, Option.bind_some, hu]
    · exact List.cons_subset_cons head (List.subset_cons_self x l)

section Lists

variable {w : Memory} {head : Nat → Nat} {lists : Nat → List Nat} {m : Links Nat} {s : State}
  {cpu : Nat} {cpus : List Nat} {n : Nat}

theorem rings_of_within {m' : Links Nat} {l : List Nat}
    (hnodup : ((cpu :: cpus).flatMap fun cpu => head cpu :: lists cpu).Nodup) (hl : l ⊆ head cpu :: lists cpu)
    (hw : m.Within m' l) (hring : ∀ c ∈ cpus, m.Ring (head c) (lists c)) :
    ∀ c ∈ cpus, m'.Ring (head c) (lists c) := by
  intro c hc
  rw [List.flatMap_cons] at hnodup
  have hoff : ∀ z ∈ head c :: lists c, z ∉ l := fun z hz hzl =>
    List.disjoint_of_nodup_append hnodup (hl hzl) (List.mem_flatMap.mpr ⟨c, hc, hz⟩)
  exact (hring c hc).congr (fun z hz => (hw z (hoff z hz)).1) fun z hz => (hw z (hoff z hz)).2

theorem sortLists_spec (c : Nat → Nat → Int)
    (hnodup : (cpus.flatMap fun cpu => head cpu :: lists cpu).Nodup)
    (hring : ∀ cpu ∈ cpus, m.Ring (head cpu) (lists cpu)) (hnull : ∀ cpu ∈ cpus, NULL ∉ lists cpu)
    (hn : ∀ cpu ∈ cpus, (lists cpu).length + 21 < n) :
    ∃ (m' : Links Nat) (sorted : Nat → List Nat), sortLists w n head cpus m = some m' ∧
      (∀ cpu ∈ cpus, m'.Ring (head cpu) (sorted cpu) ∧ (sorted cpu).Perm (lists cpu) ∧
        (Steady (filePoisitCompare w) c (lists cpu) → sorted cpu = listSort c (lists cpu))) ∧
      m.Within m' (cpus.flatMap fun cpu => head cpu :: lists cpu) := by
  induction cpus generalizing m with
  | nil => exact ⟨m, lists, rfl, by simp, fun _ _ => ⟨rfl, rfl⟩⟩
  | cons cpu cpus ih =>
    obtain ⟨hcpu, hrest⟩ := List.forall_mem_cons.mp hring
    obtain ⟨hnull₁, hnull⟩ := List.forall_mem_cons.mp hnull
    obtain ⟨hn₁, hn⟩ := List.forall_mem_cons.mp hn
    obtain ⟨m₁, l, h₁, hring₁, hperm, hl, hw₁⟩ := Nodes.listSort_spec (filePoisitCompare w) c hcpu hnull₁ hn₁
    have hrest₁ := rings_of_within hnodup (List.Subset.refl _) hw₁ hrest
    rw [List.flatMap_cons] at hnodup ⊢
    obtain ⟨m', sorted, h, hsorted, hw⟩ := ih hnodup.of_append_right hrest₁ hnull hn
    have hkeep : ∀ z ∈ head cpu :: l, z ∉ cpus.flatMap fun cpu => head cpu :: lists cpu := fun z hz hmem =>
      List.disjoint_of_nodup_append hnodup (List.cons_subset_cons _ hperm.subset hz) hmem
    have hcpu' : cpu ∉ cpus := fun hmem => hkeep (head cpu) List.mem_cons_self
      (List.mem_flatMap.mpr ⟨cpu, hmem, List.mem_cons_self⟩)
    refine ⟨m', Function.update sorted cpu l, ?_, ?_, ?_⟩
    · rw [sortLists, h₁]
      exact h
    · refine List.forall_mem_cons.mpr ⟨?_, fun c hc => ?_⟩
      · rw [Function.update_self]
        exact ⟨hring₁.congr (fun z hz => (hw z (hkeep z hz)).1) fun z hz => (hw z (hkeep z hz)).2, hperm, hl⟩
      · rw [Function.update_of_ne fun he : c = cpu => hcpu' (he ▸ hc)]
        exact hsorted c hc
    · exact (hw₁.mono (List.subset_append_left _ _)).trans (hw.mono (List.subset_append_right _ _))

theorem readLists_done (hnodup : (cpus.flatMap fun cpu => head cpu :: lists cpu).Nodup)
    (hring : ∀ cpu ∈ cpus, m.Ring (head cpu) (lists cpu)) (hcpus : cpus.Nodup)
    (hheld : ((cpus.flatMap lists).map entry).Subperm s.readList)
    (halive : ∀ cpu ∈ cpus, ∀ x ∈ lists cpu, ∃ cp, s.items (entry x).item = some cp ∧ cp.cpuid = cpu)
    (hn : ∀ cpu ∈ cpus, (lists cpu).length < n) :
    ∃ m' t, readLists entry n head cpus m s = some (m', t, cpus.map fun cpu =>
        (firsts entry s.inMemory (lists cpu)).map (fun r => s.startOf (entry r).item)) ∧
      Done entry s (cpus.flatMap lists) t := by
  induction cpus generalizing m s with
  | nil => exact ⟨m, s, rfl, .nil s⟩
  | cons cpu cpus ih =>
    obtain ⟨hcpu, hcpus⟩ := List.nodup_cons.mp hcpus
    obtain ⟨hring₁, hrest⟩ := List.forall_mem_cons.mp hring
    obtain ⟨hfirst, halive⟩ := List.forall_mem_cons.mp halive
    obtain ⟨hn₁, hn⟩ := List.forall_mem_cons.mp hn
    rw [List.flatMap_cons] at hheld ⊢
    have hheld₁ : ((lists cpu).map entry).Subperm s.readList :=
      ((List.sublist_append_left _ _).map _).subperm.trans hheld
    obtain ⟨m₁, t, ht, hdone, hw⟩ := readLoop_done hring₁ hheld₁
      (fun x hx => (hfirst x hx).imp fun _ h => h.1) hn₁
    have hrest₁ := rings_of_within hnodup (List.Subset.refl _) hw hrest
    have halive' : ∀ c ∈ cpus, ∀ x ∈ lists c, ∃ cp, t.items (entry x).item = some cp ∧ cp.cpuid = c := by
      intro c hc x hx
      obtain ⟨cp, hcp, hid⟩ := halive c hc x hx
      obtain ⟨cp', hcp', hid'⟩ := hdone.kept hcp
      exact ⟨cp', hcp', hid'.trans hid⟩
    rw [List.flatMap_cons] at hnodup
    obtain ⟨m', u, hu, hdone'⟩ := ih hnodup.of_append_right hrest₁ hcpus (hdone.held hheld) halive' hn
    refine ⟨m', u, ?_, hdone.append hdone'⟩
    have hreads : cpus.map (fun c =>
          (firsts entry t.inMemory (lists c)).map (fun r => t.startOf (entry r).item)) =
        cpus.map (fun c => (firsts entry s.inMemory (lists c)).map (fun r => s.startOf (entry r).item)) := by
      apply List.map_congr_left
      intro c hc
      apply map_firsts_congr
      intro r hr
      obtain ⟨cp, hcp, hid⟩ := halive c hc r hr
      refine hdone.inMemory_other hfirst hcp fun he => ?_
      have : c = cpu := by omega
      exact hcpu (this ▸ hc)
    rw [hreads] at hu
    simp only [readLists, ht, hu, Option.bind_eq_bind, Option.bind_some, List.map_cons]

end Lists

def Fronted (entry : Nat → ReadSkb) (seen : Nat → Bool) (start : Nat → Nat) (rs : List Nat)
    (front : Nat → Nat → Prop) : Prop :=
  ∀ a ∈ rs, ∀ b ∈ rs, seen (entry a).item = false → seen (entry b).item = false →
    start (entry a).item < start (entry b).item → ∃ a', (entry a').item = (entry a).item ∧ front a' b

section Fronted

variable {seen : Nat → Bool} {start : Nat → Nat} {rs : List Nat} {c : Nat}

theorem fronted_cons_of_seen (hc : seen (entry c).item = true) :
    Fronted entry seen start (c :: rs) (fun a b => [a, b].Sublist (c :: rs)) ↔
      Fronted entry seen start rs (fun a b => [a, b].Sublist rs) := by
  have hne : ∀ r : Nat, seen (entry r).item = false → r ≠ c := by
    rintro r hr rfl
    rw [hc] at hr
    cases hr
  constructor
  · intro h a ha b hb hsa hsb hlt
    obtain ⟨a', hitem, hfront⟩ := h a (List.mem_cons_of_mem _ ha) b (List.mem_cons_of_mem _ hb) hsa hsb hlt
    rcases pair_sublist_cons.mp hfront with hfront | ⟨rfl, -⟩
    · exact ⟨a', hitem, hfront⟩
    · exact absurd rfl (hne _ (hitem ▸ hsa))
  · intro h a ha b hb hsa hsb hlt
    obtain ⟨a', hitem, hfront⟩ := h a (List.mem_of_ne_of_mem (hne a hsa) ha) b
      (List.mem_of_ne_of_mem (hne b hsb) hb) hsa hsb hlt
    exact ⟨a', hitem, hfront.cons _⟩

theorem update_seen {r : Nat} (h : Function.update seen (entry c).item true (entry r).item = false) :
    (entry r).item ≠ (entry c).item ∧ seen (entry r).item = false := by
  by_cases e : (entry r).item = (entry c).item
  · rw [e, Function.update_self] at h
    cases h
  · rw [Function.update_of_ne e] at h
    exact ⟨e, h⟩

theorem exists_firsts {r : Nat} (hr : r ∈ rs) (hs : seen (entry r).item = false) :
    ∃ r' ∈ firsts entry seen rs, (entry r').item = (entry r).item := by
  induction rs generalizing seen with
  | nil => cases hr
  | cons c rs ih =>
    rw [firsts]
    by_cases e : (entry r).item = (entry c).item
    · rw [← e, hs, if_neg (by decide)]
      exact ⟨c, List.mem_cons_self, e.symm⟩
    · have hr : r ∈ rs := List.mem_of_ne_of_mem (fun h => e (h ▸ rfl)) hr
      split
      · exact ih hr hs
      · obtain ⟨r', hr', hitem⟩ := @ih (Function.update seen (entry c).item true) hr
          (by rwa [Function.update_of_ne e])
        exact ⟨r', List.mem_cons_of_mem _ hr', hitem⟩

theorem fronted_cons (hc : seen (entry c).item = false) (hnodup : c ∉ rs) :
    Fronted entry seen start (c :: rs) (fun a b => [a, b].Sublist (c :: rs)) ↔
      (∀ r ∈ firsts entry (Function.update seen (entry c).item true) rs,
        start (entry c).item ≤ start (entry r).item) ∧
      Fronted entry (Function.update seen (entry c).item true) start rs (fun a b => [a, b].Sublist rs) := by
  constructor
  · intro h
    refine ⟨fun r hr => ?_, fun a ha b hb hsa hsb hlt => ?_⟩
    · obtain ⟨hmem, hs⟩ := firsts_subset r hr
      obtain ⟨hne, hs⟩ := update_seen hs
      by_contra hlt
      obtain ⟨a', hitem, hfront⟩ := h r (List.mem_cons_of_mem _ hmem) c List.mem_cons_self hs hc (by omega)
      rcases pair_sublist_cons.mp hfront with hfront | ⟨rfl, -⟩
      · exact hnodup (mem_of_pair hfront).2
      · exact hne hitem.symm
    · obtain ⟨hna, hsa⟩ := update_seen hsa
      obtain ⟨-, hsb⟩ := update_seen hsb
      obtain ⟨a', hitem, hfront⟩ := h a (List.mem_cons_of_mem _ ha) b (List.mem_cons_of_mem _ hb) hsa hsb hlt
      rcases pair_sublist_cons.mp hfront with hfront | ⟨rfl, -⟩
      · exact ⟨a', hitem, hfront⟩
      · exact absurd hitem.symm hna
  · rintro ⟨hfirst, h⟩ a ha b hb hsa hsb hlt
    by_cases ea : (entry a).item = (entry c).item
    · have hb : b ∈ rs := by
        apply List.mem_of_ne_of_mem _ hb
        rintro rfl
        rw [ea] at hlt
        omega
      exact ⟨c, ea.symm, pair_sublist_cons.mpr (.inr ⟨rfl, hb⟩)⟩
    · have ha : a ∈ rs := List.mem_of_ne_of_mem (fun h => ea (h ▸ rfl)) ha
      have hsa' : Function.update seen (entry c).item true (entry a).item = false := by
        rwa [Function.update_of_ne ea]
      by_cases eb : (entry b).item = (entry c).item
      · obtain ⟨r, hr, hitem⟩ := exists_firsts ha hsa'
        have := hfirst r hr
        rw [hitem] at this
        rw [eb] at hlt
        omega
      · have hb : b ∈ rs := List.mem_of_ne_of_mem (fun h => eb (h ▸ rfl)) hb
        obtain ⟨a', hitem, hfront⟩ := h a ha b hb hsa' (by rwa [Function.update_of_ne eb]) hlt
        exact ⟨a', hitem, hfront.cons _⟩

theorem firsts_pairwise_iff (hrs : rs.Nodup) :
    ((firsts entry seen rs).map (fun r => start (entry r).item)).Pairwise (· ≤ ·) ↔
      Fronted entry seen start rs (fun a b => [a, b].Sublist rs) := by
  induction rs generalizing seen with
  | nil => simp [firsts, Fronted]
  | cons c rs ih =>
    obtain ⟨hc, hrs⟩ := List.nodup_cons.mp hrs
    rw [firsts]
    cases hseen : seen (entry c).item with
    | true => rw [if_pos rfl, ih hrs, fronted_cons_of_seen hseen]
    | false =>
      rw [if_neg (by decide), List.map_cons, List.pairwise_cons, ih hrs, fronted_cons hseen hc,
        List.forall_mem_map]

end Fronted

/-- Every queued node is read or skipped, released and freed once.  Where the words behind the nodes of a CPU
do not lie in a `list_head`, the reads of its file are in order exactly when those words have them sorted so. -/
theorem read_order_iff {cfg : Config} {w : Memory} {entry : Nat → ReadSkb} {head : Nat → Nat}
    {lists : Nat → List Nat} {m : Links Nat} {s : State} (hq : Queued cfg w entry head lists m s) (n : Nat)
    (hn : ∀ cpu < cfg.ncpu, (lists cpu).length + 21 < n) :
    ∃ m' t reads, readAll cfg w entry n head m s = some (m', t, reads) ∧
      Done entry s (queued cfg lists) t ∧
      ∀ cpu < cfg.ncpu, w.Apart (lists cpu) → TotalPreorder (filePoisitCompare w m) (lists cpu) →
        ((reads.getD cpu []).Pairwise (· ≤ ·) ↔
          Fronted entry s.inMemory s.startOf (lists cpu) (Ahead (filePoisitCompare w m) (lists cpu))) := by
  have hn : ∀ cpu ∈ List.range cfg.ncpu, (lists cpu).length + 21 < n :=
    fun cpu hcpu => hn cpu (List.mem_range.mp hcpu)
  have hring : ∀ cpu ∈ List.range cfg.ncpu, m.Ring (head cpu) (lists cpu) :=
    fun cpu hcpu => hq.ring cpu (List.mem_range.mp hcpu)
  obtain ⟨m₁, sorted, h₁, hsorted, -⟩ := sortLists_spec (w := w) (filePoisitCompare w m) hq.apart hring
    (fun cpu hcpu => hq.nonnull cpu (List.mem_range.mp hcpu)) hn
  have hperm : ((List.range cfg.ncpu).flatMap sorted).Perm (queued cfg lists) :=
    List.Perm.flatMap_left _ fun cpu hcpu => (hsorted cpu hcpu).2.1
  have hperm' : ((List.range cfg.ncpu).flatMap fun cpu => head cpu :: sorted cpu).Perm
      ((List.range cfg.ncpu).flatMap fun cpu => head cpu :: lists cpu) :=
    List.Perm.flatMap_left _ fun cpu hcpu => (hsorted cpu hcpu).2.1.cons _
  obtain ⟨m₂, t, h₂, hdone⟩ := readLists_done (n := n) (hperm'.nodup_iff.mpr hq.apart)
    (fun cpu hcpu => (hsorted cpu hcpu).1) List.nodup_range ((hperm.map _).subperm.trans hq.held)
    (fun cpu hcpu x hx => hq.alive cpu (List.mem_range.mp hcpu) x ((hsorted cpu hcpu).2.1.subset hx))
    (fun cpu hcpu => by have := hn cpu hcpu; have := (hsorted cpu hcpu).2.1.length_eq; omega)
  refine ⟨m₂, t, (List.range cfg.ncpu).map fun cpu =>
    (firsts entry s.inMemory (sorted cpu)).map fun r => s.startOf (entry r).item, ?_, hdone.perm hperm,
    fun cpu hcpu hw hpre => ?_⟩
  · simp only [readAll, h₁, Option.bind_eq_bind, Option.bind_some]
    exact h₂
  · obtain ⟨-, -, heq⟩ := hsorted cpu (List.mem_range.mpr hcpu)
    have hnodup : (lists cpu).Nodup := (List.nodup_cons.mp (hq.ring cpu hcpu).nodup).2
    rw [List.getD_eq_getElem?_getD, List.getElem?_map, List.getElem?_range hcpu, Option.map_some,
      Option.getD_some, heq (hw.steady m), firsts_pairwise_iff (listSort_perm.nodup_iff.mpr hnodup)]
    simp only [Fronted, listSort_perm.mem_iff, pair_listSort_iff hnodup hpre]

def storedItem (start : Nat) : HashinfoItem where
  refcnt := 11
  shareRef := 2
  len := 32
  sha1 := Vector.replicate 20 start.toUInt8
  data := 0
  memStyle := none
  cpuid := 0
  start := start
  flagCache := .readBack
  flagMem := false
  storeFlag := .will
  value := List.replicate 32 start.toUInt8

def twoQueued (cpu : Nat) : List Nat := if cpu = 0 then [3072, 1024] else []

def twoEntries (x : Nat) : ReadSkb := if x = 3072 then ⟨2, 0, 1⟩ else ⟨1, 0, 0⟩

def twoHeads (cpu : Nat) : Nat := 64 + 16 * cpu

def twoLinks : Links Nat where
  next x := if x = 64 then 3072 else if x = 3072 then 1024 else if x = 1024 then 64 else x
  prev x := if x = 64 then 1024 else if x = 3072 then 64 else if x = 1024 then 3072 else x

def zeroedMemory : Memory := ⟨[64, 3072, 1024, 80], fun _ => 0⟩

def twoStored : State :=
  { init (fun _ _ => 0) with
    items := fun id => if id = 1 ∨ id = 2 then some (storedItem id) else none
    readList := [⟨2, 0, 1⟩, ⟨1, 0, 0⟩] }

theorem twoQueued_queued :
    Queued twoCpus zeroedMemory twoEntries twoHeads twoQueued twoLinks twoStored where
  held := List.Subperm.refl _
  alive cpu hcpu x hx := by
    rw [twoQueued] at hx
    split at hx
    · subst ‹cpu = 0›
      simp only [List.mem_cons, List.not_mem_nil, or_false] at hx
      rcases hx with rfl | rfl
      · exact ⟨storedItem 2, rfl, rfl⟩
      · exact ⟨storedItem 1, rfl, rfl⟩
    · cases hx
  ring cpu hcpu := by
    match cpu, hcpu with
    | 0, _ => exact ⟨⟨rfl, rfl, rfl, rfl, rfl, rfl⟩, by decide⟩
    | 1, _ => exact ⟨⟨rfl, rfl⟩, by decide⟩
  apart := by decide
  nonnull cpu _ := by
    rw [twoQueued]
    split <;> decide
  heads := .refl _

theorem zeroedMemory_apart : zeroedMemory.Apart [3072, 1024] := by
  rw [Memory.Apart]
  decide

theorem read_order_twoQueued :
    ∃ m t reads, readAll twoCpus zeroedMemory twoEntries 25 twoHeads twoLinks twoStored = some (m, t, reads) ∧
      Done twoEntries twoStored (queued twoCpus twoQueued) t ∧
      ((reads.getD 0 []).Pairwise (· ≤ ·) ↔ Fronted twoEntries twoStored.inMemory twoStored.startOf
        [3072, 1024] (Ahead (filePoisitCompare zeroedMemory twoLinks) [3072, 1024])) := by
  obtain ⟨m, t, reads, h, hdone, hiff⟩ := read_order_iff twoQueued_queued 25 (by decide)
  exact ⟨m, t, reads, h, hdone, hiff 0 (by decide) zeroedMemory_apart ⟨by decide, by decide⟩⟩

theorem read_out_of_order :
    Queued twoCpus zeroedMemory twoEntries twoHeads twoQueued twoLinks twoStored ∧
    zeroedMemory.Apart (twoQueued 0) ∧
    TotalPreorder (filePoisitCompare zeroedMemory twoLinks) (twoQueued 0) ∧
    (readAll twoCpus zeroedMemory twoEntries 25 twoHeads twoLinks twoStored).map (·.2.2) =
      some [[2, 1], []] :=
  ⟨twoQueued_queued, zeroedMemory_apart, ⟨by decide, by decide⟩, by decide +kernel⟩

end Wspack.KernelHash
