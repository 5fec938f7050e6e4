import Wspack.KernelHash.Unwind

namespace Wspack.KernelHash.ShaPool

open Function (update update_self update_of_ne update_eq_self)
open Lib
open Init (Kernel Pool Loaded Resource acquire_ok acquire_fails)

variable {cpus : List Nat} {pool : Pool} {log : List (Event Resource)} {r : Resource} {cpu : Nat}

def entryOf (cpu : Nat) : Option Bool → List Resource
  | none => []
  | some false => [.poolEntry cpu]
  | some true => [.poolHash cpu, .poolEntry cpu]

def held (cpus : List Nat) (pool : Pool) : List Resource :=
  cpus.flatMap (fun cpu => entryOf cpu (pool cpu)) ++ [.pool]

theorem of_mem_entryOf {e : Option Bool} (h : r ∈ entryOf cpu e) : r = .poolEntry cpu ∨ r = .poolHash cpu := by
  rcases e with _ | _ | _
  · cases h
  · exact .inl (List.mem_singleton.mp h)
  · simpa [entryOf, or_comm] using h

theorem nodup_held (h : cpus.Nodup) : (held cpus pool).Nodup := by
  refine List.nodup_append.mpr ⟨List.nodup_flatMap.mpr ⟨fun cpu _ => ?_, ?_⟩, List.nodup_singleton _, ?_⟩
  · rcases pool cpu with _ | _ | _
    · simp [entryOf]
    · simp [entryOf]
    · simp [entryOf]
  · refine h.imp fun {c d} hne r hc hd => ?_
    rcases of_mem_entryOf hc with rfl | rfl <;> simpa [hne] using of_mem_entryOf hd
  · intro r hr r' hr'
    obtain ⟨cpu, -, hr⟩ := List.mem_flatMap.mp hr
    rw [List.mem_singleton.mp hr']
    rcases of_mem_entryOf hr with rfl | rfl <;> simp

theorem mem_held_update {e : Option Bool} (hcpu : cpu ∈ cpus) : r ∈ held cpus (update pool cpu e) ↔
    r ∈ held (cpus.filter (· ≠ cpu)) pool ∨ r ∈ entryOf cpu e := by
  simp only [held, List.mem_append, List.mem_flatMap, List.mem_filter, decide_eq_true_eq]
  constructor
  · rintro (⟨c, hc, hr⟩ | hr)
    · by_cases hcc : c = cpu
      · rw [hcc, update_self] at hr
        exact .inr hr
      · rw [update_of_ne hcc] at hr
        exact .inl (.inl ⟨c, ⟨hc, hcc⟩, hr⟩)
    · exact .inl (.inr hr)
  · rintro ((⟨c, ⟨hc, hcc⟩, hr⟩ | hr) | hr)
    · exact .inl ⟨c, hc, by rwa [update_of_ne hcc]⟩
    · exact .inr hr
    · exact .inl ⟨cpu, hcpu, by rwa [update_self]⟩

def Holds (cpus : List Nat) (pool : Pool) (log : List (Event Resource)) : Prop :=
  ∃ xs : List Resource, log = xs.map .acquire ∧ ∀ r, r ∈ xs ↔ r ∈ held cpus pool

theorem Holds.settled (h : Holds cpus pool log) (hcpus : cpus.Nodup) :
    Settled (log ++ (held cpus pool).map .release) := by
  obtain ⟨xs, rfl, hmem⟩ := h
  exact (settled_append_iff (nodup_held hcpus)).mpr fun r => (hmem r).symm

theorem Holds.take {pool' : Pool} {x : Resource} (h : Holds cpus pool log)
    (hx : ∀ r, r ∈ held cpus pool' ↔ r ∈ held cpus pool ∨ r = x) : Holds cpus pool' (log ++ [.acquire x]) := by
  obtain ⟨xs, rfl, hmem⟩ := h
  refine ⟨xs ++ [x], by simp, fun r => ?_⟩
  rw [List.mem_append, List.mem_singleton, hmem, hx]

theorem Holds.entry (h : Holds cpus pool log) (hcpu : cpu ∈ cpus) (hnone : pool cpu = none) :
    Holds cpus (update pool cpu (some false)) (log ++ [.acquire (.poolEntry cpu)]) := by
  refine h.take fun r => ?_
  have hsame := @mem_held_update cpus pool r cpu none hcpu
  rw [← hnone, update_eq_self] at hsame
  rw [mem_held_update hcpu, hsame, hnone]
  simp [entryOf]

theorem Holds.hash (h : Holds cpus (update pool cpu (some false)) log) (hcpu : cpu ∈ cpus) :
    Holds cpus (update pool cpu (some true)) (log ++ [.acquire (.poolHash cpu)]) := by
  refine h.take fun r => ?_
  rw [mem_held_update hcpu, mem_held_update hcpu, or_assoc]
  simp [entryOf, or_comm]

def freeEntry (pool : Pool) (cpu : Nat) : Init.Boot Unit :=
  match pool cpu with
  | none => return ()
  | some tfm => do
    if tfm then Init.release (.poolHash cpu)
    Init.release (.poolEntry cpu)

theorem freeEntry_log (pool : Pool) (cpu : Nat) (s : Loaded) :
    ∃ t, freeEntry pool cpu s = .ok ((), t) ∧ t.log = s.log ++ (entryOf cpu (pool cpu)).map .release := by
  rw [freeEntry]
  rcases pool cpu with _ | _ | _
  · exact ⟨s, rfl, by simp [entryOf]⟩
  · exact ⟨s.give (.poolEntry cpu), rfl, rfl⟩
  · exact ⟨(s.give (.poolHash cpu)).give (.poolEntry cpu), rfl, by simp [Loaded.give, entryOf]⟩

theorem freeEntries_log (pool : Pool) (cpus : List Nat) (s : Loaded) :
    ∃ t, cpus.forM (freeEntry pool) s = .ok ((), t) ∧
      t.log = s.log ++ (cpus.flatMap fun cpu => entryOf cpu (pool cpu)).map .release := by
  induction cpus generalizing s with
  | nil => exact ⟨s, rfl, by simp⟩
  | cons cpu cpus ih =>
    obtain ⟨u, hu, hlog⟩ := freeEntry_log pool cpu s
    obtain ⟨t, ht, hlog'⟩ := ih u
    refine ⟨t, (bind_of_ok hu).trans ht, ?_⟩
    rw [hlog', hlog, List.flatMap_cons, List.map_append, List.append_assoc]

theorem freePool_log (k : Kernel) (pool : Pool) (s : Loaded) :
    ∃ t, Init.freePool k pool s = .ok ((), t) ∧ t.log = s.log ++ (held k.possible pool).map .release := by
  obtain ⟨t, ht, hlog⟩ := freeEntries_log pool k.possible s
  refine ⟨t.give .pool, bind_of_ok ht, ?_⟩
  rw [held, List.map_append, ← List.append_assoc, ← hlog]
  rfl

theorem fillPool_log {k : Kernel} {s : Loaded} (h : Holds k.possible pool s.log) (hcpus : cpus.Nodup)
    (hsub : cpus ⊆ k.possible) (hnone : ∀ cpu ∈ cpus, pool cpu = none) :
    ∃ res t, Init.fillPool k cpus pool s = .ok (res, t) ∧ match res with
      | some pool' => Holds k.possible pool' t.log ∧ (∀ cpu ∈ cpus, pool' cpu = some true) ∧
        ∀ cpu ∉ cpus, pool' cpu = pool cpu
      | none => Settled t.log := by
  induction cpus generalizing pool s with
  | nil => exact ⟨some pool, s, rfl, h, by simp, fun _ _ => rfl⟩
  | cons cpu cpus ih =>
    obtain ⟨hcpu, hsub⟩ := List.cons_subset.mp hsub
    obtain ⟨hnc, hnone⟩ := List.forall_mem_cons.mp hnone
    obtain ⟨hnotin, hcpus⟩ := List.nodup_cons.mp hcpus
    have hentry := h.entry hcpu hnc
    rw [Init.fillPool]
    cases hke : k.succeeds (.poolEntry cpu) with
    | false =>
      rw [bind_of_ok (acquire_fails hke _ _)]
      obtain ⟨t, ht, hlog⟩ := freePool_log k pool { s with ptr := update s.ptr (.poolEntry cpu) .null }
      exact ⟨none, t, bind_of_ok ht, hlog ▸ h.settled k.nodup_possible⟩
    | true =>
      rw [bind_of_ok (acquire_ok hke _ _)]
      simp only [Bool.not_true, Bool.false_eq_true, if_false]
      cases hkh : k.succeeds (.poolHash cpu) with
      | false =>
        rw [bind_of_ok (acquire_fails hkh _ _)]
        obtain ⟨t, ht, hlog⟩ := freePool_log k (update pool cpu (some false))
          { s.take (.poolEntry cpu) with ptr := update (s.take (.poolEntry cpu)).ptr (.poolHash cpu) .null }
        exact ⟨none, t, bind_of_ok ht, hlog ▸ hentry.settled k.nodup_possible⟩
      | true =>
        rw [bind_of_ok (acquire_ok hkh _ _)]
        have hrest : ∀ c ∈ cpus, update pool cpu (some true) c = none := fun c hc => by
          have hcc : c ≠ cpu := by
            rintro rfl
            exact hnotin hc
          rw [update_of_ne hcc, hnone c hc]
        obtain ⟨res, t, ht, hspec⟩ := ih (s := (s.take (.poolEntry cpu)).take (.poolHash cpu)) (hentry.hash hcpu)
          hcpus hsub hrest
        refine ⟨res, t, ht, ?_⟩
        cases res with
        | none => exact hspec
        | some pool' =>
          obtain ⟨hholds, hfull, hother⟩ := hspec
          refine ⟨hholds, List.forall_mem_cons.mpr ⟨?_, hfull⟩, fun c hc => ?_⟩
          · rw [hother cpu hnotin, update_self]
          · obtain ⟨hcc, hc⟩ := not_or.mp (fun h => hc (List.mem_cons.mpr h))
            rw [hother c hc, update_of_ne hcc]

theorem allocPool_log (k : Kernel) : ∃ res t, Init.allocPool k Init.loaded = .ok (res, t) ∧ match res with
    | some pool => Holds k.possible pool t.log ∧ ∀ cpu ∈ k.possible, pool cpu = some true
    | none => Settled t.log := by
  rw [Init.allocPool]
  cases hk : k.succeeds .pool with
  | false =>
    rw [bind_of_ok (acquire_fails hk _ _)]
    exact ⟨none, _, rfl, settled_nil⟩
  | true =>
    rw [bind_of_ok (acquire_ok hk _ _)]
    have hstart : Holds k.possible (fun _ => none) (Init.loaded.take .pool).log :=
      ⟨[.pool], rfl, fun r => by simp [held, entryOf]⟩
    obtain ⟨res, t, ht, hspec⟩ := fillPool_log hstart k.nodup_possible (List.Subset.refl _) fun _ _ => rfl
    refine ⟨res, t, ht, ?_⟩
    cases res with
    | none => exact hspec
    | some pool => exact ⟨hspec.1, hspec.2.1⟩

end Wspack.KernelHash.ShaPool
