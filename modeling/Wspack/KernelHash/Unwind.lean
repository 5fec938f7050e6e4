import Wspack.KernelHash.Init

namespace Wspack.KernelHash.Init

open Function (update)
open Lib

def poolEntries (cpus : List Nat) : List Resource :=
  cpus.flatMap (fun cpu => [.poolEntry cpu, .poolHash cpu])

def Kernel.steps (k : Kernel) : List Resource :=
  List.flatten [[.skbWq], k.online.map .file, slabs, k.online.map .bitmap,
    [.writereadWq, .hashTab, .bucketClear, .hashCachep], counters, [.nfOut, .nfIn, .pool],
    poolEntries k.possible, [.jprobe]]

def Kernel.AllSucceed (k : Kernel) : Prop := ∀ r ∈ k.steps, k.succeeds r = true

/-- Wherever a step fails, `minit` returns an error with the ledger settled; it returns 0 only
where none does. -/
def AllOrNothing (k : Kernel) : Prop :=
  (¬k.AllSucceed → ∃ err s, minit k loaded = .ok (err, s) ∧ err < 0 ∧ Settled s.log) ∧
    ∀ s, minit k loaded = .ok (0, s) → k.AllSucceed

variable {k : Kernel} {r : Resource} {rs : List Resource}

theorem acquire_ok (h : k.succeeds r = true) (p : Ptr) (s : Loaded) :
    acquire k p r s = .ok (true, s.take r) := by
  simp only [acquire, h]
  rfl

theorem acquire_fails (h : k.succeeds r = false) (p : Ptr) (s : Loaded) :
    acquire k p r s = .ok (false, { s with ptr := update s.ptr r p }) := by
  simp only [acquire, h]
  rfl

@[simp] theorem take_log (r : Resource) (s : Loaded) : (s.take r).log = s.log ++ [.acquire r] := rfl
@[simp] theorem give_log (r : Resource) (s : Loaded) : (s.give r).log = s.log ++ [.release r] := rfl

section Stages

variable {s t : Loaded} {p : Ptr} {err : Int} {test : Ptr → Bool}

theorem filter_update {q : Ptr} (hr : r ∉ rs) (ptr : Resource → Ptr) :
    rs.filter (fun x => test (update ptr r q x)) = rs.filter (fun x => test (ptr x)) := by
  apply List.filter_congr
  intro x hx
  rw [Function.update_of_ne (ne_of_mem_of_not_mem hx hr)]

theorem allocEach_spec (k : Kernel) (err : Int) (hlive : test .live = true) (hp : test p = false)
    (hrs : rs.Nodup) : ∃ e t, allocEach k p err rs s = .ok (e, t) ∧
      t.log = s.log ++ (rs.takeWhile k.succeeds).map .acquire ∧
      rs.filter (fun r => test (t.ptr r)) = rs.takeWhile k.succeeds ++
        (rs.dropWhile k.succeeds).tail.filter (fun r => test (s.ptr r)) ∧
      ∀ r ∉ rs, t.ptr r = s.ptr r := by
  induction rs generalizing s with
  | nil => exact ⟨0, s, rfl, by simp, by simp, by simp⟩
  | cons r rs ih =>
    obtain ⟨hr, hrs⟩ := List.nodup_cons.mp hrs
    cases hk : k.succeeds r with
    | false =>
      refine ⟨err, _, bind_of_ok (acquire_fails hk p s), ?_, ?_, ?_⟩
      · simp [hk]
      · simp [hk, hp, filter_update hr]
      · intro x hx
        exact Function.update_of_ne (List.ne_of_not_mem_cons hx) _ _
    | true =>
      obtain ⟨e, t, ht, hlog, hfilter, hother⟩ := ih (s := s.take r) hrs
      refine ⟨e, t, (bind_of_ok (acquire_ok hk p s)).trans ht, ?_, ?_, ?_⟩
      · simp [hk, hlog, Loaded.take]
      · have htail : r ∉ (rs.dropWhile k.succeeds).tail := fun hmem =>
          hr ((List.dropWhile_suffix _).subset (List.mem_of_mem_tail hmem))
        simp [hk, hother r hr, hfilter, Loaded.take, hlive, filter_update htail]
      · intro x hx
        rw [hother x (List.not_mem_of_not_mem_cons hx)]
        exact Function.update_of_ne (List.ne_of_not_mem_cons hx) _ _

theorem freeEach_cons (test : Ptr → Bool) (r : Resource) (rs : List Resource) (s : Loaded) :
    freeEach test (r :: rs) s = freeEach test rs (if test (s.ptr r) then s.give r else s) := by
  change (if test (s.ptr r) then release r >>= fun _ => freeEach test rs else freeEach test rs) s = _
  split
  · rfl
  · rfl

theorem freeEach_spec (test : Ptr → Bool) (hrs : rs.Nodup) : ∃ t, freeEach test rs s = .ok ((), t) ∧
    t.log = s.log ++ (rs.filter (fun r => test (s.ptr r))).map .release := by
  induction rs generalizing s with
  | nil => exact ⟨s, rfl, by simp⟩
  | cons r rs ih =>
    obtain ⟨hr, hrs⟩ := List.nodup_cons.mp hrs
    obtain ⟨t, ht, hlog⟩ := ih (s := if test (s.ptr r) then s.give r else s) hrs
    refine ⟨t, (freeEach_cons test r rs s).trans ht, ?_⟩
    rw [hlog]
    cases htest : test (s.ptr r) with
    | false => simp [htest]
    | true =>
      have hptr : ∀ x ∈ rs, (s.give r).ptr x = s.ptr x := by
        intro x hx
        simp only [Loaded.give]
        split
        · exact Function.update_of_ne (ne_of_mem_of_not_mem hx hr) _ _
        · rfl
      have hfilter : rs.filter (fun x => test ((s.give r).ptr x)) = rs.filter (fun x => test (s.ptr x)) :=
        List.filter_congr fun x hx => by rw [hptr x hx]
      simp [htest, hfilter]

theorem settled_alloc_free_iff (k : Kernel) (err : Int) (hlive : test .live = true)
    (hp : test p = false) (hrs : rs.Nodup) :
    (∃ t, (allocEach k p err rs >>= fun _ => freeEach test rs) loaded = .ok ((), t) ∧ Settled t.log) ↔
      (rs.dropWhile k.succeeds).tail.filter (fun _ => test .null) = [] := by
  obtain ⟨e, s, hs, hlog, hfilter, -⟩ := allocEach_spec (s := loaded) k err hlive hp hrs
  obtain ⟨t, ht, hfree⟩ := freeEach_spec (s := s) test hrs
  have hsub : (rs.takeWhile k.succeeds ++
      (rs.dropWhile k.succeeds).tail.filter (fun _ => test .null)).Sublist rs := by
    conv => rhs; rw [← List.takeWhile_append_dropWhile (p := k.succeeds) (l := rs)]
    exact (List.Sublist.refl _).append (List.filter_sublist.trans (List.tail_sublist _))
  rw [hlog, hfilter] at hfree
  rw [← settled_unwind_iff (hrs.sublist hsub)]
  constructor
  · rintro ⟨u, hu, hsettled⟩
    rw [bind_of_ok hs, ht] at hu
    cases hu
    rw [hfree] at hsettled
    exact hsettled
  · intro hsettled
    refine ⟨t, (bind_of_ok hs).trans ht, ?_⟩
    rw [hfree]
    exact hsettled

theorem allocSlab_settled (k : Kernel) :
    ∃ t, (allocSlab k >>= fun _ => freeSlab) loaded = .ok ((), t) ∧ Settled t.log := by
  apply (settled_alloc_free_iff k enomem rfl rfl (by decide)).mpr
  simp

theorem allocBitmap_settled (k : Kernel) :
    ∃ t, (allocBitmap k >>= fun _ => freeBitmap k) loaded = .ok ((), t) ∧ Settled t.log := by
  have hnodup := k.nodup_online.map fun _ _ h => Resource.bitmap.inj h
  apply (settled_alloc_free_iff k enomem rfl rfl hnodup).mpr
  simp

theorem allocPercpuFile_settled_iff (k : Kernel) :
    (∃ t, (allocPercpuFile k >>= fun _ => freePercpuFile k) loaded = .ok ((), t) ∧ Settled t.log) ↔
      (k.online.dropWhile (fun cpu => k.succeeds (.file cpu))).tail = [] := by
  have hnodup := k.nodup_online.map fun _ _ h => Resource.file.inj h
  apply (settled_alloc_free_iff k enodev rfl rfl hnodup).trans
  rw [List.filter_eq_self.mpr (by simp), List.dropWhile_map, ← List.map_tail]
  exact List.map_eq_nil_iff

end Stages

theorem next_of_ok {x : Boot Int} {f g : Int → Boot Int} {s t : Loaded} (hx : x s = .ok (0, t)) :
    (x >>= fun err => if err < 0 then f err else g err) s = g 0 t := by
  rw [bind_of_ok hx]
  rfl

section Success

variable {s t u : Loaded} {rs' : List Resource}

structure Took (rs : List Resource) (s t : Loaded) : Prop where
  log : t.log = s.log ++ rs.map .acquire
  users : t.users = s.users
  pool : t.pool = s.pool

theorem Took.refl (s : Loaded) : Took [] s s := ⟨by simp, rfl, rfl⟩

theorem Took.take (r : Resource) (s : Loaded) : Took [r] s (s.take r) := ⟨rfl, rfl, rfl⟩

theorem log_trans (h : t.log = s.log ++ rs.map .acquire) (h' : u.log = t.log ++ rs'.map .acquire) :
    u.log = s.log ++ (rs ++ rs').map .acquire := by
  rw [h', h, List.map_append, List.append_assoc]

theorem Took.trans (h : Took rs s t) (h' : Took rs' t u) : Took (rs ++ rs') s u :=
  ⟨log_trans h.log h'.log, h'.users.trans h.users, h'.pool.trans h.pool⟩

theorem allocEach_took (p : Ptr) (err : Int) (h : ∀ r ∈ rs, k.succeeds r = true) (s : Loaded) :
    ∃ t, allocEach k p err rs s = .ok (0, t) ∧ Took rs s t := by
  induction rs generalizing s with
  | nil => exact ⟨s, rfl, .refl s⟩
  | cons r rs ih =>
    obtain ⟨hr, hrs⟩ := List.forall_mem_cons.mp h
    obtain ⟨t, ht, htook⟩ := ih hrs (s.take r)
    exact ⟨t, (bind_of_ok (acquire_ok hr p s)).trans ht, (Took.take r s).trans htook⟩

theorem forM_took (rs : List Resource) {f : Resource → Boot Unit}
    (h : ∀ r ∈ rs, ∀ s, f r s = .ok ((), s.take r)) (s : Loaded) : ∃ t, rs.forM f s = .ok ((), t) ∧ Took rs s t := by
  induction rs generalizing s with
  | nil => exact ⟨s, rfl, .refl s⟩
  | cons r rs ih =>
    obtain ⟨hr, hrs⟩ := List.forall_mem_cons.mp h
    obtain ⟨t, ht, htook⟩ := ih hrs (s.take r)
    exact ⟨t, (bind_of_ok (hr s)).trans ht, (Took.take r s).trans htook⟩

theorem nfRegisterHook_took (h : k.succeeds r = true) (s : Loaded) :
    nfRegisterHook k r s = .ok (0, s.take r) :=
  bind_of_ok (acquire_ok h _ s)

def hashTable : List Resource :=
  [.writereadWq, .hashTab, .bucketClear, .hashCachep, .printMemory] ++ bucketTimers ++ counters

theorem initialHashTableCache_took (hwq : k.succeeds .writereadWq = true)
    (htab : k.succeeds .hashTab = true) (hclear : k.succeeds .bucketClear = true)
    (hcache : k.succeeds .hashCachep = true) (hcount : ∀ r ∈ counters, k.succeeds r = true) (s : Loaded) :
    ∃ t, initialHashTableCache k s = .ok (0, t) ∧ Took hashTable s t := by
  let s1 := (((s.take .writereadWq).take .hashTab).take .bucketClear).take .hashCachep
  let s2 := { s1 with heads := true }.take .printMemory
  have h2 : Took [.writereadWq, .hashTab, .bucketClear, .hashCachep, .printMemory] s s2 := by
    refine ⟨?_, rfl, rfl⟩
    simp [s1, s2]
  obtain ⟨s3, hs3, h3⟩ := forM_took bucketTimers (f := arm) (fun _ _ _ => rfl) s2
  obtain ⟨t, ht, h4⟩ := forM_took counters (f := percpuCounterInit k)
    (fun r hr s => bind_of_ok (acquire_ok (hcount r hr) .null s)) s3
  refine ⟨t, ?_, (h2.trans h3).trans h4⟩
  simp only [initialHashTableCache, bind_of_ok (acquire_ok hwq _ _), bind_of_ok (acquire_ok htab _ _),
    bind_of_ok (acquire_ok hclear _ _), bind_of_ok (acquire_ok hcache _ _), Bool.not_true,
    Bool.false_eq_true, if_false]
  have hheads : (modify (fun s => { s with heads := true }) : Boot Unit) s1 =
      .ok ((), { s1 with heads := true }) := rfl
  have harm : arm .printMemory { s1 with heads := true } = .ok ((), s2) := rfl
  refine (bind_of_ok hheads).trans ((bind_of_ok harm).trans ((bind_of_ok hs3).trans ?_))
  exact bind_of_ok ht

theorem fillPool_took {cpus : List Nat} (pool : Pool)
    (h : ∀ r ∈ poolEntries cpus, k.succeeds r = true) (s : Loaded) :
    ∃ pool' t, fillPool k cpus pool s = .ok (some pool', t) ∧ Took (poolEntries cpus) s t := by
  induction cpus generalizing pool s with
  | nil => exact ⟨pool, s, rfl, .refl s⟩
  | cons cpu cpus ih =>
    rw [poolEntries, List.flatMap_cons] at h ⊢
    have hentry := h (.poolEntry cpu) (by simp)
    have hhash := h (.poolHash cpu) (by simp)
    obtain ⟨pool', t, ht, htook⟩ := ih (update pool cpu (some true))
      (fun r hr => h r (List.mem_append_right _ hr)) ((s.take (.poolEntry cpu)).take (.poolHash cpu))
    refine ⟨pool', t, ?_, ((Took.take _ s).trans (Took.take _ _)).trans htook⟩
    simp only [fillPool, bind_of_ok (acquire_ok hentry _ _), bind_of_ok (acquire_ok hhash _ _),
      Bool.not_true, Bool.false_eq_true, if_false]
    exact ht

theorem tcpAllocSha1sigPool_took (hpool : k.succeeds .pool = true)
    (h : ∀ r ∈ poolEntries k.possible, k.succeeds r = true) (hs : s.users = 0) (hnone : s.pool = none) :
    ∃ pool t, tcpAllocSha1sigPool k s = .ok (some pool, t) ∧
      t.log = s.log ++ (.pool :: poolEntries k.possible).map .acquire := by
  obtain ⟨pool, t, ht, htook⟩ := fillPool_took (fun _ => none) h ({ s with users := 1 }.take .pool)
  have halloc : allocPool k { s with users := s.users + 1 } = .ok (some pool, t) := by
    rw [hs, allocPool, bind_of_ok (acquire_ok hpool _ _)]
    exact ht
  have hget : ∀ s, (get : Boot Loaded) s = .ok (s, s) := fun _ => rfl
  have hset : (set { s with users := s.users + 1 } : Boot PUnit) s =
      .ok ((), { s with users := s.users + 1 }) := rfl
  refine ⟨pool, { t with pool := some pool }, ?_, ?_⟩
  · rw [tcpAllocSha1sigPool, bind_of_ok (hget s), if_pos hs, bind_of_ok hset, bind_of_ok halloc]
    refine (bind_of_ok (hget t)).trans ?_
    rw [htook.pool.trans hnone]
    rfl
  · simp [htook.log]

end Success

section Leaks

def Leaks (s : Loaded) : Prop := .acquire .skbWq ∈ s.log ∧ .release .skbWq ∉ s.log

theorem leaks_take (r : Resource) (s : Loaded) (hs : Leaks s) : Leaks (s.take r) := by
  simpa [Leaks] using ⟨.inl hs.1, hs.2⟩

theorem leaks_give (hr : r ≠ .skbWq) (s : Loaded) (hs : Leaks s) : Leaks (s.give r) := by
  simpa [Leaks, hr.symm] using hs

theorem leaks_acquire (k : Kernel) (p : Ptr) (r : Resource) : Stable Leaks (acquire k p r) := by
  apply Stable.ite
  · exact (Stable.update (leaks_take r)).bind fun _ => .pure _
  · exact Stable.bind (.update fun _ hs => hs) fun _ => .pure _

theorem leaks_release (hr : r ≠ .skbWq) : Stable Leaks (release r) := .update (leaks_give hr)

theorem leaks_allocEach (k : Kernel) (p : Ptr) (err : Int) (rs : List Resource) :
    Stable Leaks (allocEach k p err rs) := by
  induction rs with
  | nil => exact .pure _
  | cons r rs ih => exact (leaks_acquire k p r).bind fun _ => .ite (.pure _) ih

theorem leaks_freeEach {test : Ptr → Bool} (h : .skbWq ∉ rs) : Stable Leaks (freeEach test rs) := by
  induction rs with
  | nil => exact .pure _
  | cons r rs ih =>
    obtain ⟨hr, hrs⟩ := List.ne_and_not_mem_of_not_mem_cons h
    apply Stable.get
    intro s _
    apply Stable.ite
    · exact (leaks_release hr.symm).bind fun _ => ih hrs
    · exact ih hrs

theorem leaks_initialHashTableCache (k : Kernel) : Stable Leaks (initialHashTableCache k) := by
  refine (leaks_acquire k _ _).bind fun _ => .ite (.pure _) ?_
  refine (leaks_acquire k _ _).bind fun _ => .ite (.pure _) ?_
  refine (leaks_acquire k _ _).bind fun _ => .ite (.pure _) ?_
  refine (leaks_acquire k _ _).bind fun _ => .ite ?_ ?_
  · exact (leaks_release (by decide)).bind fun _ => .pure _
  refine Stable.bind (.update fun _ hs => hs) fun _ => ?_
  refine Stable.bind (.update (leaks_take _)) fun _ => ?_
  refine Stable.bind (.forM fun r _ => .update (leaks_take r)) fun _ => ?_
  refine Stable.bind (.forM fun r _ => ?_) fun _ => .pure _
  exact (leaks_acquire k _ r).bind fun _ => .pure _

theorem leaks_releaseHashTableCache : Stable Leaks releaseHashTableCache := by
  refine Stable.bind (.get fun _ _ => .ite (.pure _) (.throw _)) fun _ => ?_
  refine (leaks_release (by decide)).bind fun _ => ?_
  refine (leaks_freeEach (by decide)).bind fun _ => ?_
  refine Stable.bind (.forM fun r hr => leaks_release ?_) fun _ => ?_
  · rintro rfl
    simp [bucketTimers] at hr
  refine (leaks_release (by decide)).bind fun _ => ?_
  exact (leaks_release (by decide)).bind fun _ => leaks_release (by decide)

theorem leaks_freePool (k : Kernel) (pool : Pool) : Stable Leaks (freePool k pool) := by
  refine Stable.bind (.forM fun cpu _ => ?_) fun _ => leaks_release (by decide)
  cases pool cpu with
  | none => exact .pure _
  | some tfm =>
    apply Stable.ite
    · exact (leaks_release (by simp)).bind fun _ => leaks_release (by simp)
    · exact leaks_release (by simp)

theorem leaks_fillPool (k : Kernel) (cpus : List Nat) (pool : Pool) : Stable Leaks (fillPool k cpus pool) := by
  induction cpus generalizing pool with
  | nil => exact .pure _
  | cons cpu cpus ih =>
    refine (leaks_acquire k _ _).bind fun _ => .ite ?_ ?_
    · exact (leaks_freePool k _).bind fun _ => .pure _
    refine (leaks_acquire k _ _).bind fun _ => .ite ?_ (ih _)
    exact (leaks_freePool k _).bind fun _ => .pure _

theorem leaks_tcpAllocSha1sigPool (k : Kernel) : Stable Leaks (tcpAllocSha1sigPool k) := by
  apply Stable.get
  intro s hs
  apply Stable.ite
  · refine Stable.bind (.set hs) fun _ => ?_
    refine Stable.bind ((leaks_acquire k _ _).bind fun _ => .ite (.pure _) (leaks_fillPool k _ _)) fun p => ?_
    cases p with
    | none => exact Stable.bind (.update fun _ hs => hs) fun _ => .pure _
    | some p =>
      apply Stable.get
      intro t _
      cases t.pool with
      | none => exact Stable.bind (.update fun _ hs => hs) fun _ => .pure _
      | some pool => exact (leaks_freePool k p).bind fun _ => .pure _
  · cases s.pool with
    | none => exact .throw _
    | some pool => exact Stable.bind (.set hs) fun _ => .pure _

theorem leaks_tcpFreeSha1sigPool (k : Kernel) : Stable Leaks (tcpFreeSha1sigPool k) := by
  apply Stable.get
  intro s hs
  apply Stable.ite
  · refine Stable.bind (.set hs) fun _ => ?_
    cases s.pool with
    | none => exact .pure _
    | some pool => exact leaks_freePool k pool
  · exact .set hs

theorem leaks_nfRegisterHook (k : Kernel) (r : Resource) : Stable Leaks (nfRegisterHook k r) :=
  (leaks_acquire k _ r).bind fun _ => .ite (.pure _) (.pure _)

theorem leaks_errBitmap (k : Kernel) : Stable Leaks (errBitmap k) := by
  refine (leaks_freeEach (by simp)).bind fun _ => ?_
  exact (leaks_freeEach (by decide)).bind fun _ => leaks_freeEach (by simp)

theorem leaks_errNfRegOut (k : Kernel) : Stable Leaks (errNfRegOut k) := by
  refine (leaks_release (by decide)).bind fun _ => ?_
  exact leaks_releaseHashTableCache.bind fun _ => leaks_errBitmap k

theorem leaks_errNfRegIn (k : Kernel) : Stable Leaks (errNfRegIn k) :=
  (leaks_release (by decide)).bind fun _ => leaks_errNfRegOut k

theorem initSomeParameters_ok (h : k.succeeds .skbWq = true) (s : Loaded) :
    initSomeParameters k s = .ok (0, s.take .skbWq) := by
  rw [initSomeParameters, bind_of_ok (acquire_ok h _ s)]
  rfl

theorem leaks_minit {err : Int} {s : Loaded} (hq : k.succeeds .skbWq = true)
    (h : minit k loaded = .ok (err, s)) : Leaks s := by
  have hstart : Leaks (loaded.take .skbWq) := by
    simp [Leaks, loaded]
  rw [minit, next_of_ok (initSomeParameters_ok hq loaded)] at h
  refine (?_ : Stable Leaks _) _ _ _ h hstart
  refine (leaks_allocEach k _ _ _).bind fun _ => .ite ?_ ?_
  · exact (leaks_freeEach (by simp)).bind fun _ => .pure _
  refine (leaks_allocEach k _ _ _).bind fun _ => .ite ?_ ?_
  · refine Stable.bind ?_ fun _ => .pure _
    exact (leaks_freeEach (by decide)).bind fun _ => leaks_freeEach (by simp)
  refine (leaks_allocEach k _ _ _).bind fun _ => .ite ?_ ?_
  · exact (leaks_errBitmap k).bind fun _ => .pure _
  refine (leaks_initialHashTableCache k).bind fun _ => .ite ?_ ?_
  · refine Stable.bind ?_ fun _ => .pure _
    exact leaks_releaseHashTableCache.bind fun _ => leaks_errBitmap k
  refine (leaks_nfRegisterHook k _).bind fun _ => .ite ?_ ?_
  · exact (leaks_errNfRegOut k).bind fun _ => .pure _
  refine (leaks_nfRegisterHook k _).bind fun _ => .ite ?_ ?_
  · exact (leaks_errNfRegIn k).bind fun _ => .pure _
  refine (leaks_tcpAllocSha1sigPool k).bind fun pool => ?_
  cases pool with
  | none =>
    refine Stable.bind ?_ fun _ => .pure _
    exact (leaks_tcpFreeSha1sigPool k).bind fun _ => leaks_errNfRegIn k
  | some pool =>
    refine Stable.bind ?_ fun _ => .ite (.pure _) ?_
    · exact (leaks_acquire k _ _).bind fun _ => .ite (.pure _) (.pure _)
    · exact Stable.bind (.update fun _ hs => hs) fun _ => .pure _

end Leaks

theorem minit_queue_fails (h : k.succeeds .skbWq = false) :
    ∃ s, minit k loaded = .ok (-1, s) ∧ s.log = [] := by
  have hinit : initSomeParameters k loaded =
      .ok (-1, { loaded with ptr := update loaded.ptr .skbWq .null }) := by
    rw [initSomeParameters, bind_of_ok (acquire_fails h _ loaded)]
    rfl
  refine ⟨{ loaded with ptr := update loaded.ptr .skbWq .null }, ?_, rfl⟩
  rw [minit, bind_of_ok hinit]
  rfl

theorem minit_all_or_nothing_iff (k : Kernel) :
    AllOrNothing k ↔ k.AllSucceed ∨ k.succeeds .skbWq = false := by
  constructor
  · rintro ⟨hfail, -⟩
    by_cases hall : k.AllSucceed
    · exact .inl hall
    · right
      obtain ⟨err, s, hrun, -, hsettled⟩ := hfail hall
      by_contra hq
      obtain ⟨hacq, hrel⟩ := leaks_minit (by simpa using hq) hrun
      have hone := (hsettled .skbWq).1 hacq
      exact hrel (List.count_pos_iff.mp (by omega))
  · rintro (hall | hq)
    · exact ⟨fun hno => absurd hall hno, fun _ _ => hall⟩
    · obtain ⟨s, hrun, hlog⟩ := minit_queue_fails hq
      refine ⟨fun _ => ⟨-1, s, hrun, by decide, ?_⟩, fun t ht => ?_⟩
      · rw [hlog]
        exact settled_nil
      · rw [hrun] at ht
        cases ht

def fileMissing : Kernel :=
  { online := [0, 1]
    possible := [0, 1]
    succeeds := fun r => r ≠ .file 0
    errno := fun _ => -1
    nodup_online := by decide
    nodup_possible := by decide
    errno_neg := fun _ => by decide }

theorem minit_not_all_or_nothing :
    (∃ s, minit fileMissing loaded = .ok (enodev, s) ∧
      s.log = [.acquire .skbWq, .release (.file 1)]) ∧ ¬AllOrNothing fileMissing := by
  have hrun : ∃ s, minit fileMissing loaded = .ok (enodev, s) ∧
      s.log = [.acquire .skbWq, .release (.file 1)] := ⟨_, rfl, rfl⟩
  refine ⟨hrun, ?_⟩
  rintro ⟨hfail, -⟩
  have hnot : ¬fileMissing.AllSucceed := by
    intro hall
    have := hall (.file 0) (by simp [Kernel.steps, fileMissing])
    simp [fileMissing] at this
  obtain ⟨t, ht, hlog⟩ := hrun
  obtain ⟨err, s, hs, -, hsettled⟩ := hfail hnot
  rw [ht] at hs
  cases hs
  rw [hlog] at hsettled
  exact (hsettled (.file 1)).2 (by decide) (by decide)

def Kernel.acquired (k : Kernel) : List Resource :=
  [Resource.skbWq] ++ k.online.map Resource.file ++ slabs ++ k.online.map Resource.bitmap ++ hashTable ++
    ([Resource.nfOut] ++ [Resource.nfIn]) ++ (Resource.pool :: poolEntries k.possible) ++ [Resource.jprobe]

theorem minit_succeeds (h : k.AllSucceed) :
    ∃ s, minit k loaded = .ok (0, s) ∧ s.log = k.acquired.map .acquire := by
  simp only [Kernel.AllSucceed, Kernel.steps, List.flatten_cons, List.forall_mem_append] at h
  obtain ⟨hq, hfile, hslab, hbitmap, htable, hcount, hhook, hentry, hjprobe, -⟩ := h
  obtain ⟨s2, hs2, h2⟩ := allocEach_took .err enodev hfile (loaded.take .skbWq)
  obtain ⟨s3, hs3, h3⟩ := allocEach_took .null enomem hslab s2
  obtain ⟨s4, hs4, h4⟩ := allocEach_took .null enomem hbitmap s3
  obtain ⟨s5, hs5, h5⟩ := initialHashTableCache_took (htable _ (by simp)) (htable _ (by simp))
    (htable _ (by simp)) (htable _ (by simp)) hcount s4
  have h6 := (((((Took.take .skbWq loaded).trans h2).trans h3).trans h4).trans h5).trans
    ((Took.take .nfOut s5).trans (Took.take .nfIn _))
  obtain ⟨pool, s7, hs7, h7⟩ := tcpAllocSha1sigPool_took (hhook _ (by simp)) hentry h6.users h6.pool
  have hprobe : registerJprobe k s7 = .ok (0, s7.take .jprobe) :=
    bind_of_ok (acquire_ok (hjprobe _ (by simp)) _ s7)
  refine ⟨{ s7.take .jprobe with kprobeInReged := true }, ?_, ?_⟩
  · rw [minit, next_of_ok (initSomeParameters_ok (hq _ (by simp)) loaded), allocPercpuFile, next_of_ok hs2,
      allocSlab, next_of_ok hs3, allocBitmap, next_of_ok hs4, next_of_ok hs5,
      next_of_ok (nfRegisterHook_took (hhook .nfOut (by simp)) s5),
      next_of_ok (nfRegisterHook_took (hhook .nfIn (by simp)) _), bind_of_ok hs7]
    exact next_of_ok hprobe
  · exact log_trans (log_trans h6.log h7) rfl

end Wspack.KernelHash.Init
