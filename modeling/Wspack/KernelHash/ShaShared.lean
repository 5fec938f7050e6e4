import Wspack.KernelHash.ShaCounts
import Wspack.KernelHash.ShaMemory

namespace Wspack.KernelHash.ShaPool

open Function (update update_self update_of_ne)
open Lib
open Init (Kernel Pool)

variable {ι : Type} [DecidableEq ι] {k : Kernel} {digest : List UInt8 → Digest} {s t : State ι} {i : ι} {a : Act}
  {p : Nat}

section Inv

variable [Fintype ι]

structure Inv (k : Kernel) (digest : List UInt8 → Digest) (s : State ι) : Prop where
  counts : Counts s.users s.pool s.pcs
  memory : Memory k s.pool s.pcs s.next s.entries s.log
  contents : Contents k digest s.desc s.pcs s.returns

omit [DecidableEq ι] in
theorem Inv.start : Inv k digest (State.start : State ι) := ⟨.start, .start _, .start⟩

/-- `get_cpu` gives a CPU on which no other caller is before its `put_cpu`. -/
def Admits (k : Kernel) (s : State ι) (a : ι × Act) : Prop :=
  ∀ job, a.2 = .callHash job → job.cpu ∈ k.possible ∧ ∀ j, (s.pcs j).cpu ≠ some job.cpu

omit [DecidableEq ι] [Fintype ι] in
theorem freeLog_eq (k : Kernel) (s : State ι) (p : Nat) : freeLog k s p =
    if s.live p .pool then .ok { s with
      log := s.log ++ ((held k.possible (s.entries p)).map Event.release).map (Prod.mk p) }
    else .error .useAfterFree := by
  obtain ⟨t, ht, hlog⟩ := freePool_log k (s.entries p) Init.loaded
  rw [freeLog, ht]
  dsimp only
  rw [hlog]
  rfl

omit [DecidableEq ι] [Fintype ι] in
theorem returns_right {desc : Nat → Nat → List UInt8} {call : Option (Job × Option Digest)}
    (h : (Pc.free p call).Fed digest desc) :
    ∀ r ∈ (call.map fun c => Return.of c.1 c.2).toList, r.Right digest := by
  obtain _ | ⟨job, out⟩ := call
  · simp
  · intro r hr
    rw [List.mem_singleton.mp hr]
    refine Return.of_right fun d hd => ?_
    cases hd
    exact h

theorem Inv.leave (h : Inv k digest s) {call : Option (Job × Option Digest)} (hpc : (s.pcs i).uses = some p)
    (hown : ∀ q, (s.pcs i).owns q = false) (hcpu : ∀ c, (Pc.free p call).cpu = some c → (s.pcs i).cpu = some c)
    (hfed : (Pc.free p call).Fed digest s.desc) : Inv k digest (tcpFreeSha1sigPool s i call) := by
  have hpool := h.counts.pool_of_uses hpc
  rw [tcpFreeSha1sigPool, hpool]
  dsimp only
  split_ifs with hzero
  · have hcounts : Counts _ (if s.users - 1 = 0 then none else s.pool) (update s.pcs i (.free p call)) :=
      h.counts.leave hpc rfl rfl
    rw [if_pos hzero] at hcounts
    exact ⟨hcounts, h.memory.taken hpool hown fun _ => rfl, h.contents.move hcpu hfed fun _ _ _ => rfl⟩
  · have hcounts : Counts _ (if s.users - 1 = 0 then none else s.pool) (update s.pcs i .idle) :=
      h.counts.leave hpc rfl rfl
    have hmem : Memory k s.pool (update s.pcs i .idle) s.next s.entries s.log :=
      h.memory.move fun q => (hown q).symm
    have hidle : Contents k digest s.desc (update s.pcs i .idle) s.returns := h.contents.quiet rfl trivial
    rw [if_neg hzero, hpool] at hcounts
    rw [hpool] at hmem
    exact ⟨hcounts, hmem, hidle.returned (returns_right hfed)⟩

theorem Steps.inv (h : Steps k digest s i a t) (hcard : Fintype.card ι < 2 ^ 64) (hc : Admits k s (i, a))
    (hs : Inv k digest s) : Inv k digest t := by
  obtain ⟨hcounts, hmem, hcont⟩ := hs
  cases h with
  | callAlloc h =>
    exact ⟨hcounts.move (by rw [h]; rfl) (by rw [h]; rfl) rfl, hmem.move fun p => by rw [h]; rfl,
      hcont.quiet rfl trivial⟩
  | first h hu =>
    exact ⟨hcounts.first hcard hu, hmem.move fun p => by rw [h]; rfl,
      hcont.quiet rfl trivial⟩
  | spin h hu hp => exact ⟨hcounts, hmem, hcont⟩
  | join h hu hp =>
    exact ⟨hcounts.enter hp hcard (by rw [h]; rfl) rfl rfl rfl, hmem.move fun p => by rw [h]; rfl,
      hcont.quiet rfl trivial⟩
  | @built succeeds pool t h hb =>
    obtain ⟨res, t', ht, hspec⟩ := allocPool_log { k with succeeds := succeeds }
    cases hb.symm.trans ht
    exact ⟨hcounts.move (by rw [h]; rfl) (by rw [h]; rfl) rfl, hmem.built h hspec.1 hspec.2,
      hcont.quiet rfl trivial⟩
  | @notBuilt succeeds t h hb =>
    obtain ⟨res, t', ht, hspec⟩ := allocPool_log { k with succeeds := succeeds }
    cases hb.symm.trans ht
    exact ⟨hcounts.move (by rw [h]; rfl) (by rw [h]; rfl) rfl, hmem.notBuilt h hspec,
      hcont.quiet rfl trivial⟩
  | giveUp h =>
    exact ⟨hcounts.giveUp (by rw [h]; rfl), hmem.move fun p => by rw [h]; rfl,
      hcont.quiet rfl trivial⟩
  | late h hp =>
    rw [hcounts.pool_of_building (i := i) (by rw [h]; rfl)] at hp
    cases hp
  | @assign p h hp =>
    exact ⟨hcounts.assign (by rw [h]; rfl), hmem.assigned hp (fun q => by rw [h]; rfl) fun _ => rfl,
      hcont.quiet rfl trivial⟩
  | discard h hf => exact absurd (hcounts.late i) (by rw [h]; simp [Pc.late])
  | callFree h =>
    exact Inv.leave ⟨hcounts, hmem, hcont⟩ (by rw [h]; rfl) (fun q => by rw [h]; rfl) (fun _ hc => by cases hc)
      trivial
  | @miss job h hp =>
    obtain ⟨hpos, hfree⟩ := hc job rfl
    exact ⟨hcounts.move (by rw [h]; rfl) (by rw [h]; rfl) rfl, hmem.move fun p => by rw [h]; rfl,
      hcont.enter rfl hpos hfree trivial⟩
  | @take job p h hp =>
    obtain ⟨hpos, hfree⟩ := hc job rfl
    exact ⟨hcounts.enter hp hcard (by rw [h]; rfl) rfl rfl rfl, hmem.move fun p => by rw [h]; rfl,
      hcont.enter rfl hpos hfree trivial⟩
  | refuse h =>
    have hidle : Contents k digest s.desc (update s.pcs i .idle) s.returns := hcont.quiet rfl trivial
    refine ⟨hcounts.move (by rw [h]; rfl) (by rw [h]; rfl) rfl, hmem.move fun p => by rw [h]; rfl,
      hidle.returned fun r hr => ?_⟩
    rw [List.mem_singleton.mp hr]
    exact Return.of_right fun d hd => by cases hd
  | @noEntry job p h he =>
    have hpool := hcounts.pool_of_uses (i := i) (p := p) (by rw [h]; rfl)
    have hpos := hcont.possible i job.cpu (by rw [h]; rfl)
    rw [(hmem.holds p (hmem.owners_of_pool hpool)).2 job.cpu hpos] at he
    cases he
  | @entry job p h =>
    exact ⟨hcounts.move (by rw [h]; rfl) (by rw [h]; rfl) rfl, hmem.move fun p => by rw [h]; rfl,
      hcont.stay (by rw [h]; rfl) trivial⟩
  | @crypto ok stage job p h =>
    have hfed := hcont.fed i
    have hcpu : (s.pcs i).cpu = some job.cpu := by rw [h]; rfl
    rw [h] at hfed
    have hdesc : ∀ (d : List UInt8) q c, (s.pcs i).cpu ≠ some c →
        update s.desc p (update (s.desc p) job.cpu d) q c = s.desc q c := fun d q c hne => by
      have hcc : c ≠ job.cpu := fun hcc => hne (hcc ▸ hcpu)
      by_cases hqp : q = p
      · rw [hqp, update_self, update_of_ne hcc]
      · rw [update_of_ne hqp]
    have hself : ∀ d : List UInt8, update s.desc p (update (s.desc p) job.cpu d) p job.cpu = d := by simp
    cases ok with
    | false =>
      have hfails : Inv k digest (s.goto i (.put job p none)) :=
        ⟨hcounts.move (by rw [h]; rfl) (by rw [h]; rfl) rfl, hmem.move fun p => by rw [h]; rfl,
          hcont.stay hcpu.symm trivial⟩
      cases stage <;> exact hfails
    | true =>
      cases stage with
      | init =>
        exact ⟨hcounts.move (by rw [h]; rfl) (by rw [h]; rfl) rfl, hmem.move fun p => by rw [h]; rfl,
          hcont.move (fun _ hc => hcpu.trans hc) (hself []) (hdesc _)⟩
      | update =>
        refine ⟨hcounts.move (by rw [h]; rfl) (by rw [h]; rfl) rfl, hmem.move fun p => by rw [h]; rfl,
          hcont.move (fun _ hc => hcpu.trans hc) ?_ (hdesc _)⟩
        exact (hself _).trans (congrArg (· ++ job.src) hfed)
      | final =>
        refine ⟨hcounts.move (by rw [h]; rfl) (by rw [h]; rfl) rfl, hmem.move fun p => by rw [h]; rfl,
          hcont.stay hcpu.symm ?_⟩
        exact congrArg digest hfed
  | @put job p d h =>
    have hfed := hcont.fed i
    rw [h] at hfed
    refine Inv.leave ⟨hcounts, hmem, hcont⟩ (by rw [h]; rfl) (fun q => by rw [h]; rfl) ?_ ?_
    · rw [h]
      exact fun _ hc => hc
    · cases d with
      | none => trivial
      | some d => exact hfed
  | @free p call t h hf =>
    rw [freeLog_eq] at hf
    split_ifs at hf
    cases hf
    have hfed := hcont.fed i
    rw [h] at hfed
    have hidle : Contents k digest s.desc (update s.pcs i .idle) s.returns := hcont.quiet rfl trivial
    refine ⟨hcounts.move (by rw [h]; rfl) (by rw [h]; rfl) rfl, hmem.freed (by rw [h]; simp [Pc.owns]) ?_ fun _ => rfl,
      hidle.returned (returns_right hfed)⟩
    intro q hq
    rw [h] at hq
    exact (beq_iff_eq.mp hq).symm

theorem run_inv (hcard : Fintype.card ι < 2 ^ 64) {as : List (ι × Act)}
    (hr : Run (step k digest) (Admits k) State.start as s) : Inv k digest s :=
  hr.invariant (fun _ _ _ hc he hs => (steps_of_step he).inv hcard hc hs) .start

omit [DecidableEq ι] in
theorem Inv.live {r : Init.Resource} (h : Inv k digest s) (hp : owners s.pool s.pcs p = 1)
    (hr : r ∈ held k.possible (s.entries p)) : s.live p r = true := by
  obtain ⟨xs, hlog, hmem⟩ := (h.memory.holds p hp).1
  rw [State.live, hlog, decide_eq_true_eq]
  exact ⟨List.mem_map_of_mem ((hmem r).mpr hr), by simp⟩

theorem pool_mem_held (cpus : List Nat) (pool : Pool) : .pool ∈ held cpus pool := by simp [held]

theorem Inv.no_fault (h : Inv k digest s) (a : ι × Act) : step k digest s a ≠ .error .useAfterFree := by
  have huses : ∀ {p}, (s.pcs a.1).uses = some p → owners s.pool s.pcs p = 1 := fun hp =>
    h.memory.owners_of_pool (h.counts.pool_of_uses hp)
  have hfree : ∀ {p}, (s.pcs a.1).owns p = true → s.live p .pool = true := fun {p} hp => by
    refine h.live ?_ (pool_mem_held _ _)
    have honce := h.memory.once p
    have hpos := parties_pos (P := Pc.owns p) hp
    rw [owners] at honce ⊢
    omega
  fun_cases step k digest s a with
  | case11 p pool hpc ha =>
    rw [freeLog_eq, if_pos (hfree (by rw [hpc]; simp [Pc.owns]))]
    simp [Except.map]
  | case18 job p hpc ha hlive =>
    exact absurd (h.live (huses (by rw [hpc]; rfl)) (pool_mem_held _ _)) hlive
  | case20 ok stage job p hpc ha hlive =>
    have howners := huses (p := p) (by rw [hpc]; rfl)
    have hpos := h.contents.possible a.1 job.cpu (by rw [hpc]; rfl)
    have hfull := (h.memory.holds p howners).2 job.cpu hpos
    have hmem : ∀ r ∈ entryOf job.cpu (some true), s.live p r = true := fun r hr => h.live howners <|
      List.mem_append_left _ (List.mem_flatMap.mpr ⟨job.cpu, hpos, by rwa [hfull]⟩)
    rw [hmem _ (by simp [entryOf]), hmem _ (by simp [entryOf])] at hlive
    exact absurd rfl hlive
  | case22 p call hpc ha =>
    rw [freeLog_eq, if_pos (hfree (by rw [hpc]; simp [Pc.owns]))]
    simp [Except.map]
  | _ => simp

end Inv

section Sample

def twoCpus : Kernel := { Init.fileMissing with succeeds := fun _ => true }

def shaOfAbc (src : List UInt8) : Digest :=
  if src = [97, 98, 99] then
    #v[169, 153, 62, 54, 71, 6, 129, 106, 186, 62, 37, 113, 120, 80, 194, 108, 156, 208, 216, 157]
  else Vector.replicate 20 0

def admits (s : State (Fin 3)) (a : Fin 3 × Act) : Bool :=
  match a.2 with
  | .callHash job => decide (job.cpu ∈ twoCpus.possible) && decide (∀ j, (s.pcs j).cpu ≠ some job.cpu)
  | _ => true

theorem admits_of_admits {s : State (Fin 3)} {a : Fin 3 × Act} (h : admits s a = true) : Admits twoCpus s a := by
  intro job ha
  simpa [admits, ha] using h

def sampleActs : List (Fin 3 × Act) :=
  [(0, .callAlloc), (0, .lock), (1, .callAlloc), (1, .lock), (0, .build fun _ => true), (0, .assign), (1, .lock),
    (2, .callHash ⟨1, [97, 98, 99]⟩), (2, .perCpu), (0, .callFree), (2, .crypto true), (2, .crypto true),
    (2, .crypto true), (1, .callFree), (2, .put), (2, .freePool)]

end Sample

section Inv

variable [Fintype ι]

def Pc.weight : Pc → Nat
  | .idle => 0
  | .free _ _ => 1
  | .holds _ => 2
  | .put _ _ _ => 2
  | .oops _ _ => 3
  | .hash .final _ _ => 3
  | .hash .update _ _ => 4
  | .hash .init _ _ => 5
  | .assign _ => 4
  | .alloc => 5
  | .got _ _ => 6
  | .retry => 6

theorem Pc.weight_le (pc : Pc) : pc.weight ≤ 6 := by
  fun_cases Pc.weight pc <;> simp

def Act.calls : Act → Bool
  | .callAlloc => true
  | .callHash _ => true
  | _ => false

theorem total_weight_lt {pcs : ι → Pc} {pc : Pc} (h : pc.weight < (pcs i).weight) :
    total Pc.weight (update pcs i pc) < total Pc.weight pcs := by
  have hmove := total_update Pc.weight pcs i pc
  omega

theorem tcpFree_weight {call : Option (Job × Option Digest)} (h : 1 < (s.pcs i).weight) :
    total Pc.weight (tcpFreeSha1sigPool s i call).pcs < total Pc.weight s.pcs := by
  rw [tcpFreeSha1sigPool]
  dsimp only
  split_ifs
  · split
    · exact total_weight_lt h
    · exact total_weight_lt (Nat.lt_of_le_of_lt (Nat.zero_le 1) h)
  · exact total_weight_lt (Nat.lt_of_le_of_lt (Nat.zero_le 1) h)

theorem Steps.weight (h : Steps k digest s i a t) (ha : a.calls = false) :
    s.pcs i = .retry ∧ s.users ≠ 0 ∧ s.pool = none ∧ t = s ∨
      total Pc.weight t.pcs < total Pc.weight s.pcs := by
  have hlt : ∀ {pc : Pc}, pc.weight < (s.pcs i).weight → total Pc.weight (update s.pcs i pc) < total Pc.weight s.pcs :=
    total_weight_lt
  cases h with
  | callAlloc h => cases ha
  | miss h hp => cases ha
  | take h hp => cases ha
  | spin h hu hp => exact .inl ⟨h, hu, hp, rfl⟩
  | callFree h => exact .inr (tcpFree_weight (by simp [h, Pc.weight]))
  | put h => exact .inr (tcpFree_weight (by simp [h, Pc.weight]))
  | @crypto ok stage job p h => cases ok <;> cases stage <;> exact .inr (hlt (by simp [h, Pc.weight]))
  | discard h hf =>
    rw [freeLog_eq] at hf
    split_ifs at hf
    cases hf
    exact .inr (hlt (by simp [h, Pc.weight]))
  | free h hf =>
    rw [freeLog_eq] at hf
    split_ifs at hf
    cases hf
    exact .inr (hlt (by simp [h, Pc.weight]))
  | first h hu => exact .inr (hlt (by simp [h, Pc.weight]))
  | join h hu hp => exact .inr (hlt (by simp [h, Pc.weight]))
  | built h hb => exact .inr (hlt (by simp [h, Pc.weight]))
  | notBuilt h hb => exact .inr (hlt (by simp [h, Pc.weight]))
  | giveUp h => exact .inr (hlt (by simp [h, Pc.weight]))
  | late h hp => exact .inr (hlt (by simp [h, Pc.weight]))
  | assign h hp => exact .inr (hlt (by simp [h, Pc.weight]))
  | refuse h => exact .inr (hlt (by simp [h, Pc.weight]))
  | noEntry h he => exact .inr (hlt (by simp [h, Pc.weight]))
  | entry h => exact .inr (hlt (by simp [h, Pc.weight]))

def Pc.due : Pc → Act
  | .retry => .lock
  | .alloc => .build fun _ => true
  | .assign _ => .assign
  | .oops _ _ => .discard
  | .holds _ => .callFree
  | .got _ _ => .perCpu
  | .hash _ _ _ => .crypto true
  | .put _ _ _ => .put
  | .free _ _ => .freePool
  | .idle => .callAlloc

theorem Inv.exists_step (h : Inv k digest s) (i : ι) : ∃ t, step k digest s (i, (s.pcs i).due) = .ok t := by
  cases hstep : step k digest s (i, (s.pcs i).due) with
  | ok t => exact ⟨t, rfl⟩
  | error e =>
    cases e with
    | useAfterFree => exact absurd hstep (h.no_fault _)
    | disabled =>
      exfalso
      cases hpc : s.pcs i with
      | alloc =>
        obtain ⟨res, t, ht, -⟩ := allocPool_log { k with succeeds := fun _ => true }
        simp only [step, Pc.due, hpc, ht] at hstep
        cases res <;> cases hstep
      | retry =>
        simp only [step, Pc.due, hpc] at hstep
        split_ifs at hstep
        split at hstep <;> cases hstep
      | assign p =>
        cases p with
        | none => simp [step, Pc.due, hpc] at hstep
        | some p =>
          simp only [step, Pc.due, hpc] at hstep
          split at hstep <;> cases hstep
      | got job p =>
        cases p with
        | none => simp [step, Pc.due, hpc] at hstep
        | some p =>
          simp only [step, Pc.due, hpc] at hstep
          split_ifs at hstep
          · split at hstep <;> cases hstep
          · cases hstep
      | hash stage job p =>
        simp only [step, Pc.due, hpc] at hstep
        split_ifs at hstep
        cases hstep
      | oops p pool =>
        simp only [step, Pc.due, hpc, freeLog_eq] at hstep
        split_ifs at hstep <;> cases hstep
      | free p call =>
        simp only [step, Pc.due, hpc, freeLog_eq] at hstep
        split_ifs at hstep <;> cases hstep
      | _ => simp [step, Pc.due, hpc] at hstep

omit [DecidableEq ι] in
theorem Counts.pool_of_users {users : UInt64} {pool : Option Nat} {pcs : ι → Pc} (h : Counts users pool pcs)
    (hu : users ≠ 0) (hb : ∀ i, (pcs i).building = false) : ∃ p, pool = some p := by
  cases hp : pool with
  | some p => exact ⟨p, rfl⟩
  | none =>
    obtain ⟨huses, -⟩ := h.unassigned hp
    have hzero : parties Pc.counted pcs = 0 := parties_eq_zero.mpr fun i => by simp [Pc.counted, huses, hb]
    exact absurd (UInt64.toNat_inj.mp (h.counted.trans hzero : users.toNat = (0 : UInt64).toNat)) hu

theorem Inv.gets_on (h : Inv k digest s) (hpc : s.pcs i ≠ .idle)
    (hb : s.pcs i = .retry → ∀ j, (s.pcs j).building = false) :
    ∃ a t, a.calls = false ∧ step k digest s (i, a) = .ok t ∧
      total Pc.weight t.pcs < total Pc.weight s.pcs := by
  obtain ⟨t, ht⟩ := h.exists_step i
  have hcall : (s.pcs i).due.calls = false := by
    cases hi : s.pcs i <;> first | rfl | exact absurd hi hpc
  refine ⟨_, t, hcall, ht, ?_⟩
  rcases (steps_of_step ht).weight hcall with ⟨hretry, hu, hp, -⟩ | hlt
  · obtain ⟨p, hp'⟩ := h.counts.pool_of_users hu (hb hretry)
    rw [hp] at hp'
    cases hp'
  · exact hlt

theorem Inv.someone_gets_on (h : Inv k digest s) (hpc : s.pcs i ≠ .idle) :
    ∃ a t, a.2.calls = false ∧ step k digest s a = .ok t ∧ t ≠ s := by
  have hmoves : ∀ {j}, s.pcs j ≠ .idle → (s.pcs j = .retry → ∀ l, (s.pcs l).building = false) →
      ∃ a t, a.2.calls = false ∧ step k digest s a = .ok t ∧ t ≠ s := fun {j} hj hb => by
    obtain ⟨a, t, ha, ht, hlt⟩ := h.gets_on hj hb
    exact ⟨(j, a), t, ha, ht, fun hts => absurd (hts ▸ hlt) (Nat.lt_irrefl _)⟩
  by_cases hb : ∃ j, (s.pcs j).building = true
  · obtain ⟨j, hj⟩ := hb
    refine hmoves (j := j) (fun hidle => ?_) fun hretry => ?_
    · rw [hidle] at hj
      cases hj
    · rw [hretry] at hj
      cases hj
  · exact hmoves hpc fun _ l => Bool.eq_false_of_not_eq_true fun hl => hb ⟨l, hl⟩

theorem run_length_le {bs : List (ι × Act)}
    (hr : Run (step k digest) (fun s a => a.2.calls = false ∧ step k digest s a ≠ .ok s) s bs t) :
    bs.length + total Pc.weight t.pcs ≤ total Pc.weight s.pcs := by
  induction hr with
  | nil => exact Nat.le_of_eq (Nat.zero_add _)
  | cons hc he _ ih =>
    rcases (steps_of_step he).weight hc.1 with ⟨-, -, -, rfl⟩ | hlt
    · exact absurd he hc.2
    · rw [List.length_cons]
      omega

/-- Of fewer than 2^64 callers, while no one makes a new call: a caller that waits in `retry` waits for one that
allocates; as long as some caller is not done, some caller gets on; and after at most six steps for each of them,
rounds of `retry` apart, all are done, so that there is no pool and everything allocated is freed. -/
theorem callers_finish (k : Kernel) (digest : List UInt8 → Digest) (hcard : Fintype.card ι < 2 ^ 64)
    (as : List (ι × Act)) (s : State ι) (hr : Run (step k digest) (Admits k) State.start as s) :
    (∀ i, step k digest s (i, .lock) = .ok s → ∃ j, j ≠ i ∧ (s.pcs j).building = true) ∧
    (∀ bs t, Run (step k digest) (fun s a => a.2.calls = false ∧ step k digest s a ≠ .ok s) s bs t →
      bs.length ≤ 6 * Fintype.card ι ∧
      ((∀ i, t.pcs i = .idle) ∨ ∃ a u, a.2.calls = false ∧ step k digest t a = .ok u ∧ u ≠ t)) := by
  have hs := run_inv hcard hr
  refine ⟨fun i hlock => ?_, fun bs t hbs => ⟨?_, ?_⟩⟩
  · obtain ⟨hretry, hu, hp, -⟩ | hlt := (steps_of_step hlock).weight rfl
    · by_contra hnone
      have hb : ∀ j, (s.pcs j).building = false := fun j => by
        by_cases hji : j = i
        · rw [hji, hretry]
          rfl
        · exact Bool.eq_false_of_not_eq_true fun hj => hnone ⟨j, hji, hj⟩
      obtain ⟨p, hp'⟩ := hs.counts.pool_of_users hu hb
      rw [hp] at hp'
      cases hp'
    · exact absurd hlt (Nat.lt_irrefl _)
  · have hle : total Pc.weight s.pcs ≤ 6 * Fintype.card ι := total_le Pc.weight_le _
    have hlen := run_length_le hbs
    omega
  · have hadmits : Run (step k digest) (Admits k) s bs t := hbs.mono fun s a hc job ha => by
      rw [ha] at hc
      cases hc.1
    have ht := hadmits.invariant (fun _ _ _ hc he hs => (steps_of_step he).inv hcard hc hs) hs
    by_cases hidle : ∀ i, t.pcs i = .idle
    · exact .inl hidle
    · obtain ⟨i, hi⟩ := not_forall.mp hidle
      exact .inr (ht.someone_gets_on hi)

theorem callers_finish_waiting : ∃ (s : State (Fin 3)) (j : Fin 3), s.pcs 1 = .retry ∧ j ≠ 1 ∧
    (s.pcs j).building = true := by
  have hr : Run (step twoCpus shaOfAbc) (Admits twoCpus) State.start (sampleActs.take 4)
      (final (step twoCpus shaOfAbc) admits State.start (sampleActs.take 4)) :=
    (run_final (by decide +kernel)).mono fun _ _ => admits_of_admits
  obtain ⟨j, hj, hb⟩ := (callers_finish twoCpus shaOfAbc (by decide) _ _ hr).1 1 rfl
  exact ⟨_, j, by decide +kernel, hj, hb⟩

end Inv

end Wspack.KernelHash.ShaPool
