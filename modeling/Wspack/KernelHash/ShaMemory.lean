import Wspack.KernelHash.ShaPool

namespace Wspack.KernelHash.ShaPool

open Function (update update_self update_of_ne update_eq_self)
open Lib
open Init (Kernel Pool)

variable {ι : Type} [DecidableEq ι] {k : Kernel} {digest : List UInt8 → Digest} {i : ι} {p : Nat}

def Pc.owns (p : Nat) : Pc → Bool
  | .assign (some q) => q == p
  | .oops q _ => q == p
  | .free q _ => q == p
  | _ => false

section Memory

variable [Fintype ι] {pool pool' : Option Nat} {pcs pcs' : ι → Pc} {pc : Pc} {next : Nat} {entries : Nat → Pool}
  {log : List (Nat × Event Init.Resource)}

def owners (pool : Option Nat) (pcs : ι → Pc) (p : Nat) : Nat :=
  (pool == some p).toNat + parties (Pc.owns p) pcs

theorem owners_update (pool : Option Nat) (pcs : ι → Pc) (i : ι) (pc : Pc) (p : Nat) :
    owners pool (update pcs i pc) p + ((pcs i).owns p).toNat = owners pool pcs p + (pc.owns p).toNat := by
  have hmove := parties_update (Pc.owns p) pcs i pc
  rw [owners, owners]
  omega

structure Memory (k : Kernel) (pool : Option Nat) (pcs : ι → Pc) (next : Nat) (entries : Nat → Pool)
    (log : List (Nat × Event Init.Resource)) : Prop where
  once : ∀ p, owners pool pcs p ≤ 1
  holds : ∀ p, owners pool pcs p = 1 →
    Holds k.possible (entries p) (actsOf p log) ∧ ∀ cpu ∈ k.possible, entries p cpu = some true
  settled : ∀ p, owners pool pcs p = 0 → Settled (actsOf p log)
  fresh : ∀ p, next ≤ p → owners pool pcs p = 0 ∧ actsOf p log = []

omit [DecidableEq ι] in
theorem Memory.start (entries : Nat → Pool) : Memory k none (fun _ : ι => .idle) 0 entries [] where
  once p := by simp [owners, parties, total, Pc.owns]
  holds p h := by simp [owners, parties, total, Pc.owns] at h
  settled _ _ := settled_nil
  fresh p _ := by simp [owners, parties, total, Pc.owns, actsOf]

omit [DecidableEq ι] in
theorem Memory.pass (h : Memory k pool pcs next entries log) (ho : ∀ p, owners pool' pcs' p = owners pool pcs p) :
    Memory k pool' pcs' next entries log := by
  obtain ⟨honce, hholds, hsettled, hfresh⟩ := h
  simp only [← ho] at honce hholds hsettled hfresh
  exact ⟨honce, hholds, hsettled, hfresh⟩

omit [DecidableEq ι] in
theorem Memory.owners_of_pool (h : Memory k pool pcs next entries log) (hp : pool = some p) :
    owners pool pcs p = 1 := by
  have honce := h.once p
  rw [owners, hp, beq_self_eq_true, Bool.toNat_true] at honce ⊢
  omega

theorem Memory.assigned (h : Memory k pool pcs next entries log) (hp : pool = none)
    (hpc : ∀ q, (pcs i).owns q = (p == q)) (hout : ∀ q, pc.owns q = false) :
    Memory k (some p) (update pcs i pc) next entries log := by
  refine h.pass fun q => ?_
  have hmove := parties_update (Pc.owns q) pcs i pc
  rw [hpc, hout, Bool.toNat_false] at hmove
  rw [owners, owners, hp, Option.some_beq_some, Option.none_beq_some, Bool.toNat_false]
  omega

theorem Memory.taken (h : Memory k pool pcs next entries log) (hp : pool = some p)
    (hpc : ∀ q, (pcs i).owns q = false) (hin : ∀ q, pc.owns q = (p == q)) :
    Memory k none (update pcs i pc) next entries log := by
  refine h.pass fun q => ?_
  have hmove := parties_update (Pc.owns q) pcs i pc
  rw [hpc, hin, Bool.toNat_false] at hmove
  rw [owners, owners, hp, Option.some_beq_some, Option.none_beq_some, Bool.toNat_false]
  omega

theorem Memory.move (h : Memory k pool pcs next entries log) (hpc : ∀ p, pc.owns p = (pcs i).owns p) :
    Memory k pool (update pcs i pc) next entries log :=
  h.pass fun p => by
    have hmove := owners_update pool pcs i pc p
    rw [hpc] at hmove
    omega

omit [DecidableEq ι] in
theorem Memory.change {q next' : Nat} {new : Pool} {evs : List (Event Init.Resource)}
    (h : Memory k pool pcs next entries log) (hother : ∀ p, p ≠ q → owners pool pcs' p = owners pool pcs p)
    (hnext : next ≤ next') (hq : q < next') (hle : owners pool pcs' q ≤ 1)
    (hholds : owners pool pcs' q = 1 → Holds k.possible new (actsOf q log ++ evs) ∧
      ∀ cpu ∈ k.possible, new cpu = some true)
    (hsettled : owners pool pcs' q = 0 → Settled (actsOf q log ++ evs)) :
    Memory k pool pcs' next' (update entries q new) (log ++ evs.map (Prod.mk q)) := by
  have hlog : ∀ p, p ≠ q → actsOf p (log ++ evs.map (Prod.mk q)) = actsOf p log := fun p hp => by
    rw [actsOf_append, actsOf_map_of_ne (Ne.symm hp), List.append_nil]
  have hlogq : actsOf q (log ++ evs.map (Prod.mk q)) = actsOf q log ++ evs := by
    rw [actsOf_append, actsOf_map]
  refine ⟨fun p => ?_, fun p hp => ?_, fun p hp => ?_, fun p hp => ?_⟩
  · by_cases hpq : p = q
    · exact hpq ▸ hle
    · exact hother p hpq ▸ h.once p
  · by_cases hpq : p = q
    · subst hpq
      rw [update_self, hlogq]
      exact hholds hp
    · rw [update_of_ne hpq, hlog p hpq]
      exact h.holds p (hother p hpq ▸ hp)
  · by_cases hpq : p = q
    · subst hpq
      rw [hlogq]
      exact hsettled hp
    · rw [hlog p hpq]
      exact h.settled p (hother p hpq ▸ hp)
  · have hpq : p ≠ q := by omega
    rw [hother p hpq, hlog p hpq]
    exact h.fresh p (hnext.trans hp)

theorem Memory.built {evs : List (Event Init.Resource)} {new : Pool} (h : Memory k pool pcs next entries log)
    (hpc : pcs i = .alloc) (hevs : Holds k.possible new evs) (hnew : ∀ cpu ∈ k.possible, new cpu = some true) :
    Memory k pool (update pcs i (.assign (some next))) (next + 1) (update entries next new)
      (log ++ evs.map (Prod.mk next)) := by
  obtain ⟨hnobody, hempty⟩ := h.fresh next le_rfl
  have hown : ∀ p, owners pool (update pcs i (.assign (some next))) p = owners pool pcs p + (next == p).toNat :=
    fun p => by
      have hmove := owners_update pool pcs i (.assign (some next)) p
      rwa [hpc] at hmove
  have hself : owners pool (update pcs i (.assign (some next))) next = 1 := by simp [hown, hnobody]
  refine h.change (fun p hp => ?_) (Nat.le_succ _) (Nat.lt_succ_self _) hself.le (fun _ => ?_) fun h0 => ?_
  · rw [hown, beq_eq_false_iff_ne.mpr (Ne.symm hp)]
    rfl
  · rw [hempty]
    exact ⟨hevs, hnew⟩
  · omega

theorem Memory.notBuilt {evs : List (Event Init.Resource)} (h : Memory k pool pcs next entries log)
    (hpc : pcs i = .alloc) (hevs : Settled evs) :
    Memory k pool (update pcs i (.assign none)) (next + 1) entries (log ++ evs.map (Prod.mk next)) := by
  obtain ⟨hnobody, hempty⟩ := h.fresh next le_rfl
  have hown : ∀ p, owners pool (update pcs i (.assign none)) p = owners pool pcs p := fun p => by
    have hmove := owners_update pool pcs i (.assign none) p
    rwa [hpc] at hmove
  rw [← update_eq_self next entries]
  refine h.change (fun p _ => hown p) (Nat.le_succ _) (Nat.lt_succ_self _) (hown next ▸ h.once next) (fun h1 => ?_)
    fun _ => ?_
  · rw [hown, hnobody] at h1
    cases h1
  · rwa [hempty]

theorem Memory.freed (h : Memory k pool pcs next entries log) (hpc : (pcs i).owns p = true)
    (hpc' : ∀ q, (pcs i).owns q = true → q = p) (hout : ∀ q, pc.owns q = false) :
    Memory k pool (update pcs i pc) next entries
      (log ++ ((held k.possible (entries p)).map Event.release).map (Prod.mk p)) := by
  have hmove := owners_update pool pcs i pc p
  have honce := h.once p
  rw [hpc, hout, Bool.toNat_true, Bool.toNat_false] at hmove
  have hlt : p < next := by
    by_contra hge
    have hfresh := (h.fresh p (Nat.le_of_not_lt hge)).1
    omega
  rw [← update_eq_self p entries]
  refine h.change (fun q hq => ?_) le_rfl hlt (by omega) (fun h1 => ?_) fun _ => ?_
  · have hmove := owners_update pool pcs i pc q
    have hnot : (pcs i).owns q = false := Bool.eq_false_of_not_eq_true fun hown => hq (hpc' q hown)
    rw [hnot, hout] at hmove
    exact hmove
  · omega
  · rw [update_eq_self]
    exact (h.holds p (by omega)).1.settled k.nodup_possible

end Memory

def Pc.cpu : Pc → Option Nat
  | .got job _ => some job.cpu
  | .hash _ job _ => some job.cpu
  | .put job _ _ => some job.cpu
  | .free _ (some (job, _)) => some job.cpu
  | _ => none

def Pc.Fed (digest : List UInt8 → Digest) (desc : Nat → Nat → List UInt8) : Pc → Prop
  | .hash .update job p => desc p job.cpu = []
  | .hash .final job p => desc p job.cpu = job.src
  | .put job _ (some d) => d = digest job.src
  | .free _ (some (job, some d)) => d = digest job.src
  | _ => True

def Return.Right (digest : List UInt8 → Digest) (r : Return) : Prop :=
  r.sha1Hash = digest r.src ∧ r.ret = 0 ∨ r.sha1Hash = Vector.replicate 20 0 ∧ r.ret = 1

section Contents

variable {desc desc' : Nat → Nat → List UInt8} {pcs : ι → Pc} {pc : Pc} {returns : List Return}

structure Contents (k : Kernel) (digest : List UInt8 → Digest) (desc : Nat → Nat → List UInt8) (pcs : ι → Pc)
    (returns : List Return) : Prop where
  possible : ∀ i c, (pcs i).cpu = some c → c ∈ k.possible
  alone : ∀ i j c, (pcs i).cpu = some c → (pcs j).cpu = some c → i = j
  fed : ∀ i, (pcs i).Fed digest desc
  right : ∀ r ∈ returns, r.Right digest

omit [DecidableEq ι] in
theorem Contents.start : Contents k digest desc (fun _ : ι => .idle) [] where
  possible _ _ h := by cases h
  alone _ _ _ h := by cases h
  fed _ := trivial
  right _ h := by cases h

theorem Pc.Fed.frame (h : pc.Fed digest desc) (hd : ∀ p c, pc.cpu = some c → desc' p c = desc p c) :
    pc.Fed digest desc' := by
  cases pc with
  | hash stage job p =>
    cases stage with
    | init => trivial
    | update => exact (hd p job.cpu rfl).trans h
    | final => exact (hd p job.cpu rfl).trans h
  | put job p out => cases out <;> exact h
  | free p call =>
    obtain _ | ⟨job, _ | d⟩ := call
    · trivial
    · trivial
    · exact h
  | _ => trivial

theorem Contents.move (h : Contents k digest desc pcs returns) (hcpu : ∀ c, pc.cpu = some c → (pcs i).cpu = some c)
    (hfed : pc.Fed digest desc') (hd : ∀ p c, (pcs i).cpu ≠ some c → desc' p c = desc p c) :
    Contents k digest desc' (update pcs i pc) returns := by
  have hback : ∀ j c, (update pcs i pc j).cpu = some c → (pcs j).cpu = some c := by
    intro j c hj
    by_cases hji : j = i
    · subst hji
      rw [update_self] at hj
      exact hcpu c hj
    · rwa [update_of_ne hji] at hj
  refine ⟨fun j c hj => h.possible j c (hback j c hj),
    fun j l c hj hl => h.alone j l c (hback j c hj) (hback l c hl), fun j => ?_, h.right⟩
  by_cases hji : j = i
  · rwa [hji, update_self]
  · rw [update_of_ne hji]
    exact (h.fed j).frame fun p c hj => hd p c fun hi => hji (h.alone j i c hj hi)

theorem Contents.quiet (h : Contents k digest desc pcs returns) (hcpu : pc.cpu = none)
    (hfed : pc.Fed digest desc) : Contents k digest desc (update pcs i pc) returns :=
  h.move (fun c hc => by rw [hcpu] at hc; cases hc) hfed fun _ _ _ => rfl

theorem Contents.stay (h : Contents k digest desc pcs returns) (hcpu : pc.cpu = (pcs i).cpu)
    (hfed : pc.Fed digest desc) : Contents k digest desc (update pcs i pc) returns :=
  h.move (fun _ hc => hcpu ▸ hc) hfed fun _ _ _ => rfl

theorem Contents.enter {c : Nat} (h : Contents k digest desc pcs returns) (hc : pc.cpu = some c)
    (hpos : c ∈ k.possible) (hfree : ∀ j, (pcs j).cpu ≠ some c) (hfed : pc.Fed digest desc) :
    Contents k digest desc (update pcs i pc) returns := by
  have hcase : ∀ j d, (update pcs i pc j).cpu = some d → j = i ∧ d = c ∨ j ≠ i ∧ (pcs j).cpu = some d := by
    intro j d hj
    by_cases hji : j = i
    · rw [hji, update_self, hc] at hj
      exact .inl ⟨hji, (Option.some.inj hj).symm⟩
    · rw [update_of_ne hji] at hj
      exact .inr ⟨hji, hj⟩
  refine ⟨fun j d hj => ?_, fun j l d hj hl => ?_, forall_moved (Pc.Fed digest desc) hfed h.fed, h.right⟩
  · rcases hcase j d hj with ⟨-, rfl⟩ | ⟨-, hj⟩
    · exact hpos
    · exact h.possible j d hj
  · rcases hcase j d hj with ⟨hji, hd⟩ | ⟨-, hj'⟩ <;> rcases hcase l d hl with ⟨hli, hd⟩ | ⟨-, hl'⟩
    · rw [hji, hli]
    · exact absurd (hd ▸ hl') (hfree l)
    · exact absurd (hd ▸ hj') (hfree j)
    · exact h.alone j l d hj' hl'

theorem Return.of_right {job : Job} {out : Option Digest} (h : ∀ d, out = some d → d = digest job.src) :
    (Return.of job out).Right digest := by
  cases out with
  | none => exact .inr ⟨rfl, rfl⟩
  | some d => exact .inl ⟨h d rfl, rfl⟩

omit [DecidableEq ι] in
theorem Contents.returned {rs : List Return} (h : Contents k digest desc pcs returns)
    (hrs : ∀ r ∈ rs, r.Right digest) : Contents k digest desc pcs (returns ++ rs) :=
  ⟨h.possible, h.alone, h.fed, fun r hr => (List.mem_append.mp hr).elim (h.right r) (hrs r)⟩

end Contents

end Wspack.KernelHash.ShaPool
