import Wspack.Lib.Parties
import Wspack.Lib.Run
import Wspack.KernelHash.PoolMemory
import Wspack.KernelHash.Item

/-! The pool of SHA-1 transforms that the callers of `sha.c` share.  A caller counts itself in before
it uses the pool and out when it is done; the first one allocates the pool with the lock dropped, and the last
one frees it.  Callers take their steps in any order, a locked section at a time; each of them
frees only what it was given. -/

namespace Wspack.KernelHash.ShaPool

open Function (update update_self update_of_ne update_eq_self)
open Lib
open Init (Kernel Pool)

inductive Stage
  | init
  | update
  | final
  deriving DecidableEq

structure Job where
  cpu : Nat
  src : List UInt8
  deriving DecidableEq

inductive Pc
  | idle
  | retry
  | alloc
  /-- Back from `__tcp_alloc_sha1sig_pool`. -/
  | assign (p : Option Nat)
  /-- The pool has been assigned meanwhile, and `p` is freed. -/
  | oops (p pool : Nat)
  /-- `tcp_alloc_sha1sig_pool` has returned the pool. -/
  | holds (pool : Nat)
  | got (job : Job) (p : Option Nat)
  | hash (stage : Stage) (job : Job) (pool : Nat)
  | put (job : Job) (pool : Nat) (sha1Hash : Option Digest)
  /-- In `tcp_free_sha1sig_pool` with the pool taken, from `put` or from `holds`. -/
  | free (pool : Nat) (call : Option (Job × Option Digest))
  deriving DecidableEq

structure Return where
  src : List UInt8
  sha1Hash : Digest
  ret : Int

def Return.of (job : Job) : Option Digest → Return
  | some d => ⟨job.src, d, 0⟩
  | none => ⟨job.src, Vector.replicate 20 0, 1⟩

/-- `desc` is what the transform of a pool on a CPU has been fed, `log` what became of the memory
of each pool. -/
structure State (ι : Type) where
  users : UInt64
  pool : Option Nat
  next : Nat
  entries : Nat → Pool
  desc : Nat → Nat → List UInt8
  log : List (Nat × Event Init.Resource)
  pcs : ι → Pc
  returns : List Return

variable {ι : Type} [DecidableEq ι]

def State.start : State ι where
  users := 0
  pool := none
  next := 0
  entries _ _ := none
  desc _ _ := []
  log := []
  pcs _ := .idle
  returns := []

def State.goto (s : State ι) (i : ι) (pc : Pc) : State ι := { s with pcs := update s.pcs i pc }

def State.live (s : State ι) (p : Nat) (r : Init.Resource) : Bool :=
  decide (.acquire r ∈ actsOf p s.log ∧ .release r ∉ actsOf p s.log)

inductive Fault
  | disabled
  | useAfterFree
  deriving DecidableEq

inductive Act
  | callAlloc
  | lock
  | build (succeeds : Init.Resource → Bool)
  | assign
  | discard
  | callFree
  | callHash (job : Job)
  | perCpu
  | crypto (ok : Bool)
  | put
  | freePool

def tcpFreeSha1sigPool (s : State ι) (i : ι) (call : Option (Job × Option Digest)) : State ι :=
  let s := { s with users := s.users - 1 }
  let leave := fun s : State ι =>
    { s.goto i .idle with returns := s.returns ++ (call.map fun c => Return.of c.1 c.2).toList }
  if s.users = 0 then match s.pool with
    | some pool => { s with pool := none }.goto i (.free pool call)
    | none => leave s
  else leave s

section
variable (k : Kernel) (digest : List UInt8 → Digest)

def freeLog (s : State ι) (p : Nat) : Except Fault (State ι) :=
  if s.live p .pool then match Init.freePool k (s.entries p) Init.loaded with
    | .ok (_, t) => .ok { s with log := s.log ++ t.log.map (Prod.mk p) }
    | .error _ => .error .disabled
  else .error .useAfterFree

def cryptoHash (s : State ι) (i : ι) (job : Job) (p : Nat) (ok : Bool) : Stage → State ι
  | .init => if ok then { s with desc := update s.desc p (update (s.desc p) job.cpu []) }.goto i (.hash .update job p)
    else s.goto i (.put job p none)
  | .update =>
    if ok then { s with desc := update s.desc p (update (s.desc p) job.cpu (s.desc p job.cpu ++ job.src)) }.goto i
      (.hash .final job p)
    else s.goto i (.put job p none)
  | .final => if ok then s.goto i (.put job p (some (digest (s.desc p job.cpu))))
    else s.goto i (.put job p none)

def step (s : State ι) (a : ι × Act) : Except Fault (State ι) :=
  match a.2, s.pcs a.1 with
  | .callAlloc, .idle => .ok (s.goto a.1 .retry)
  | .lock, .retry =>
    if s.users = 0 then .ok ({ s with users := s.users + 1 }.goto a.1 .alloc)
    else match s.pool with
      -- counted in and out again
      | none => .ok s
      | some pool => .ok ({ s with users := s.users + 1 }.goto a.1 (.holds pool))
  | .build succeeds, .alloc => match Init.allocPool { k with succeeds := succeeds } Init.loaded with
    | .ok (some pool, t) =>
      .ok ({ s with
        next := s.next + 1
        entries := update s.entries s.next pool
        log := s.log ++ t.log.map (Prod.mk s.next) }.goto a.1 (.assign (some s.next)))
    | .ok (none, t) =>
      .ok ({ s with next := s.next + 1, log := s.log ++ t.log.map (Prod.mk s.next) }.goto a.1 (.assign none))
    | .error _ => .error .disabled
  | .assign, .assign none => .ok ({ s with users := s.users - 1 }.goto a.1 .idle)
  | .assign, .assign (some p) => match s.pool with
    | some pool => .ok (s.goto a.1 (.oops p pool))
    | none => .ok ({ s with pool := some p }.goto a.1 (.holds p))
  | .discard, .oops p pool => (freeLog k s p).map fun s => s.goto a.1 (.holds pool)
  | .callFree, .holds _ => .ok (tcpFreeSha1sigPool s a.1 none)
  | .callHash job, .idle => match s.pool with
    | none => .ok (s.goto a.1 (.got job none))
    | some p => .ok ({ s with users := s.users + 1 }.goto a.1 (.got job (some p)))
  | .perCpu, .got job none => .ok { s.goto a.1 .idle with returns := s.returns ++ [.of job none] }
  | .perCpu, .got job (some p) =>
    if s.live p .pool then match s.entries p job.cpu with
      | none => .ok { s.goto a.1 .idle with returns := s.returns ++ [.of job none] }
      | some _ => .ok (s.goto a.1 (.hash .init job p))
    else .error .useAfterFree
  | .crypto ok, .hash stage job p =>
    if s.live p (.poolEntry job.cpu) && s.live p (.poolHash job.cpu) then
      .ok (cryptoHash digest s a.1 job p ok stage)
    else .error .useAfterFree
  | .put, .put job _ sha1Hash => .ok (tcpFreeSha1sigPool s a.1 (some (job, sha1Hash)))
  | .freePool, .free p call => (freeLog k s p).map fun s =>
      { s.goto a.1 .idle with returns := s.returns ++ (call.map fun c => Return.of c.1 c.2).toList }
  | _, _ => .error .disabled

end

variable {k : Kernel} {digest : List UInt8 → Digest} {s t : State ι} {i : ι} {a : Act} {p : Nat}

inductive Steps (k : Kernel) (digest : List UInt8 → Digest) (s : State ι) (i : ι) : Act → State ι → Prop
  | callAlloc (h : s.pcs i = .idle) : Steps k digest s i .callAlloc (s.goto i .retry)
  | first (h : s.pcs i = .retry) (hu : s.users = 0) :
      Steps k digest s i .lock ({ s with users := s.users + 1 }.goto i .alloc)
  | spin (h : s.pcs i = .retry) (hu : s.users ≠ 0) (hp : s.pool = none) : Steps k digest s i .lock s
  | join {p : Nat} (h : s.pcs i = .retry) (hu : s.users ≠ 0) (hp : s.pool = some p) :
      Steps k digest s i .lock ({ s with users := s.users + 1 }.goto i (.holds p))
  | built {succeeds : Init.Resource → Bool} {pool : Pool} {t : Init.Loaded} (h : s.pcs i = .alloc)
      (hb : Init.allocPool { k with succeeds := succeeds } Init.loaded = .ok (some pool, t)) :
      Steps k digest s i (.build succeeds) ({ s with
        next := s.next + 1
        entries := update s.entries s.next pool
        log := s.log ++ t.log.map (Prod.mk s.next) }.goto i (.assign (some s.next)))
  | notBuilt {succeeds : Init.Resource → Bool} {t : Init.Loaded} (h : s.pcs i = .alloc)
      (hb : Init.allocPool { k with succeeds := succeeds } Init.loaded = .ok (none, t)) :
      Steps k digest s i (.build succeeds)
        ({ s with next := s.next + 1, log := s.log ++ t.log.map (Prod.mk s.next) }.goto i (.assign none))
  | giveUp (h : s.pcs i = .assign none) :
      Steps k digest s i .assign ({ s with users := s.users - 1 }.goto i .idle)
  | late {p pool : Nat} (h : s.pcs i = .assign (some p)) (hp : s.pool = some pool) :
      Steps k digest s i .assign (s.goto i (.oops p pool))
  | assign {p : Nat} (h : s.pcs i = .assign (some p)) (hp : s.pool = none) :
      Steps k digest s i .assign ({ s with pool := some p }.goto i (.holds p))
  | discard {p pool : Nat} {t : State ι} (h : s.pcs i = .oops p pool) (hf : freeLog k s p = .ok t) :
      Steps k digest s i .discard (t.goto i (.holds pool))
  | callFree {p : Nat} (h : s.pcs i = .holds p) : Steps k digest s i .callFree (tcpFreeSha1sigPool s i none)
  | miss {job : Job} (h : s.pcs i = .idle) (hp : s.pool = none) :
      Steps k digest s i (.callHash job) (s.goto i (.got job none))
  | take {job : Job} {p : Nat} (h : s.pcs i = .idle) (hp : s.pool = some p) :
      Steps k digest s i (.callHash job) ({ s with users := s.users + 1 }.goto i (.got job (some p)))
  | refuse {job : Job} (h : s.pcs i = .got job none) :
      Steps k digest s i .perCpu { s.goto i .idle with returns := s.returns ++ [.of job none] }
  | noEntry {job : Job} {p : Nat} (h : s.pcs i = .got job (some p)) (he : s.entries p job.cpu = none) :
      Steps k digest s i .perCpu { s.goto i .idle with returns := s.returns ++ [.of job none] }
  | entry {job : Job} {p : Nat} (h : s.pcs i = .got job (some p)) :
      Steps k digest s i .perCpu (s.goto i (.hash .init job p))
  | crypto {ok : Bool} {stage : Stage} {job : Job} {p : Nat} (h : s.pcs i = .hash stage job p) :
      Steps k digest s i (.crypto ok) (cryptoHash digest s i job p ok stage)
  | put {job : Job} {p : Nat} {d : Option Digest} (h : s.pcs i = .put job p d) :
      Steps k digest s i .put (tcpFreeSha1sigPool s i (some (job, d)))
  | free {p : Nat} {call : Option (Job × Option Digest)} {t : State ι} (h : s.pcs i = .free p call)
      (hf : freeLog k s p = .ok t) : Steps k digest s i .freePool { t.goto i .idle with
        returns := t.returns ++ (call.map fun c => Return.of c.1 c.2).toList }

theorem map_eq_ok {β γ : Type} {x : Except Fault β} {f : β → γ} {c : γ} (h : x.map f = .ok c) :
    ∃ b, x = .ok b ∧ c = f b := by
  cases x with
  | error e => cases h
  | ok b => exact ⟨b, rfl, (Except.ok.inj h).symm⟩

theorem steps_of_step {a : ι × Act} (h : step k digest s a = .ok t) : Steps k digest s a.1 a.2 t := by
  revert h
  fun_cases step k digest s a with
  | case1 hpc ha => rw [ha]; rintro ⟨⟩; exact .callAlloc hpc
  | case2 hpc ha hu => rw [ha]; rintro ⟨⟩; exact .first hpc hu
  | case3 hpc ha hu hp => rw [ha]; rintro ⟨⟩; exact .spin hpc hu hp
  | case4 hpc ha hu _ hp => rw [ha]; rintro ⟨⟩; exact .join hpc hu hp
  | case5 _ hpc ha _ _ hb => rw [ha]; rintro ⟨⟩; exact .built hpc hb
  | case6 _ hpc ha _ hb => rw [ha]; rintro ⟨⟩; exact .notBuilt hpc hb
  | case8 hpc ha => rw [ha]; rintro ⟨⟩; exact .giveUp hpc
  | case9 _ hpc ha _ hp => rw [ha]; rintro ⟨⟩; exact .late hpc hp
  | case10 _ hpc ha hp => rw [ha]; rintro ⟨⟩; exact .assign hpc hp
  | case11 _ _ hpc ha =>
    intro h
    obtain ⟨t, hf, rfl⟩ := map_eq_ok h
    exact ha ▸ .discard hpc hf
  | case12 _ hpc ha => rw [ha]; rintro ⟨⟩; exact .callFree hpc
  | case13 _ hpc ha hp => rw [ha]; rintro ⟨⟩; exact .miss hpc hp
  | case14 _ hpc ha _ hp => rw [ha]; rintro ⟨⟩; exact .take hpc hp
  | case15 _ hpc ha => rw [ha]; rintro ⟨⟩; exact .refuse hpc
  | case16 _ _ hpc ha _ he => rw [ha]; rintro ⟨⟩; exact .noEntry hpc he
  | case17 _ _ hpc ha => rw [ha]; rintro ⟨⟩; exact .entry hpc
  | case19 _ _ _ _ hpc ha => rw [ha]; rintro ⟨⟩; exact .crypto hpc
  | case21 _ _ _ hpc ha => rw [ha]; rintro ⟨⟩; exact .put hpc
  | case22 _ _ hpc ha =>
    intro h
    obtain ⟨t, hf, rfl⟩ := map_eq_ok h
    exact ha ▸ .free hpc hf
  | _ => intro h; cases h

end Wspack.KernelHash.ShaPool
