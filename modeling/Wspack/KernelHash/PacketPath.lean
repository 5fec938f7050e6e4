import Wspack.Lib.Run
import Wspack.KernelHash.Drain
import Wspack.KernelHash.Payload

/-! The way of a packet through the module: `jpf_ip_rcv` puts a copy on the list of its CPU and
queues the work of the CPU, whose worker takes packets from the list in `handle_skb`, feeds their
payloads to the table and gives them back to the kernel.  Packets arrive at every point but the
one where the worker takes from the list, which it does with the bottom halves off. -/

namespace Wspack.KernelHash.PacketPath

open Lib
open Payload (Skb)
open Drain (threshold)

inductive Worker
  | idle
  | entered
  | hashing (done rest : List Skb)
  | resending (rest : List Skb)

@[simp] def Worker.hand : Worker → List Skb
  | .idle => []
  | .entered => []
  | .hashing done rest => done ++ rest
  | .resending rest => rest

@[simp] def Worker.done : Worker → List Skb
  | .hashing done _ => done
  | .resending rest => rest
  | _ => []

/-- `hashed` and `resent` are the packets given to `get_partition` and to `ip_rcv_finish` so far. -/
structure Cpu where
  skbList : List Skb
  pending : Bool
  worker : Worker
  hashed : List Skb
  resent : List Skb

def Cpu.init : Cpu := ⟨[], false, .idle, [], []⟩

/-- `jpf_ip_rcv`.  A work that is pending is not queued again, and stays pending. -/
def jpfIpRcv (reserveMem : Nat) (skb : Skb) (k : Cpu) : Cpu :=
  if skb.accepted reserveMem then { k with skbList := k.skbList ++ [skb], pending := true } else k

/-- The loop of `handle_skb` over `skb_list`; with nothing on `hand_list` the function returns. -/
def getSkb (k : Cpu) : Cpu :=
  { k with
    skbList := k.skbList.drop threshold
    worker := if (k.skbList.take threshold).isEmpty then .idle
      else .hashing [] (k.skbList.take threshold) }

inductive Act
  | ipRcv (reserveMem : Nat) (skb : Skb)
  | work
  | getSkb
  | getPartition
  | readData
  | resendSkb
  | leave

@[simp] def Act.arrival : Act → Option Skb
  | .ipRcv reserveMem skb => if skb.accepted reserveMem then some skb else none
  | _ => none

@[simp] def Act.ofWorker : Act → Bool
  | .ipRcv _ _ => false
  | _ => true

def step (k : Cpu) : Act → Except Unit Cpu
  | .ipRcv reserveMem skb => .ok (jpfIpRcv reserveMem skb k)
  | .work => match k.worker with
    | .idle => if k.pending then .ok { k with pending := false, worker := .entered } else .error ()
    | _ => .error ()
  | .getSkb => match k.worker with
    | .entered => .ok (getSkb k)
    | _ => .error ()
  | .getPartition => match k.worker with
    | .hashing done (skb :: rest) =>
      .ok { k with worker := .hashing (done ++ [skb]) rest, hashed := k.hashed ++ [skb] }
    | _ => .error ()
  | .readData => match k.worker with
    | .hashing done [] => .ok { k with worker := .resending done }
    | _ => .error ()
  | .resendSkb => match k.worker with
    | .resending (skb :: rest) => .ok { k with worker := .resending rest, resent := k.resent ++ [skb] }
    | _ => .error ()
  | .leave => match k.worker with
    | .resending [] => .ok { k with worker := .idle }
    | _ => .error ()

inductive Steps (k : Cpu) : Act → Cpu → Prop
  | ipRcv (reserveMem : Nat) (skb : Skb) : Steps k (.ipRcv reserveMem skb) (jpfIpRcv reserveMem skb k)
  | work (hw : k.worker = .idle) (hp : k.pending = true) :
      Steps k .work { k with pending := false, worker := .entered }
  | getSkb (hw : k.worker = .entered) : Steps k .getSkb (getSkb k)
  | getPartition {done rest : List Skb} {skb : Skb} (hw : k.worker = .hashing done (skb :: rest)) :
      Steps k .getPartition
        { k with worker := .hashing (done ++ [skb]) rest, hashed := k.hashed ++ [skb] }
  | readData {done : List Skb} (hw : k.worker = .hashing done []) :
      Steps k .readData { k with worker := .resending done }
  | resendSkb {rest : List Skb} {skb : Skb} (hw : k.worker = .resending (skb :: rest)) :
      Steps k .resendSkb { k with worker := .resending rest, resent := k.resent ++ [skb] }
  | leave (hw : k.worker = .resending []) : Steps k .leave { k with worker := .idle }

variable {k t : Cpu} {a : Act} {as : List Act} {arr : List Skb}

theorem steps_of_step (h : step k a = .ok t) : Steps k a t := by
  revert h
  fun_cases step k a with
  | case1 reserveMem skb => rintro ⟨⟩; exact .ipRcv reserveMem skb
  | case2 hw hp => rintro ⟨⟩; exact .work hw hp
  | case5 hw => rintro ⟨⟩; exact .getSkb hw
  | case7 _ _ _ hw => rintro ⟨⟩; exact .getPartition hw
  | case9 _ hw => rintro ⟨⟩; exact .readData hw
  | case11 _ _ hw => rintro ⟨⟩; exact .resendSkb hw
  | case13 hw => rintro ⟨⟩; exact .leave hw
  | _ => intro h; cases h

structure Cpu.Conserves (arr : List Skb) (k : Cpu) : Prop where
  arrived : arr = k.resent ++ k.worker.hand ++ k.skbList
  hashed : k.hashed = k.resent ++ k.worker.done
  bounded : k.worker.hand.length ≤ threshold

theorem Steps.conserves (h : Steps k a t) (hk : k.Conserves arr) :
    t.Conserves (arr ++ a.arrival.toList) := by
  obtain ⟨ha, hh, hb⟩ := hk
  cases h with
  | ipRcv reserveMem skb =>
    rw [jpfIpRcv, Act.arrival]
    split
    · exact ⟨by simp [ha], hh, hb⟩
    · exact ⟨by simpa using ha, hh, hb⟩
  | work hw hp =>
    rw [hw] at ha hh
    exact ⟨by simpa using ha, hh, Nat.zero_le _⟩
  | getSkb hw =>
    rw [hw] at ha hh
    rw [PacketPath.getSkb]
    split
    case isTrue htake =>
      have hall := List.take_append_drop threshold k.skbList
      rw [List.isEmpty_iff.mp htake, List.nil_append] at hall
      exact ⟨by simpa [hall] using ha, hh, Nat.zero_le _⟩
    case isFalse => exact ⟨by simpa using ha, hh, by simp⟩
  | getPartition hw =>
    rw [hw] at ha hh hb
    exact ⟨by simpa using ha, by simp [hh], by simpa using hb⟩
  | readData hw =>
    rw [hw] at ha hh hb
    exact ⟨by simpa using ha, hh, by simpa using hb⟩
  | resendSkb hw =>
    rw [hw] at ha hh hb
    exact ⟨by simpa using ha, by simpa using hh, (Nat.le_succ _).trans hb⟩
  | leave hw =>
    rw [hw] at ha hh
    exact ⟨by simpa using ha, hh, Nat.zero_le _⟩

def arrivals (as : List Act) : List Skb := as.flatMap fun a => a.arrival.toList

theorem run_conserves {C : Cpu → Act → Prop} (h : Run step C k as t) (hk : k.Conserves arr) :
    t.Conserves (arr ++ arrivals as) := by
  induction h generalizing arr with
  | nil => simpa [arrivals] using hk
  | cons _ he _ ih => simpa [arrivals] using ih ((steps_of_step he).conserves hk)

theorem Cpu.init_conserves : Cpu.init.Conserves [] := ⟨rfl, rfl, Nat.zero_le _⟩

/-- At any point of any interleaving, on each CPU, the packets that arrived are the ones given back
to the kernel, then the at most `threshold` ones of the worker, then those on the list, in the order
of their arrival; and a packet is given back only after its payload, and those of all packets that
were taken with it, have been fed to the table. -/
theorem packets_in_order (as : List (Nat × Act)) (s : Nat → Cpu)
    (h : Run (interleave step) (fun _ _ => True) (fun _ => Cpu.init) as s) (c : Nat) :
    arrivals (actsOf c as) = (s c).resent ++ (s c).worker.hand ++ (s c).skbList ∧
      (s c).worker.hand.length ≤ threshold ∧ (s c).resent <+: (s c).hashed ∧
      (s c).hashed <+: arrivals (actsOf c as) ∧
      ∀ rest, (s c).worker = .resending rest → (s c).hashed = (s c).resent ++ rest := by
  have hc := run_conserves (h.machine (D := fun _ _ => True) c fun _ _ _ => trivial) Cpu.init_conserves
  rw [List.nil_append] at hc
  refine ⟨hc.arrived, hc.bounded, ⟨_, hc.hashed.symm⟩, ?_, fun rest hw => by rw [hc.hashed, hw, Worker.done]⟩
  rw [hc.hashed, hc.arrived]
  cases hw : (s c).worker with
  | hashing done rest => exact ⟨rest ++ (s c).skbList, by simp⟩
  | resending rest => exact ⟨(s c).skbList, by simp⟩
  | _ => exact ⟨(s c).skbList, by simp⟩

def sample (seq : UInt8) : Skb where
  data i := if i = 9 then 6 else if i = 27 then seq else 0
  len := 40

def sampleActs : List (Nat × Act) :=
  [(0, .ipRcv 102400 (sample 1)), (0, .work), (1, .ipRcv 102400 (sample 2)), (0, .getSkb),
    (0, .getPartition), (0, .ipRcv 102400 (sample 3)), (0, .readData), (0, .resendSkb)]

theorem packets_in_order_three : ∃ s, Run (interleave step) (fun _ _ => True) (fun _ => Cpu.init) sampleActs s ∧
    (s 0).resent ++ (s 0).worker.hand ++ (s 0).skbList = [sample 1, sample 3] ∧
    (s 0).hashed <+: [sample 1, sample 3] := by
  have hr : Run (interleave step) (fun _ _ => True) (fun _ => Cpu.init) sampleActs _ :=
    run_final_any (g := fun _ _ => true) rfl
  obtain ⟨harr, -, -, hh, -⟩ := packets_in_order sampleActs _ hr 0
  exact ⟨_, hr, harr.symm, hh⟩

structure Cpu.Left (k : Cpu) : Prop where
  nonempty : k.skbList ≠ []
  queued : k.pending = false
  entered : k.worker ≠ .entered

theorem jpfIpRcv_left {reserveMem : Nat} {skb : Skb} (ht : (jpfIpRcv reserveMem skb k).Left) :
    skb.accepted reserveMem = false := by
  rw [jpfIpRcv] at ht
  split at ht
  · cases ht.queued
  · exact Bool.eq_false_of_not_eq_true ‹_›

theorem Steps.leaves (h : Steps k a t) (hk : ¬k.Left) (ht : t.Left) :
    a = .getSkb ∧ k.pending = false ∧ threshold < k.skbList.length := by
  cases h with
  | ipRcv reserveMem skb =>
    rw [jpfIpRcv, jpfIpRcv_left ht] at ht
    exact absurd ht hk
  | work hw hp => exact absurd rfl ht.entered
  | getSkb hw =>
    have hne : k.skbList.drop threshold ≠ [] := ht.nonempty
    rw [ne_eq, List.drop_eq_nil_iff, not_le] at hne
    exact ⟨rfl, ht.queued, hne⟩
  | getPartition hw => exact absurd ⟨ht.nonempty, ht.queued, by rw [hw]; nofun⟩ hk
  | readData hw => exact absurd ⟨ht.nonempty, ht.queued, by rw [hw]; nofun⟩ hk
  | resendSkb hw => exact absurd ⟨ht.nonempty, ht.queued, by rw [hw]; nofun⟩ hk
  | leave hw => exact absurd ⟨ht.nonempty, ht.queued, by rw [hw]; nofun⟩ hk

theorem Steps.left_iff (h : Steps k a t) (hk : k.Left) : t.Left ↔ a.arrival = none := by
  cases h with
  | ipRcv reserveMem skb =>
    rw [Act.arrival]
    constructor
    · intro ht
      rw [jpfIpRcv_left ht]
      rfl
    · intro hn
      rw [jpfIpRcv]
      split at hn
      · cases hn
      · rwa [if_neg ‹_›]
  | work hw hp => exact absurd hp (by simp [hk.queued])
  | getSkb hw => exact absurd hw hk.entered
  | getPartition hw => exact iff_of_true ⟨hk.nonempty, hk.queued, nofun⟩ rfl
  | readData hw => exact iff_of_true ⟨hk.nonempty, hk.queued, nofun⟩ rfl
  | resendSkb hw => exact iff_of_true ⟨hk.nonempty, hk.queued, nofun⟩ rfl
  | leave hw => exact iff_of_true ⟨hk.nonempty, hk.queued, nofun⟩ rfl

theorem run_left {C : Cpu → Act → Prop} (h : Run step C k as t) (hk : k.Left)
    (has : arrivals as = []) : t.Left := by
  induction h with
  | nil => exact hk
  | cons _ he _ ih =>
    rw [arrivals, List.flatMap_cons, List.append_eq_nil_iff] at has
    exact ih (((steps_of_step he).left_iff hk).mpr (by simpa using has.1)) has.2

theorem no_arrivals_of_left (h : Run step (fun k _ => k.Left) k as t) (ht : t.Left) :
    arrivals as = [] := by
  induction h with
  | nil => rfl
  | @cons k k' t a as hc he hr ih =>
    have hk' : k'.Left := by
      cases hr with
      | nil => exact ht
      | cons hc' => exact hc'
    rw [arrivals, List.flatMap_cons, ((steps_of_step he).left_iff hc).mp hk']
    exact ih ht

theorem getSkb_left (hp : k.pending = false) (hlen : threshold < k.skbList.length) : (getSkb k).Left := by
  refine ⟨?_, hp, ?_⟩
  · change k.skbList.drop threshold ≠ []
    rwa [ne_eq, List.drop_eq_nil_iff, not_le]
  · change ite _ _ _ ≠ _
    split <;> nofun

theorem run_burst {m : Nat} {x : Skb} (hacc : x.accepted m = true) (n : Nat) (k : Cpu) :
    Run step (fun _ _ => True) k (List.replicate (n + 1) (.ipRcv m x))
      { k with skbList := k.skbList ++ List.replicate (n + 1) x, pending := true } := by
  induction n generalizing k with
  | zero => exact .cons trivial (by simp [step, jpfIpRcv, hacc]) (.nil _)
  | succ n ih =>
    have hstep : step k (.ipRcv m x) = .ok { k with skbList := k.skbList ++ [x], pending := true } := by
      rw [step, jpfIpRcv, if_pos hacc]
    have hrest := ih { k with skbList := k.skbList ++ [x], pending := true }
    rw [List.append_assoc, List.singleton_append, ← List.replicate_succ] at hrest
    exact .cons trivial hstep hrest

/-- The packets of a CPU lie on its list with nothing to take them when, and only when, its worker
has found more than `threshold` packets and none has arrived there since it was started for the
last time. -/
theorem left_iff_over_threshold (as : List (Nat × Act)) (s : Nat → Cpu)
    (h : Run (interleave step) (fun _ _ => True) (fun _ => Cpu.init) as s) (c : Nat) :
    (s c).Left ↔ ∃ pre post u, as = pre ++ (c, .getSkb) :: post ∧
      Run (interleave step) (fun _ _ => True) (fun _ => Cpu.init) pre u ∧
      Run (interleave step) (fun _ _ => True) u ((c, .getSkb) :: post) s ∧
      (u c).pending = false ∧ threshold < (u c).skbList.length ∧ arrivals (actsOf c post) = [] := by
  constructor
  · intro hleft
    rcases Run.always_or_since (P := fun s => (s c).Left) h hleft with ⟨-, hinit⟩ | hsince
    · exact absurd rfl hinit.nonempty
    · obtain ⟨pre, ⟨i, a⟩, post, u, v, rfl, hpre, hu, -, he, hv, hpost⟩ := hsince
      obtain ⟨k, hk, rfl⟩ := interleave_eq_ok he
      -- a step of another CPU leaves this one as it was
      have hi : i = c := by
        by_contra hne
        rw [Function.update_of_ne (Ne.symm hne)] at hv
        exact hu hv
      subst hi
      rw [Function.update_self] at hv
      obtain ⟨rfl, hp, hlen⟩ := (steps_of_step hk).leaves hu hv
      refine ⟨pre, post, u, rfl, hpre, .cons trivial he (hpost.mono fun _ _ h => h.1), hp, hlen, ?_⟩
      exact no_arrivals_of_left (hpost.machine i fun _ _ h => h.2) hleft
  · rintro ⟨pre, post, u, rfl, -, hpost, hp, hlen, hnone⟩
    cases hpost with
    | cons _ he hpost =>
      obtain ⟨k, hk, rfl⟩ := interleave_eq_ok he
      refine run_left (hpost.machine (D := fun _ _ => True) c fun _ _ _ => trivial) ?_ hnone
      rw [Function.update_self]
      cases steps_of_step hk
      exact getSkb_left hp hlen

def burstActs : List Act := List.replicate 10001 (.ipRcv 102400 (sample 1)) ++ [.work]

def afterBurst : Cpu := ⟨List.replicate 10001 (sample 1), false, .entered, [], []⟩

theorem run_burstActs : Run (interleave step) (fun _ _ => True) (fun _ => Cpu.init) (burstActs.map (Prod.mk 0))
    (Function.update (fun _ => Cpu.init) 0 afterBurst) :=
  Run.lift (i := 0) ((run_burst rfl 10000 Cpu.init).append (.single trivial rfl))

theorem left_after_burst :
    ∃ as s, Run (interleave step) (fun _ _ => True) (fun _ => Cpu.init) as s ∧ (s 0).Left := by
  have hget : Run (interleave step) (fun _ _ => True) (Function.update (fun _ => Cpu.init) 0 afterBurst)
      [(0, .getSkb)] _ := .single trivial rfl
  have hrun := run_burstActs.append hget
  refine ⟨_, _, hrun, (left_iff_over_threshold _ _ hrun 0).mpr ⟨_, [], _, rfl, run_burstActs, hget, rfl, ?_, rfl⟩⟩
  rw [Function.update_self, afterBurst, List.length_replicate]
  decide

@[simp] def Worker.due : Worker → Nat
  | .entered => 1
  | _ => 0

def Cpu.due (k : Cpu) : Nat := (if k.pending then 1 else 0) + k.worker.due

@[simp] def Worker.budget : Worker → Nat
  | .idle => 0
  | .entered => 3
  | .hashing done rest => done.length + 2 * rest.length + 2
  | .resending rest => rest.length + 1

def Cpu.budget (k : Cpu) : Nat :=
  2 * k.skbList.length + (if k.pending then 4 else 0) + k.worker.budget

theorem getSkb_worker : (getSkb k).worker = .idle ∨
    (getSkb k).worker = .hashing [] (k.skbList.take threshold) := by
  rw [getSkb]
  split
  · exact .inl rfl
  · exact .inr rfl

structure Cpu.AtRest (k : Cpu) : Prop where
  pending : k.pending = false
  worker : k.worker = .idle

theorem Cpu.AtRest.due (hk : k.AtRest) : k.due = 0 := by simp [Cpu.due, hk.pending, hk.worker]

theorem Steps.drop_due (h : Steps k a t) (ha : a.ofWorker = true) :
    t.skbList.drop (t.due * threshold) = k.skbList.drop (k.due * threshold) := by
  cases h with
  | ipRcv => cases ha
  | work hw hp => simp [Cpu.due, hw, hp]
  | getSkb hw =>
    have hdue : k.due = (PacketPath.getSkb k).due + 1 := by
      rw [Cpu.due, Cpu.due, hw]
      rcases @getSkb_worker k with h | h <;> rw [h] <;> rfl
    rw [hdue, Nat.succ_mul, Nat.add_comm]
    exact List.drop_drop
  | getPartition hw => simp [Cpu.due, hw]
  | readData hw => simp [Cpu.due, hw]
  | resendSkb hw => simp [Cpu.due, hw]
  | leave hw => simp [Cpu.due, hw]

theorem Steps.budget_lt (h : Steps k a t) (ha : a.ofWorker = true) : t.budget < k.budget := by
  cases h with
  | ipRcv => cases ha
  | work hw hp => simp [Cpu.budget, hw, hp]
  | getSkb hw =>
    have hlist : (PacketPath.getSkb k).skbList.length = k.skbList.length - threshold := List.length_drop
    have hpending : (PacketPath.getSkb k).pending = k.pending := rfl
    rw [Cpu.budget, Cpu.budget, hw, hlist, hpending]
    rcases @getSkb_worker k with h | h
    · rw [h, Worker.budget, Worker.budget]
      omega
    · rw [h, Worker.budget, Worker.budget, List.length_take, List.length_nil]
      omega
  | getPartition hw =>
    simp only [Cpu.budget, hw, Worker.budget, List.length_append, List.length_cons, List.length_nil]
    omega
  | readData hw => simp [Cpu.budget, hw]
  | resendSkb hw => simp [Cpu.budget, hw]
  | leave hw => simp [Cpu.budget, hw]

theorem run_drop_due {C : Cpu → Act → Prop} (h : Run step C k as t) (has : ∀ a ∈ as, a.ofWorker = true) :
    t.skbList.drop (t.due * threshold) = k.skbList.drop (k.due * threshold) := by
  induction h with
  | nil => rfl
  | cons _ he _ ih =>
    obtain ⟨ha, has⟩ := List.forall_mem_cons.mp has
    exact (ih has).trans ((steps_of_step he).drop_due ha)

theorem run_length_le {C : Cpu → Act → Prop} (h : Run step C k as t) (has : ∀ a ∈ as, a.ofWorker = true) :
    as.length + t.budget ≤ k.budget := by
  induction h with
  | nil => exact Nat.le_of_eq (Nat.zero_add _)
  | cons _ he _ ih =>
    obtain ⟨ha, has⟩ := List.forall_mem_cons.mp has
    have hlt := (steps_of_step he).budget_lt ha
    have hle := ih has
    rw [List.length_cons]
    omega

theorem arrivals_of_worker (has : ∀ a ∈ as, a.ofWorker = true) : arrivals as = [] := by
  refine List.flatMap_eq_nil_iff.mpr fun a ha => ?_
  cases a with
  | ipRcv => exact absurd (has _ ha) (by simp)
  | _ => rfl

theorem exists_step (hk : ¬k.AtRest) : ∃ a t, a.ofWorker = true ∧ step k a = .ok t := by
  cases hw : k.worker with
  | idle =>
    have hp : k.pending = true := by
      by_contra hp
      exact hk ⟨Bool.eq_false_of_not_eq_true hp, hw⟩
    exact ⟨.work, _, rfl, by simp only [step, hw, hp]; rfl⟩
  | entered => exact ⟨.getSkb, _, rfl, by simp only [step, hw]; rfl⟩
  | hashing done rest =>
    cases rest with
    | nil => exact ⟨.readData, _, rfl, by simp only [step, hw]; rfl⟩
    | cons skb rest => exact ⟨.getPartition, _, rfl, by simp only [step, hw]; rfl⟩
  | resending rest =>
    cases rest with
    | nil => exact ⟨.leave, _, rfl, by simp only [step, hw]; rfl⟩
    | cons skb rest => exact ⟨.resendSkb, _, rfl, by simp only [step, hw]; rfl⟩

theorem exists_rest (k : Cpu) :
    ∃ as t, (∀ a ∈ as, a.ofWorker = true) ∧ Run step (fun _ _ => True) k as t ∧ t.AtRest := by
  induction hn : k.budget using Nat.strong_induction_on generalizing k with
  | _ n ih =>
    by_cases hk : k.AtRest
    · exact ⟨[], k, by simp, .nil k, hk⟩
    · obtain ⟨a, u, ha, he⟩ := exists_step hk
      obtain ⟨as, t, has, hr, ht⟩ := ih _ (hn ▸ (steps_of_step he).budget_lt ha) u rfl
      exact ⟨a :: as, t, List.forall_mem_cons.mpr ⟨ha, has⟩, .cons trivial he hr, ht⟩

theorem packets_settle (as : List (Nat × Act)) (s : Nat → Cpu)
    (h : Run (interleave step) (fun _ _ => True) (fun _ => Cpu.init) as s) (c : Nat) :
    (∃ (bs : List Act) (t : Nat → Cpu), (∀ a ∈ bs, a.ofWorker = true) ∧
      Run (interleave step) (fun _ _ => True) s (bs.map (Prod.mk c)) t ∧ (t c).AtRest) ∧
    ∀ bs t, (∀ a ∈ actsOf c bs, a.ofWorker = true) → Run (interleave step) (fun _ _ => True) s bs t →
      (actsOf c bs).length ≤ (s c).budget ∧
      ((t c).AtRest →
        (t c).resent ++ (s c).skbList.drop ((s c).due * threshold) = arrivals (actsOf c as)) := by
  constructor
  · obtain ⟨bs, u, hbs, hr, hu⟩ := exists_rest (s c)
    exact ⟨bs, _, hbs, hr.lift, by rwa [Function.update_self]⟩
  · intro bs t hbs hr
    have hlocal := hr.machine (D := fun _ _ => True) c fun _ _ _ => trivial
    refine ⟨(Nat.le_add_right _ _).trans (run_length_le hlocal hbs), fun ht => ?_⟩
    have hs := run_conserves (h.machine (D := fun _ _ => True) c fun _ _ _ => trivial) Cpu.init_conserves
    have harr := (run_conserves hlocal hs).arrived
    have hdrop := run_drop_due hlocal hbs
    rw [ht.due, Nat.zero_mul, List.drop_zero] at hdrop
    rw [arrivals_of_worker hbs, List.append_nil, List.nil_append, ht.worker, hdrop] at harr
    simpa using harr.symm

theorem settled_after_burst : ∃ t : Nat → Cpu, (t 0).AtRest ∧
    (t 0).resent ++ (List.replicate 10001 (sample 1)).drop threshold = arrivals burstActs := by
  obtain ⟨⟨bs, t, hbs, hr, ht⟩, hall⟩ := packets_settle _ _ run_burstActs 0
  rw [actsOf_map, Function.update_self] at hall
  exact ⟨t, ht, (hall _ t (by rwa [actsOf_map]) hr).2 ht⟩

end Wspack.KernelHash.PacketPath
