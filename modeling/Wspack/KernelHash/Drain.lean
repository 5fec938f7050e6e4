import Mathlib.Logic.Function.Basic
import Mathlib.Data.List.Nodup
import Mathlib.Algebra.Order.Ring.Nat

/-! The draining of the per-CPU lists of packets when the module is unloaded.  The caller of
`clear_remainder_skb` stays on one CPU; the probe is gone, so that no packet arrives, and no
work is pending when it starts. -/

universe u

namespace Wspack.KernelHash.Drain

variable {α : Type u} {c : Nat} {cpus : List Nat} {ncpu : Nat}

abbrev SkbList (α : Type u) := Nat → List α

def threshold : Nat := 10000

def handleSkb (c : Nat) (lists : SkbList α) : SkbList α :=
  Function.update lists c ((lists c).drop threshold)

structure Pass (α : Type u) where
  lists : SkbList α
  works : Nat
  rem : Nat

def Pass.run (c : Nat) : Nat → Pass α → Pass α
  | 0, p => p
  | n + 1, p => if p.works = 0 then p
    else Pass.run c n { p with lists := handleSkb c p.lists, works := p.works - 1 }

/-- The loop over the online CPUs.  What it queues is queued on the CPU `c` of the caller, and
`early` says how many works run there before the loop comes to a CPU.  The work of a CPU is
queued once in a pass, so it is never pending. -/
def Pass.scan (c : Nat) (early : Nat → Nat) : List Nat → Pass α → Pass α
  | [], p => p
  | cpu :: cpus, p =>
    let p := p.run c (early cpu)
    if (p.lists cpu).isEmpty then Pass.scan c early cpus { p with rem := p.rem + 1 }
    else Pass.scan c early cpus { p with works := p.works + 1 }

/-- One turn of `clear_again`: `none` where it returns, else the lists after `flush_workqueue`. -/
def clearAgain (ncpu c : Nat) (early : Nat → Nat) (lists : SkbList α) : Option (SkbList α) :=
  let p := Pass.scan c early (List.range ncpu) ⟨lists, 0, 0⟩
  if p.rem = ncpu then none else some (p.run c p.works).lists

def clearRemainderSkb (ncpu c : Nat) (early : Nat → Nat → Nat) (lists : SkbList α) : Nat → Option (SkbList α)
  | 0 => some lists
  | k + 1 => (clearRemainderSkb ncpu c early lists k).bind (clearAgain ncpu c (early k))

theorem Pass.run_of_ne {cpu : Nat} (hne : cpu ≠ c) (n : Nat) (p : Pass α) :
    (p.run c n).lists cpu = p.lists cpu := by
  induction n generalizing p with
  | zero => rfl
  | succ n ih =>
    rw [Pass.run]
    split
    · rfl
    · rw [ih]
      exact Function.update_of_ne hne _ _

@[simp] theorem Pass.run_rem (n : Nat) (p : Pass α) : (p.run c n).rem = p.rem := by
  induction n generalizing p with
  | zero => rfl
  | succ n ih =>
    rw [Pass.run]
    split
    · rfl
    · rw [ih]

section Scan

variable (early : Nat → Nat)

theorem Pass.scan_of_ne {cpu : Nat} (hne : cpu ≠ c) (p : Pass α) :
    (p.scan c early cpus).lists cpu = p.lists cpu := by
  induction cpus generalizing p with
  | nil => rfl
  | cons k cpus ih =>
    rw [Pass.scan]
    split
    · exact (ih _).trans (Pass.run_of_ne hne _ p)
    · exact (ih _).trans (Pass.run_of_ne hne _ p)

theorem Pass.scan_append {pre post : List Nat} (p : Pass α) :
    p.scan c early (pre ++ post) = (p.scan c early pre).scan c early post := by
  induction pre generalizing p with
  | nil => rfl
  | cons k pre ih =>
    rw [List.cons_append, Pass.scan, Pass.scan]
    split
    · exact ih _
    · exact ih _

theorem Pass.scan_rem_le (p : Pass α) : (p.scan c early cpus).rem ≤ p.rem + cpus.length := by
  induction cpus generalizing p with
  | nil => exact le_rfl
  | cons k cpus ih =>
    rw [Pass.scan, List.length_cons]
    split
    · refine (ih _).trans ?_
      simp only [Pass.run_rem]
      omega
    · refine (ih _).trans ?_
      simp only [Pass.run_rem]
      omega

theorem Pass.scan_rem_lt {cpu : Nat} (hmem : cpu ∈ cpus) (hne : cpu ≠ c) (p : Pass α)
    (hp : p.lists cpu ≠ []) : (p.scan c early cpus).rem < p.rem + cpus.length := by
  induction cpus generalizing p with
  | nil => cases hmem
  | cons k cpus ih =>
    have hrun : (p.run c (early k)).lists cpu ≠ [] := by rwa [Pass.run_of_ne hne]
    rw [Pass.scan, List.length_cons]
    split
    · rename_i hk
      have hmem : cpu ∈ cpus := by
        apply List.mem_of_ne_of_mem _ hmem
        rintro rfl
        exact hrun (List.isEmpty_iff.mp hk)
      have := ih hmem { p.run c (early k) with rem := (p.run c (early k)).rem + 1 } hrun
      simp only [Pass.run_rem] at this ⊢
      omega
    · have := @Pass.scan_rem_le α c cpus early
        { p.run c (early k) with works := (p.run c (early k)).works + 1 }
      simp only [Pass.run_rem] at this ⊢
      omega

theorem clearAgain_stuck {cpu : Nat} {lists : SkbList α} (hcpu : cpu < ncpu) (hne : cpu ≠ c)
    (h : lists cpu ≠ []) :
    ∃ lists', clearAgain ncpu c early lists = some lists' ∧ lists' cpu = lists cpu := by
  have hlt := Pass.scan_rem_lt early (List.mem_range.mpr hcpu) hne ⟨lists, 0, 0⟩ h
  rw [List.length_range, Nat.zero_add] at hlt
  refine ⟨_, by rw [clearAgain, if_neg hlt.ne], ?_⟩
  rw [Pass.run_of_ne hne, Pass.scan_of_ne early hne]

theorem Pass.run_idle (n : Nat) {p : Pass α} (h : p.works = 0) : p.run c n = p := by
  cases n with
  | zero => rfl
  | succ n => rw [Pass.run, if_pos h]

theorem Pass.scan_idle {p : Pass α} (hw : p.works = 0) (h : ∀ cpu ∈ cpus, p.lists cpu = []) :
    p.scan c early cpus = { p with rem := p.rem + cpus.length } := by
  induction cpus generalizing p with
  | nil => rfl
  | cons k cpus ih =>
    obtain ⟨hk, hcpus⟩ := List.forall_mem_cons.mp h
    rw [Pass.scan, Pass.run_idle _ hw, if_pos (by rw [hk]; rfl)]
    rw [ih (p := { p with rem := p.rem + 1 }) hw hcpus, List.length_cons]
    congr 1
    change p.rem + 1 + cpus.length = _
    omega

theorem Pass.flush_single {p : Pass α} (hw : p.works = 1) (h : ∀ cpu ∈ cpus, cpu ≠ c ∧ p.lists cpu = []) :
    (p.scan c early cpus).rem = p.rem + cpus.length ∧
      ((p.scan c early cpus).run c (p.scan c early cpus).works).lists = handleSkb c p.lists := by
  induction cpus generalizing p with
  | nil =>
    refine ⟨rfl, ?_⟩
    rw [Pass.scan, hw, Pass.run, if_neg (by omega)]
    rfl
  | cons k cpus ih =>
    obtain ⟨⟨hne, hk⟩, hcpus⟩ := List.forall_mem_cons.mp h
    have hempty : ((p.run c (early k)).lists k).isEmpty = true := by
      rw [Pass.run_of_ne hne, hk]
      rfl
    rw [Pass.scan, if_pos hempty, List.length_cons]
    cases hearly : early k with
    | zero =>
      obtain ⟨hrem, hlists⟩ := ih (p := { p with rem := p.rem + 1 }) hw hcpus
      rw [Pass.run]
      exact ⟨hrem.trans (by change p.rem + 1 + _ = _; omega), hlists⟩
    | succ n =>
      -- the work has already run, so that the rest of the pass finds nothing to do
      have hran : p.run c (n + 1) = { p with lists := handleSkb c p.lists, works := 0 } := by
        rw [Pass.run, if_neg (by omega), hw, Pass.run_idle _ rfl]
      rw [hran]
      have hidle := @Pass.scan_idle α c cpus early
        { lists := handleSkb c p.lists, works := 0, rem := p.rem + 1 } rfl
        (fun cpu hcpu => by
          obtain ⟨hne, hnil⟩ := hcpus cpu hcpu
          exact (Function.update_of_ne hne _ _).trans hnil)
      rw [hidle]
      exact ⟨by simp only; omega, rfl⟩

theorem clearAgain_empty {lists : SkbList α} (h : ∀ cpu < ncpu, lists cpu = []) :
    clearAgain ncpu c early lists = none := by
  have hscan := @Pass.scan_idle α c (List.range ncpu) early ⟨lists, 0, 0⟩ rfl
    (fun cpu hcpu => h cpu (List.mem_range.mp hcpu))
  rw [clearAgain, hscan, if_pos (by simp)]

theorem clearAgain_own {lists : SkbList α} (hc : c < ncpu) (hown : lists c ≠ [])
    (h : ∀ cpu < ncpu, cpu ≠ c → lists cpu = []) :
    clearAgain ncpu c early lists = some (handleSkb c lists) := by
  obtain ⟨pre, post, hsplit⟩ := List.append_of_mem (List.mem_range.mpr hc)
  have hnodup : (pre ++ c :: post).Nodup := hsplit ▸ List.nodup_range
  have hmem : ∀ cpu ∈ pre ++ c :: post, cpu < ncpu := fun cpu hcpu => List.mem_range.mp (hsplit ▸ hcpu)
  have hlen : pre.length + (post.length + 1) = ncpu := by
    rw [← List.length_range (n := ncpu), hsplit, List.length_append, List.length_cons]
  have hpre : ∀ cpu ∈ pre, lists cpu = [] := by
    intro cpu hcpu
    apply h cpu (hmem cpu (List.mem_append_left _ hcpu))
    rintro rfl
    exact (List.disjoint_of_nodup_append hnodup) hcpu List.mem_cons_self
  have hpost : ∀ cpu ∈ post, cpu ≠ c ∧ lists cpu = [] := by
    intro cpu hcpu
    have hne : cpu ≠ c := by
      rintro rfl
      exact (List.nodup_cons.mp hnodup.of_append_right).1 hcpu
    exact ⟨hne, h cpu (hmem cpu (List.mem_append_right _ (List.mem_cons_of_mem _ hcpu))) hne⟩
  have hscan : Pass.scan c early (List.range ncpu) ⟨lists, 0, 0⟩ =
      Pass.scan c early post ⟨lists, 1, pre.length⟩ := by
    rw [hsplit, Pass.scan_append, Pass.scan_idle early (p := ⟨lists, 0, 0⟩) rfl hpre, Pass.scan, Pass.run_idle _ rfl,
      if_neg (by simpa using hown), Nat.zero_add]
  obtain ⟨hrem, hlists⟩ := Pass.flush_single early (p := ⟨lists, 1, pre.length⟩) rfl hpost
  rw [clearAgain, hscan, if_neg (by rw [hrem]; change pre.length + _ ≠ _; omega), hlists]

end Scan

theorem clearRemainderSkb_stuck {cpu : Nat} (early : Nat → Nat → Nat) {lists : SkbList α}
    (hcpu : cpu < ncpu) (hne : cpu ≠ c) (h : lists cpu ≠ []) (k : Nat) :
    ∃ l, clearRemainderSkb ncpu c early lists k = some l ∧ l cpu = lists cpu := by
  induction k with
  | zero => exact ⟨lists, rfl, rfl⟩
  | succ k ih =>
    obtain ⟨l, hl, hkept⟩ := ih
    obtain ⟨l', hl', hkept'⟩ := clearAgain_stuck (early k) hcpu hne (hkept ▸ h)
    exact ⟨l', by rw [clearRemainderSkb, hl, Option.bind_some, hl'], hkept'.trans hkept⟩

theorem clearRemainderSkb_own (early : Nat → Nat → Nat) {lists : SkbList α} (hc : c < ncpu)
    (h : ∀ cpu < ncpu, cpu ≠ c → lists cpu = []) (k : Nat) :
    clearRemainderSkb ncpu c early lists k = none ∨
      ∃ l, clearRemainderSkb ncpu c early lists k = some l ∧
        (∀ cpu < ncpu, cpu ≠ c → l cpu = []) ∧ l c = (lists c).drop (threshold * k) := by
  induction k with
  | zero => exact .inr ⟨lists, rfl, h, by simp⟩
  | succ k ih =>
    rw [clearRemainderSkb]
    rcases ih with hl | ⟨l, hl, hothers, hown⟩
    · exact .inl (by rw [hl]; rfl)
    · rw [hl, Option.bind_some]
      by_cases hempty : l c = []
      · left
        apply clearAgain_empty
        intro cpu hcpu
        by_cases e : cpu = c
        · rw [e, hempty]
        · exact hothers cpu hcpu e
      · right
        refine ⟨handleSkb c l, clearAgain_own (early k) hc hempty hothers, fun cpu hcpu hne => ?_, ?_⟩
        · exact (Function.update_of_ne hne _ _).trans (hothers cpu hcpu hne)
        · rw [handleSkb, Function.update_self, hown, List.drop_drop, Nat.mul_succ]

theorem clear_remainder_returns_iff (ncpu c : Nat) (hc : c < ncpu) (early : Nat → Nat → Nat)
    (lists : SkbList α) :
    (∃ k, clearRemainderSkb ncpu c early lists k = none) ↔ ∀ cpu < ncpu, cpu ≠ c → lists cpu = [] := by
  constructor
  · rintro ⟨k, hk⟩ cpu hcpu hne
    by_contra hlist
    obtain ⟨l, hl, -⟩ := clearRemainderSkb_stuck early hcpu hne hlist k
    rw [hk] at hl
    cases hl
  · intro h
    have hlast : (lists c).drop (threshold * (lists c).length) = [] := by
      rw [List.drop_eq_nil_iff, threshold]
      omega
    rcases clearRemainderSkb_own early hc h (lists c).length with hnone | ⟨l, hl, hothers, hown⟩
    · exact ⟨_, hnone⟩
    · refine ⟨(lists c).length + 1, ?_⟩
      rw [clearRemainderSkb, hl, Option.bind_some]
      apply clearAgain_empty
      intro cpu hcpu
      by_cases e : cpu = c
      · rw [e, hown, hlast]
      · exact hothers cpu hcpu e

theorem clear_remainder_own_cpu :
    ∃ k, clearRemainderSkb 2 1 (fun _ _ => 0) (fun cpu => if cpu = 1 then [()] else []) k = none :=
  (clear_remainder_returns_iff 2 1 (by decide) _ _).mpr fun _ _ hne => if_neg hne

theorem clear_remainder_hangs :
    ¬∃ k, clearRemainderSkb 2 0 (fun _ _ => 0) (fun cpu => if cpu = 1 then [()] else []) k = none := by
  rintro ⟨k, hk⟩
  have hstuck := @clearRemainderSkb_stuck Unit 0 2 1 (fun _ _ => 0) (fun cpu => if cpu = 1 then [()] else [])
    (by decide) (by decide) (by decide) k
  rw [hk] at hstuck
  simp at hstuck

end Wspack.KernelHash.Drain
