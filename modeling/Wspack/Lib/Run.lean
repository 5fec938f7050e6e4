import Mathlib.Logic.Relation
import Mathlib.Logic.Function.Basic

/-! Runs of a fallible step function.  A run may be restricted to steps meeting a
condition on the state they start from, which is how a development says under
which schedules an invariant survives.  For a step function that is total, what
holds at every step of a sequence. -/

universe u v w

namespace Wspack.Lib

variable {σ : Type u} {α : Type v} {ε : Type w}

inductive Run (step : σ → α → Except ε σ) (C : σ → α → Prop) : σ → List α → σ → Prop
  | nil (s : σ) : Run step C s [] s
  | cons {s t u : σ} {a : α} {as : List α} :
      C s a → step s a = .ok t → Run step C t as u → Run step C s (a :: as) u

variable {step : σ → α → Except ε σ} {C D : σ → α → Prop} {P : σ → Prop} {s t : σ} {as : List α}

/-- The invariant rule: what every admitted step preserves holds along every run. -/
theorem Run.invariant (hstep : ∀ s a t, C s a → step s a = .ok t → P s → P t)
    (h : Run step C s as t) (hs : P s) : P t := by
  induction h with
  | nil => exact hs
  | cons hc he _ ih => exact ih (hstep _ _ _ hc he hs)

theorem Run.mono (hcd : ∀ s a, C s a → D s a) (h : Run step C s as t) : Run step D s as t := by
  induction h with
  | nil => exact .nil _
  | cons hc he _ ih => exact .cons (hcd _ _ hc) he ih

theorem Run.single {a : α} (hc : C s a) (h : step s a = .ok t) : Run step C s [a] t :=
  .cons hc h (.nil t)

theorem Run.append {u : σ} {bs : List α} (h : Run step C s as t) (h' : Run step C t bs u) :
    Run step C s (as ++ bs) u := by
  induction h with
  | nil => exact h'
  | cons hc he _ ih => exact .cons hc he (ih h')

def exec (step : σ → α → Except ε σ) (g : σ → α → Bool) : σ → List α → Option σ
  | s, [] => some s
  | s, a :: as => if g s a then
      match step s a with
      | .ok t => exec step g t as
      | .error _ => none
    else none

theorem run_of_exec {g : σ → α → Bool} (h : exec step g s as = some t) :
    Run step (fun s a => g s a = true) s as t := by
  induction as generalizing s with
  | nil => cases h; exact .nil _
  | cons a as ih =>
    rw [exec] at h
    split at h
    · split at h
      · exact .cons ‹_› ‹_› (ih h)
      · cases h
    · cases h

def final (step : σ → α → Except ε σ) (g : σ → α → Bool) (s : σ) (as : List α) : σ :=
  (exec step g s as).getD s

theorem run_final {g : σ → α → Bool} (h : (exec step g s as).isSome = true) :
    Run step (fun s a => g s a = true) s as (final step g s as) := by
  obtain ⟨t, ht⟩ := Option.isSome_iff_exists.mp h
  simpa [final, ht] using run_of_exec ht

theorem run_final_any {g : σ → α → Bool} (h : (exec step g s as).isSome = true) :
    Run step (fun _ _ => True) s as (final step g s as) :=
  (run_final h).mono (fun _ _ _ => trivial)

theorem invariant_of_chain {R : σ → σ → Prop} (hR : ∀ s t, R s t → P s → P t)
    (h : Relation.ReflTransGen R s t) (hs : P s) : P t := by
  induction h with
  | refl => exact hs
  | tail _ hr ih => exact hR _ _ hr ih

theorem Run.simulate {τ : Type u} {β : Type v} {next : τ → β → Except ε τ} {f : α → β}
    {R : σ → τ → Prop} (hsim : ∀ s t a s', R s t → step s a = .ok s' → ∃ t', next t (f a) = .ok t' ∧ R s' t')
    {s' : σ} {t : τ} (h : Run step C s as s') (hR : R s t) :
    ∃ t', Run next (fun _ _ => True) t (as.map f) t' ∧ R s' t' := by
  induction h generalizing t with
  | nil => exact ⟨t, .nil t, hR⟩
  | cons _ he _ ih =>
    obtain ⟨u, hu, hRu⟩ := hsim _ _ _ _ hR he
    obtain ⟨t', hr, hR'⟩ := ih hRu
    exact ⟨t', .cons trivial hu hr, hR'⟩

/-- A property that holds in the end has held throughout, or since the last step that brought it
about. -/
theorem Run.always_or_since (h : Run step C s as t) (ht : P t) :
    Run step (fun s a => C s a ∧ P s) s as t ∧ P s ∨
      ∃ pre a post u v, as = pre ++ a :: post ∧ Run step C s pre u ∧ ¬P u ∧ C u a ∧
        step u a = .ok v ∧ P v ∧ Run step (fun s a => C s a ∧ P s) v post t := by
  induction h with
  | nil => exact .inl ⟨.nil _, ht⟩
  | @cons s s' t a as hc he hr ih =>
    rcases ih ht with ⟨hkeep, hs'⟩ | ⟨pre, b, post, u, v, rfl, hpre, hrest⟩
    · by_cases hs : P s
      · exact .inl ⟨.cons ⟨hc, hs⟩ he hkeep, hs⟩
      · exact .inr ⟨[], a, as, s, s', rfl, .nil s, hs, hc, he, hs', hkeep⟩
    · exact .inr ⟨a :: pre, b, post, u, v, rfl, .cons hc he hpre, hrest⟩

section Interleave

variable {ι : Type w} [DecidableEq ι] {C : (ι → σ) → ι × α → Prop} {s t : ι → σ} {as : List (ι × α)}

def interleave (step : σ → α → Except ε σ) (s : ι → σ) (a : ι × α) : Except ε (ι → σ) :=
  (step (s a.1) a.2).map (Function.update s a.1)

def actsOf (i : ι) (as : List (ι × α)) : List α := as.filterMap fun a => if a.1 = i then some a.2 else none

theorem actsOf_map (i : ι) (bs : List α) : actsOf i (bs.map (Prod.mk i)) = bs := by
  induction bs with
  | nil => rfl
  | cons b bs ih =>
    rw [List.map_cons, actsOf, List.filterMap_cons, if_pos rfl]
    exact congrArg (b :: ·) ih

theorem actsOf_append (i : ι) (as bs : List (ι × α)) : actsOf i (as ++ bs) = actsOf i as ++ actsOf i bs :=
  List.filterMap_append

theorem actsOf_map_of_ne {i j : ι} (hne : j ≠ i) (bs : List α) : actsOf i (bs.map (Prod.mk j)) = [] := by
  simp [actsOf, hne]

theorem interleave_eq_ok {s t : ι → σ} {a : ι × α} (h : interleave step s a = .ok t) :
    ∃ u, step (s a.1) a.2 = .ok u ∧ t = Function.update s a.1 u := by
  rw [interleave] at h
  cases hstep : step (s a.1) a.2 with
  | error e => rw [hstep] at h; cases h
  | ok u =>
    rw [hstep] at h
    exact ⟨u, rfl, (Except.ok.inj h).symm⟩

theorem Run.machine {D : σ → α → Prop} (h : Run (interleave step) C s as t) (i : ι)
    (hd : ∀ s a, C s (i, a) → D (s i) a) : Run step D (s i) (actsOf i as) (t i) := by
  induction h with
  | nil => exact .nil _
  | @cons s s' t a as hc he _ ih =>
    obtain ⟨u, hstep, rfl⟩ := interleave_eq_ok he
    obtain ⟨j, a⟩ := a
    by_cases hi : j = i
    · subst hi
      rw [Function.update_self] at ih
      simpa [actsOf] using Run.cons (hd s a hc) hstep ih
    · rw [Function.update_of_ne (Ne.symm hi)] at ih
      simpa [actsOf, hi] using ih

theorem Run.lift {i : ι} {u : σ} {bs : List α} (h : Run step (fun _ _ => True) (s i) bs u) :
    Run (interleave step) (fun _ _ => True) s (bs.map (Prod.mk i)) (Function.update s i u) := by
  generalize hx : s i = x at h
  induction h generalizing s with
  | nil =>
    rw [← hx, Function.update_eq_self]
    exact .nil _
  | @cons x y u a bs _ he _ ih =>
    have hy := ih (Function.update_self i y s)
    rw [Function.update_idem] at hy
    refine .cons trivial ?_ hy
    rw [interleave, hx, he]
    rfl

end Interleave

section Along

variable {next : σ → α → σ} {I : σ → Prop} {V : α → Prop} {Q R : σ → α → Prop}

def Along (next : σ → α → σ) (Q : σ → α → Prop) : σ → List α → Prop
  | _, [] => True
  | s, a :: as => Q s a ∧ Along next Q (next s a) as

instance Along.decidable [∀ s, DecidablePred (Q s)] :
    (s : σ) → (as : List α) → Decidable (Along next Q s as)
  | _, [] => inferInstanceAs (Decidable True)
  | s, a :: as => @instDecidableAnd _ _ _ (decidable (next s a) as)

theorem along_iff (hiff : ∀ s a, V a → I s → (Q s a ↔ R s a))
    (hkeep : ∀ s a, V a → I s → R s a → I (next s a)) (hs : I s) (has : ∀ a ∈ as, V a) :
    Along next Q s as ↔ Along next R s as := by
  induction as generalizing s with
  | nil => exact Iff.rfl
  | cons a as ih =>
    obtain ⟨ha, has⟩ := List.forall_mem_cons.mp has
    rw [Along, Along, hiff s a ha hs]
    apply and_congr_right
    intro hr
    exact ih (hkeep s a ha hs hr) has

end Along

end Wspack.Lib
