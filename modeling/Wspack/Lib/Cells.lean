import Mathlib.Algebra.BigOperators.Intervals
import Mathlib.Algebra.Order.BigOperators.Group.Finset
import Mathlib.Tactic.Linarith

universe u v

namespace Wspack.Lib

theorem update_eq_some {ι : Type u} {α : Type v} [DecidableEq ι] {f : ι → Option α}
    {i j : ι} {o : Option α} {x : α} (h : Function.update f i o j = some x) :
    j = i ∧ o = some x ∨ j ≠ i ∧ f j = some x := by
  by_cases e : j = i
  · subst e
    rw [Function.update_self] at h
    exact .inl ⟨rfl, h⟩
  · rw [Function.update_of_ne e] at h
    exact .inr ⟨e, h⟩

theorem forall_update {ι : Type u} {α : Type v} [DecidableEq ι] {f : ι → Option α} {i : ι} {x : α}
    {P : ι → α → Prop} (h : ∀ j y, f j = some y → P j y) (hx : P i x) :
    ∀ j y, Function.update f i (some x) j = some y → P j y := by
  intro j y hy
  rcases update_eq_some hy with ⟨rfl, he⟩ | ⟨_, hy⟩
  · cases he
    exact hx
  · exact h j y hy

theorem of_update_none {ι : Type u} {α : Type v} [DecidableEq ι] {f : ι → Option α} {i j : ι} {x : α}
    (h : Function.update f i none j = some x) : f j = some x := by
  rcases update_eq_some h with ⟨_, h⟩ | ⟨_, h⟩
  · cases h
  · exact h

theorem forall_mem_update {ι : Type u} {α : Type v} [DecidableEq ι] {f : ι → List α} {i : ι}
    {l : List α} {P : α → Prop} (h : ∀ j, ∀ x ∈ f j, P x) (hl : ∀ x ∈ l, P x) :
    ∀ j, ∀ x ∈ Function.update f i l j, P x := by
  intro j
  by_cases e : j = i
  · subst e
    rw [Function.update_self]
    exact hl
  · rw [Function.update_of_ne e]
    exact h j

variable {α : Type u} {n i : ℕ} {w : α → ℤ} {f : ℕ → α}

def tally (n : ℕ) (w : α → ℤ) (f : ℕ → α) : ℤ := ∑ i ∈ Finset.range n, w (f i)

theorem tally_congr {g : ℕ → α} (h : ∀ i < n, w (f i) = w (g i)) : tally n w f = tally n w g :=
  Finset.sum_congr rfl (fun i hi => h i (Finset.mem_range.mp hi))

theorem tally_update (h : i < n) (a : α) :
    tally n w (Function.update f i a) = tally n w f - w (f i) + w a := by
  have hi : i ∈ Finset.range n := Finset.mem_range.mpr h
  have hrest : ∑ j ∈ (Finset.range n).erase i, w (Function.update f i a j) =
      ∑ j ∈ (Finset.range n).erase i, w (f j) :=
    Finset.sum_congr rfl (fun j hj => by rw [Function.update_of_ne (Finset.ne_of_mem_erase hj)])
  have hnew := Finset.add_sum_erase _ (fun j => w (Function.update f i a j)) hi
  have hold := Finset.add_sum_erase _ (fun j => w (f j)) hi
  simp only [Function.update_self] at hnew
  unfold tally
  linarith

theorem tally_push (a : α) :
    tally (n + 1) w (Function.update f n a) = tally n w f + w a := by
  rw [tally, Finset.sum_range_succ, Function.update_self]
  congr 1
  exact tally_congr (fun i hi => by rw [Function.update_of_ne hi.ne])

theorem tally_nonneg (h : ∀ i < n, 0 ≤ w (f i)) : 0 ≤ tally n w f :=
  Finset.sum_nonneg (fun i hi => h i (Finset.mem_range.mp hi))

theorem le_tally (h : ∀ j < n, 0 ≤ w (f j)) (hi : i < n) : w (f i) ≤ tally n w f :=
  Finset.single_le_sum (f := fun j => w (f j)) (fun j hj => h j (Finset.mem_range.mp hj))
    (Finset.mem_range.mpr hi)

end Wspack.Lib
