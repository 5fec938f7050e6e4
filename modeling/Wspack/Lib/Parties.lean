import Mathlib.Algebra.BigOperators.Group.Finset.Basic
import Mathlib.Algebra.Order.BigOperators.Group.Finset
import Mathlib.Algebra.Order.Ring.Nat
import Mathlib.Data.Fintype.BigOperators
import Mathlib.Data.Nat.Cast.Basic

universe u v w

namespace Wspack.Lib

variable {ι : Type u} {α : Type v} {P : α → Bool} {f : ι → α} {i : ι} {x : α}

theorem forall_moved [DecidableEq ι] (Q : α → Prop) (hx : Q x) (h : ∀ j, Q (f j)) (j : ι) :
    Q (Function.update f i x j) :=
  (Function.forall_update_iff f (p := fun _ a => Q a)).mpr ⟨hx, fun j _ => h j⟩ j

theorem moved_eq [DecidableEq ι] {β : Type w} {b : β} (g : α → β) (hx : g x = b) (h : ∀ j, g (f j) = b) :
    ∀ j, g (Function.update f i x j) = b :=
  forall_moved (fun a => g a = b) hx h

variable [Fintype ι]

def total (w : α → Nat) (f : ι → α) : Nat := ∑ i, w (f i)

theorem total_update [DecidableEq ι] (w : α → Nat) (f : ι → α) (i : ι) (x : α) :
    total w (Function.update f i x) + w (f i) = total w f + w x := by
  have hmove : (fun j => w (Function.update f i x j)) = Function.update (fun j => w (f j)) i (w x) :=
    Function.comp_update w f i x
  have hrest := Finset.add_sum_erase Finset.univ (fun j => w (f j)) (Finset.mem_univ i)
  rw [total, hmove, Finset.sum_update_of_mem (Finset.mem_univ i), total, ← hrest, Finset.sdiff_singleton_eq_erase]
  omega

theorem total_le {w : α → Nat} {b : Nat} (hw : ∀ a, w a ≤ b) (f : ι → α) : total w f ≤ b * Fintype.card ι := by
  have h := Finset.sum_le_card_nsmul Finset.univ (fun i => w (f i)) b fun i _ => hw (f i)
  rwa [Finset.card_univ, nsmul_eq_mul, Nat.cast_id, Nat.mul_comm] at h

def parties (P : α → Bool) (f : ι → α) : Nat := total (fun a => (P a).toNat) f

theorem parties_eq_zero : parties P f = 0 ↔ ∀ i, P (f i) = false := by
  simp [parties, total]

theorem parties_pos (h : P (f i) = true) : 0 < parties P f := by
  refine Nat.pos_of_ne_zero fun hzero => ?_
  rw [parties_eq_zero.mp hzero i] at h
  cases h

theorem parties_le (P : α → Bool) (f : ι → α) : parties P f ≤ Fintype.card ι := by
  rw [parties, ← Nat.one_mul (Fintype.card ι)]
  exact total_le (fun a => Bool.toNat_le (P a)) f

theorem parties_update [DecidableEq ι] (P : α → Bool) (f : ι → α) (i : ι) (x : α) :
    parties P (Function.update f i x) + (P (f i)).toNat = parties P f + (P x).toNat :=
  total_update (fun a => (P a).toNat) f i x

end Wspack.Lib
