import Mathlib.Data.Int.ModEq
import Mathlib.Tactic.Ring

universe u

namespace Wspack.Lib

variable {K : Type u} [CommRing K] {r x y : K} {l : List K}

def polyHash (r : K) (l : List K) : K := l.foldl (fun h x => r * h + x) 0

theorem foldl_polyHash (r h : K) (l : List K) :
    l.foldl (fun h x => r * h + x) h = r ^ l.length * h + polyHash r l := by
  induction l generalizing h with
  | nil => simp [polyHash]
  | cons x l ih =>
    rw [polyHash, List.foldl_cons, List.foldl_cons, ih, ih, List.length_cons, pow_succ]
    ring

theorem polyHash_cons : polyHash r (x :: l) = r ^ l.length * x + polyHash r l := by
  rw [polyHash, List.foldl_cons, foldl_polyHash]
  ring

theorem polyHash_concat : polyHash r (l ++ [y]) = r * polyHash r l + y := by
  rw [polyHash, List.foldl_append, List.foldl_cons, List.foldl_nil, polyHash]

theorem polyHash_roll : (polyHash r (x :: l) - r ^ l.length * x) * r + y = polyHash r (l ++ [y]) := by
  rw [polyHash_cons, polyHash_concat]
  ring

section Rolled

variable {α : Type u} {f : α → Nat → α} {w : Nat → α} {n i : Nat}

/-- The values of a loop variable that `n` rounds from `i` on update, each with its round. -/
def rolled (f : α → Nat → α) : (n i : Nat) → α → List (Nat × α)
  | 0, _, _ => []
  | n + 1, i, a => (i, f a i) :: rolled f n (i + 1) (f a i)

theorem rolled_eq_map (h : ∀ j, i ≤ j → j < i + n → f (w j) j = w (j + 1)) :
    rolled f n i (w i) = (List.range' i n).map (fun j => (j, w (j + 1))) := by
  induction n generalizing i with
  | zero => rfl
  | succ n ih =>
    rw [rolled, h i le_rfl (by omega), List.range'_succ, List.map_cons]
    apply congrArg
    apply ih
    intro j hj hn
    exact h j (by omega) (by omega)

theorem rolled_exact_iff : (∀ x ∈ rolled f n i (w i), x.2 = w (x.1 + 1)) ↔
    ∀ j, i ≤ j → j < i + n → f (w j) j = w (j + 1) := by
  refine ⟨?_, ?_⟩
  · induction n generalizing i with
    | zero => exact fun _ j hj hn => absurd hn (Nat.not_lt.mpr hj)
    | succ n ih =>
      intro h j hj hn
      obtain ⟨hfirst, hrest⟩ := List.forall_mem_cons.mp h
      rcases hj.eq_or_lt with rfl | hj
      · exact hfirst
      · dsimp only at hfirst
        rw [hfirst] at hrest
        exact ih hrest j hj (by omega)
  · intro h x hx
    rw [rolled_eq_map h] at hx
    obtain ⟨j, -, rfl⟩ := List.mem_map.mp hx
    rfl

end Rolled

theorem tmod_eq_tmod_iff {a b q : Int} (hq : q ≠ 0) (h : a ≡ b [ZMOD q]) :
    a.tmod q = b.tmod q ↔ (0 ≤ a ↔ 0 ≤ b) ∨ a.tmod q = 0 := by
  have hdvd : q ∣ a ↔ q ∣ b := by rw [Int.dvd_iff_emod_eq_zero, h, Int.dvd_iff_emod_eq_zero]
  have habs : (q.natAbs : Int) ≠ 0 := by simpa using hq
  rw [← Int.dvd_iff_tmod_eq_zero, Int.tmod_eq_emod, Int.tmod_eq_emod, h]
  by_cases hb : q ∣ b
  · simp [hdvd, hb]
  · by_cases ha : 0 ≤ a <;> by_cases hb' : 0 ≤ b
    · simp [ha, hb']
    · simp only [hdvd, ha, hb, hb', true_or, if_true, or_self, if_false, iff_false, not_true]
      omega
    · simp only [hdvd, ha, hb, hb', true_or, if_true, or_self, if_false, iff_true, iff_false]
      omega
    · simp [hdvd, ha, hb, hb']

end Wspack.Lib
