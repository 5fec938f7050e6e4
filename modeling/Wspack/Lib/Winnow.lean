import Mathlib.Data.List.Pairwise
import Mathlib.Algebra.Order.Ring.Nat

universe u

namespace Wspack.Lib

section LastMax

variable {α : Type u} [LinearOrder α] {f : ℕ → α} {i n : ℕ}

def lastMax (f : ℕ → α) (i : ℕ) : (n : ℕ) → ℕ
  | 0 => i
  | n + 1 => if f (lastMax f i n) ≤ f (i + (n + 1)) then i + (n + 1) else lastMax f i n

/-- The last position of the largest value among `i, …, i + n`. -/
structure IsLastMax (f : ℕ → α) (i n m : ℕ) : Prop where
  left : i ≤ m
  right : m ≤ i + n
  largest : ∀ j, i ≤ j → j ≤ i + n → f j ≤ f m
  last : ∀ j, m < j → j ≤ i + n → f j < f m

theorem isLastMax_lastMax (f : ℕ → α) (i n : ℕ) : IsLastMax f i n (lastMax f i n) := by
  induction n with
  | zero =>
    refine ⟨le_rfl, le_rfl, fun j hi hj => ?_, fun j hi hj => ?_⟩
    · rw [show j = i from le_antisymm hj hi, lastMax]
    · exact absurd hj (not_le.mpr hi)
  | succ n ih =>
    rw [lastMax]
    split
    · refine ⟨by omega, le_rfl, fun j hi hj => ?_, fun j hi hj => absurd hj (not_le.mpr hi)⟩
      rcases Nat.lt_or_ge j (i + (n + 1)) with hlt | hge
      · exact (ih.largest j hi (by omega)).trans ‹_›
      · rw [show j = i + (n + 1) by omega]
    · have hnew := lt_of_not_ge ‹_›
      refine ⟨ih.left, ih.right.trans (by omega), fun j hi hj => ?_, fun j hi hj => ?_⟩
      · rcases Nat.lt_or_ge j (i + (n + 1)) with hlt | hge
        · exact ih.largest j hi (by omega)
        · rw [show j = i + (n + 1) by omega]
          exact hnew.le
      · rcases Nat.lt_or_ge j (i + (n + 1)) with hlt | hge
        · exact ih.last j hi (by omega)
        · rw [show j = i + (n + 1) by omega]
          exact hnew

def blockMaxima (f : ℕ → α) (w : ℕ) : (i k : ℕ) → List ℕ
  | _, 0 => []
  | i, k + 1 => lastMax f i w :: blockMaxima f w (i + (w + 1)) k

theorem mem_blockMaxima {w k m : ℕ} (h : m ∈ blockMaxima f w i k) :
    ∃ b < k, IsLastMax f (i + (w + 1) * b) w m := by
  induction k generalizing i with
  | zero => cases h
  | succ k ih =>
    rcases List.mem_cons.mp h with rfl | h
    · exact ⟨0, Nat.succ_pos k, isLastMax_lastMax f i w⟩
    · obtain ⟨b, hb, hm⟩ := ih h
      rw [Nat.add_assoc, Nat.add_comm (w + 1), ← Nat.mul_succ] at hm
      exact ⟨b + 1, Nat.succ_lt_succ hb, hm⟩

theorem length_blockMaxima {w k : ℕ} : (blockMaxima f w i k).length = k := by
  induction k generalizing i with
  | zero => rfl
  | succ k ih => rw [blockMaxima, List.length_cons, ih]

end LastMax

section Spaced

variable {gap m x : ℕ} {sel l : List ℕ}

def takeSpaced (gap : ℕ) (sel : List ℕ) (m : ℕ) : List ℕ :=
  match sel.getLast? with
  | none => sel ++ [m]
  | some last => if last + gap ≤ m then sel ++ [m] else sel

def spaced (gap : ℕ) (l : List ℕ) : List ℕ := l.foldl (takeSpaced gap) []

theorem takeSpaced_cases (gap : ℕ) (sel : List ℕ) (m : ℕ) :
    takeSpaced gap sel m = sel ∨
      (takeSpaced gap sel m = sel ++ [m] ∧ ∀ last, sel.getLast? = some last → last + gap ≤ m) := by
  unfold takeSpaced
  cases hl : sel.getLast? with
  | none => exact .inr ⟨rfl, fun _ h => by cases h⟩
  | some last =>
    by_cases hle : last + gap ≤ m
    · exact .inr ⟨if_pos hle, fun _ h => by cases h; exact hle⟩
    · exact .inl (if_neg hle)

theorem takeSpaced_pairwise (h : sel.Pairwise (fun x y => x + gap ≤ y)) :
    (takeSpaced gap sel m).Pairwise (fun x y => x + gap ≤ y) := by
  rcases takeSpaced_cases gap sel m with hs | ⟨hs, hlast⟩
  · rwa [hs]
  · rw [hs, List.pairwise_append]
    refine ⟨h, List.pairwise_singleton _ _, fun x hx y hy => ?_⟩
    rw [List.mem_singleton.mp hy]
    obtain ⟨init, last, hsel⟩ := (List.eq_nil_or_concat sel).resolve_left (List.ne_nil_of_mem hx)
    rw [List.concat_eq_append] at hsel
    subst hsel
    have hm := hlast last (by simp)
    rcases List.mem_append.mp hx with hx | hx
    · have := (List.pairwise_append.mp h).2.2 x hx last (by simp)
      omega
    · rwa [List.mem_singleton.mp hx]

theorem foldl_takeSpaced_pairwise (h : sel.Pairwise (fun x y => x + gap ≤ y)) :
    (l.foldl (takeSpaced gap) sel).Pairwise (fun x y => x + gap ≤ y) := by
  induction l generalizing sel with
  | nil => exact h
  | cons m l ih => exact ih (takeSpaced_pairwise h)

theorem spaced_pairwise (gap : ℕ) (l : List ℕ) :
    (spaced gap l).Pairwise (fun x y => x + gap ≤ y) := foldl_takeSpaced_pairwise .nil

theorem mem_foldl_takeSpaced (h : x ∈ l.foldl (takeSpaced gap) sel) : x ∈ sel ∨ x ∈ l := by
  induction l generalizing sel with
  | nil => exact .inl h
  | cons m l ih =>
    rcases ih h with hx | hx
    · rcases takeSpaced_cases gap sel m with hs | ⟨hs, -⟩
      · exact .inl (hs ▸ hx)
      · rw [hs, List.mem_append, List.mem_singleton] at hx
        rcases hx with hx | rfl
        · exact .inl hx
        · exact .inr List.mem_cons_self
    · exact .inr (List.mem_cons_of_mem m hx)

theorem mem_of_mem_spaced (h : x ∈ spaced gap l) : x ∈ l :=
  (mem_foldl_takeSpaced h).resolve_left List.not_mem_nil

theorem length_takeSpaced : sel.length ≤ (takeSpaced gap sel m).length := by
  rcases takeSpaced_cases gap sel m with hs | ⟨hs, -⟩
  · rw [hs]
  · simp [hs]

theorem length_foldl_takeSpaced : sel.length ≤ (l.foldl (takeSpaced gap) sel).length := by
  induction l generalizing sel with
  | nil => exact le_rfl
  | cons m l ih => exact length_takeSpaced.trans ih

theorem length_foldl_takeSpaced_le :
    (l.foldl (takeSpaced gap) sel).length ≤ sel.length + l.length := by
  induction l generalizing sel with
  | nil => exact le_rfl
  | cons m l ih =>
    have hone : (takeSpaced gap sel m).length ≤ sel.length + 1 := by
      rcases takeSpaced_cases gap sel m with hs | ⟨hs, -⟩ <;> simp [hs]
    have hrest := @ih (takeSpaced gap sel m)
    rw [List.foldl_cons, List.length_cons]
    omega

theorem length_spaced_le (gap : ℕ) (l : List ℕ) : (spaced gap l).length ≤ l.length := by
  have h := @length_foldl_takeSpaced_le gap [] l
  rwa [List.length_nil, Nat.zero_add] at h

end Spaced

end Wspack.Lib
