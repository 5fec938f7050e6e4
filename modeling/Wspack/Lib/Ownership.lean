import Wspack.Lib.Cells
import Mathlib.Data.List.Nodup
import Mathlib.Algebra.Order.Ring.Nat

universe u

namespace Wspack.Lib

variable {ι : Type u} [DecidableEq ι] {owner : ι → Option ℕ} {next : ℕ} {freed : List ℕ} {i j : ι}
  {p : ℕ}

structure Owned (owner : ι → Option ℕ) (next : ℕ) (freed : List ℕ) : Prop where
  live : ∀ i p, owner i = some p → p < next ∧ p ∉ freed
  inj : ∀ i j p, owner i = some p → owner j = some p → i = j
  freed_lt : ∀ p ∈ freed, p < next
  nodup : freed.Nodup
  covered : ∀ p < next, p ∈ freed ∨ ∃ i, owner i = some p

theorem Owned.alloc (h : Owned owner next freed) (hi : owner i = none) :
    Owned (Function.update owner i (some next)) (next + 1) freed where
  live j p hj := by
    by_cases e : j = i
    · subst e
      simp only [Function.update_self, Option.some.injEq] at hj
      subst hj
      exact ⟨by omega, fun hm => absurd (h.freed_lt _ hm) (by omega)⟩
    · rw [Function.update_of_ne e] at hj
      obtain ⟨hlt, hm⟩ := h.live j p hj
      exact ⟨by omega, hm⟩
  inj j k p hj hk := by
    have hfresh : ∀ l, owner l ≠ some next := fun l hl => absurd (h.live l next hl).1 (by omega)
    by_cases ej : j = i <;> by_cases ek : k = i
    · rw [ej, ek]
    · subst ej
      simp only [Function.update_self, Option.some.injEq, Function.update_of_ne ek] at hj hk
      exact absurd (hj ▸ hk) (hfresh k)
    · subst ek
      simp only [Function.update_self, Option.some.injEq, Function.update_of_ne ej] at hj hk
      exact absurd (hk ▸ hj) (hfresh j)
    · rw [Function.update_of_ne ej] at hj
      rw [Function.update_of_ne ek] at hk
      exact h.inj j k p hj hk
  freed_lt p hp := Nat.lt_succ_of_lt (h.freed_lt p hp)
  nodup := h.nodup
  covered p hp := by
    by_cases e : p = next
    · exact .inr ⟨i, by simp [e]⟩
    · rcases h.covered p (by omega) with hm | ⟨j, hj⟩
      · exact .inl hm
      · refine .inr ⟨j, ?_⟩
        rwa [Function.update_of_ne (fun e => by rw [e, hi] at hj; cases hj)]

theorem Owned.free (h : Owned owner next freed) (hi : owner i = some p) :
    Owned (Function.update owner i none) next (p :: freed) where
  live j q hj := by
    by_cases e : j = i
    · subst e; simp at hj
    · rw [Function.update_of_ne e] at hj
      obtain ⟨hlt, hm⟩ := h.live j q hj
      refine ⟨hlt, fun hq => ?_⟩
      rcases List.mem_cons.mp hq with rfl | hq
      · exact e (h.inj j i q hj hi)
      · exact hm hq
  inj j k q hj hk := by
    by_cases ej : j = i
    · subst ej; simp at hj
    · by_cases ek : k = i
      · subst ek; simp at hk
      · rw [Function.update_of_ne ej] at hj
        rw [Function.update_of_ne ek] at hk
        exact h.inj j k q hj hk
  freed_lt q hq := by
    rcases List.mem_cons.mp hq with rfl | hq
    · exact (h.live i q hi).1
    · exact h.freed_lt q hq
  nodup := List.nodup_cons.mpr ⟨(h.live i p hi).2, h.nodup⟩
  covered q hq := by
    by_cases e : q = p
    · exact .inl (e ▸ List.mem_cons_self)
    · rcases h.covered q hq with hm | ⟨j, hj⟩
      · exact .inl (List.mem_cons_of_mem _ hm)
      · refine .inr ⟨j, ?_⟩
        rwa [Function.update_of_ne (fun ej => e (by rw [ej, hi] at hj; cases hj; rfl))]

omit [DecidableEq ι] in
theorem Owned.all_freed (h : Owned owner next freed) (hnone : ∀ i, owner i = none) :
    ∀ p < next, p ∈ freed := by
  intro p hp
  rcases h.covered p hp with hm | ⟨i, hi⟩
  · exact hm
  · rw [hnone i] at hi; cases hi

section Stocked

variable {n k : ℕ} {cells : ℕ → List ℕ} {kept gone : List ℕ}

/-- What was handed out lies in one of `n` cells or was given back, and that once. -/
structure Stocked (n : ℕ) (cells : ℕ → List ℕ) (next : ℕ) (freed : List ℕ) : Prop where
  once : ∀ p, tally n (fun l => (l.count p : ℤ)) cells + freed.count p = if p < next then 1 else 0
  beyond : ∀ k, n ≤ k → cells k = []

theorem Stocked.nil (n : ℕ) : Stocked n (fun _ => []) 0 [] where
  once p := by simp [tally]
  beyond _ _ := rfl

theorem Stocked.alloc (h : Stocked n cells next freed) (hk : k < n) :
    Stocked n (Function.update cells k (next :: cells k)) (next + 1) freed where
  once p := by
    have := h.once p
    rw [tally_update hk, List.count_cons]
    by_cases e : next = p
    · subst e
      simp only [beq_self_eq_true, if_true, lt_irrefl, if_false, lt_add_one, Nat.cast_add,
        Nat.cast_one] at this ⊢
      omega
    · have hlt : p < next + 1 ↔ p < next := by omega
      simp only [beq_iff_eq, e, if_false, add_zero, hlt]
      omega
  beyond j hj := by
    rw [Function.update_of_ne (by omega)]
    exact h.beyond j hj

theorem Stocked.release (h : Stocked n cells next freed) (hk : k < n)
    (hp : (cells k).Perm (kept ++ gone)) :
    Stocked n (Function.update cells k kept) next (gone ++ freed) where
  once p := by
    have := h.once p
    have hcount := hp.count_eq p
    rw [List.count_append] at hcount
    rw [tally_update hk, List.count_append, hcount]
    push_cast
    omega
  beyond j hj := by
    rw [Function.update_of_ne (by omega)]
    exact h.beyond j hj

theorem Stocked.count_le (h : Stocked n cells next freed) (k p : ℕ) :
    ((cells k).count p : ℤ) + freed.count p ≤ 1 := by
  have honce := h.once p
  have hnonneg : ∀ j < n, (0 : ℤ) ≤ (cells j).count p := fun _ _ => by positivity
  by_cases hk : k < n
  · have hle := le_tally (w := fun l : List ℕ => (l.count p : ℤ)) hnonneg hk
    split at honce <;> omega
  · have hle := tally_nonneg (w := fun l : List ℕ => (l.count p : ℤ)) hnonneg
    rw [h.beyond k (by omega), List.count_nil]
    split at honce <;> omega

theorem Stocked.nodup_cell (h : Stocked n cells next freed) (k : ℕ) : (cells k).Nodup := by
  rw [List.nodup_iff_count_le_one]
  intro p
  have := h.count_le k p
  omega

theorem Stocked.not_freed (h : Stocked n cells next freed) (hp : p ∈ cells k) : p ∉ freed := by
  intro hf
  have := h.count_le k p
  have := List.count_pos_iff.mpr hp
  have := List.count_pos_iff.mpr hf
  omega

theorem Stocked.freed_once (h : Stocked n cells next freed) (hp : p ∈ freed) :
    freed.count p = 1 ∧ ∀ k, p ∉ cells k := by
  have hpos := List.count_pos_iff.mpr hp
  refine ⟨?_, fun k hk => h.not_freed hk hp⟩
  have := h.count_le 0 p
  omega

end Stocked

end Wspack.Lib
