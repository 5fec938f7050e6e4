import Wspack.Lib.Cells

universe u

namespace Wspack.Lib

variable {ι : Type u} [DecidableEq ι] {ext : ι → Option (ℕ × ℕ)} {map map' : ℕ → Bool} {top : ℕ}
  {x : ι} {e : ℕ × ℕ} {n : ℕ}

/-- Extent `e` is `e.2` slots from `e.1` on. -/
def Covers (e : ℕ × ℕ) (i : ℕ) : Prop := e.1 ≤ i ∧ i < e.1 + e.2

structure Mapped (ext : ι → Option (ℕ × ℕ)) (map : ℕ → Bool) (top : ℕ) : Prop where
  bits : ∀ i, map i = true ↔ ∃ x e, ext x = some e ∧ Covers e i
  disjoint : ∀ x y e e', ext x = some e → ext y = some e' → x ≠ y → ∀ i, Covers e i → ¬Covers e' i
  below : ∀ x e, ext x = some e → e.1 + e.2 ≤ top

omit [DecidableEq ι] in
theorem Mapped.clear_above (h : Mapped ext map top) : ∀ i, top ≤ i → map i = false := by
  intro i hi
  by_contra hm
  obtain ⟨x, e, he, _, hlt⟩ := (h.bits i).mp (by simpa using hm)
  have := h.below x e he
  omega

theorem Mapped.place (h : Mapped ext map top) (hx : ext x = none)
    (hm : ∀ i, map' i = true ↔ Covers (top, n) i ∨ map i = true) :
    Mapped (Function.update ext x (some (top, n))) map' (top + n) where
  bits i := by
    rw [hm, h.bits]
    constructor
    · rintro (hi | ⟨y, e, hy, hi⟩)
      · exact ⟨x, (top, n), by simp, hi⟩
      · exact ⟨y, e, by rwa [Function.update_of_ne (fun e => by simp [e, hx] at hy)], hi⟩
    · rintro ⟨y, e, hy, hi⟩
      rcases update_eq_some hy with ⟨rfl, he⟩ | ⟨_, hy⟩
      · cases he; exact .inl hi
      · exact .inr ⟨y, e, hy, hi⟩
  disjoint y z e e' hy hz hne i hi hi' := by
    rcases update_eq_some hy with ⟨ey, he⟩ | ⟨_, hy⟩
    · rcases update_eq_some hz with ⟨ez, _⟩ | ⟨_, hz⟩
      · exact hne (ey.trans ez.symm)
      · cases he
        have hle := h.below z e' hz
        exact absurd (lt_of_lt_of_le hi'.2 hle) (not_lt.mpr hi.1)
    · rcases update_eq_some hz with ⟨_, he⟩ | ⟨_, hz⟩
      · cases he
        have hle := h.below y e hy
        exact absurd (lt_of_lt_of_le hi.2 hle) (not_lt.mpr hi'.1)
      · exact h.disjoint y z e e' hy hz hne i hi hi'
  below y e hy := by
    rcases update_eq_some hy with ⟨rfl, he⟩ | ⟨_, hy⟩
    · cases he; exact le_rfl
    · exact (h.below y e hy).trans (Nat.le_add_right _ _)

theorem Mapped.drop (h : Mapped ext map top) (hx : ext x = some e)
    (hm : ∀ i, map' i = true ↔ ¬Covers e i ∧ map i = true) :
    Mapped (Function.update ext x none) map' top where
  bits i := by
    rw [hm, h.bits]
    constructor
    · rintro ⟨hi, y, e', hy, hi'⟩
      refine ⟨y, e', ?_, hi'⟩
      rwa [Function.update_of_ne]
      rintro rfl
      rw [hx] at hy
      cases hy
      exact hi hi'
    · rintro ⟨y, e', hy, hi'⟩
      rcases update_eq_some hy with ⟨_, he⟩ | ⟨hne, hy⟩
      · cases he
      · exact ⟨h.disjoint y x e' e hy hx hne i hi', y, e', hy, hi'⟩
  disjoint y z e e' hy hz := by
    rcases update_eq_some hy with ⟨_, he⟩ | ⟨_, hy⟩
    · cases he
    · rcases update_eq_some hz with ⟨_, he⟩ | ⟨_, hz⟩
      · cases he
      · exact h.disjoint y z e e' hy hz
  below y e hy := by
    rcases update_eq_some hy with ⟨_, he⟩ | ⟨_, hy⟩
    · cases he
    · exact h.below y e hy

end Wspack.Lib
