import Mathlib.Data.List.Pairwise
import Mathlib.Algebra.Order.Ring.Nat
import Mathlib.Order.Interval.Finset.Nat

namespace Wspack.Lib

variable {p : ℕ → Bool} {gap delay i n k x : ℕ}

/-- The selection among the `n` positions from `i` on, the first `delay` of which are
passed over. -/
def scan (p : ℕ → Bool) (gap : ℕ) : (delay i n : ℕ) → List ℕ
  | _, _, 0 => []
  | 0, i, n + 1 => if p i then i :: scan p gap gap (i + 1) n else scan p gap 0 (i + 1) n
  | delay + 1, i, n + 1 => scan p gap delay (i + 1) n

theorem scan_delay : scan p gap delay i n = scan p gap 0 (i + delay) (n - delay) := by
  induction delay generalizing i n with
  | zero => rfl
  | succ delay ih =>
    cases n with
    | zero => simp [scan]
    | succ n =>
      rw [scan, ih, Nat.add_sub_add_right, add_assoc, add_comm 1]

theorem scan_congr {q : ℕ → Bool} (h : ∀ j, i ≤ j → j < i + n → p j = q j) :
    scan p gap delay i n = scan q gap delay i n := by
  induction n generalizing delay i with
  | zero => simp [scan]
  | succ n ih =>
    have hrest : ∀ delay, scan p gap delay (i + 1) n = scan q gap delay (i + 1) n :=
      fun delay => ih (fun j hj hlt => h j (by omega) (by omega))
    cases delay with
    | zero => rw [scan, scan, h i le_rfl (by omega), hrest, hrest]
    | succ delay => rw [scan, scan, hrest]

theorem exists_scan_succ (b : Bool) : ∃ q : ℕ → Bool, scan q gap 0 i (n + 1) =
    if b then i :: scan p gap gap (i + 1) n else scan p gap 0 (i + 1) n := by
  refine ⟨fun j => if j = i then b else p j, ?_⟩
  have hrest (delay : ℕ) : scan (fun j => if j = i then b else p j) gap delay (i + 1) n =
      scan p gap delay (i + 1) n := scan_congr (fun j hj _ => if_neg (by omega))
  rw [scan, if_pos rfl, hrest, hrest]

theorem scan_false : scan (fun _ => false) gap delay i n = [] := by
  induction n generalizing delay i with
  | zero => simp [scan]
  | succ n ih => cases delay <;> simp [scan, ih]

theorem scan_shift : scan p gap delay (k + i) n =
    (scan (fun j => p (k + j)) gap delay i n).map (k + ·) := by
  induction n generalizing delay i with
  | zero => simp [scan]
  | succ n ih =>
    cases delay with
    | zero =>
      rw [scan, scan, add_assoc, ih, ih]
      split <;> simp
    | succ delay => rw [scan, scan, add_assoc, ih]

theorem mem_scan (h : x ∈ scan p gap delay i n) : i + delay ≤ x ∧ x < i + n ∧ p x = true := by
  induction n generalizing delay i with
  | zero => simp [scan] at h
  | succ n ih =>
    cases delay with
    | zero =>
      rw [scan] at h
      split at h
      · rcases List.mem_cons.mp h with rfl | h
        · exact ⟨le_rfl, by omega, ‹_›⟩
        · have := ih h
          exact ⟨by omega, by omega, this.2.2⟩
      · have := ih h
        exact ⟨by omega, by omega, this.2.2⟩
    | succ delay =>
      rw [scan] at h
      have := ih h
      exact ⟨by omega, by omega, this.2.2⟩

theorem scan_pairwise : (scan p gap delay i n).Pairwise (fun x y => x + gap < y) := by
  induction n generalizing delay i with
  | zero => simp [scan]
  | succ n ih =>
    cases delay with
    | zero =>
      rw [scan]
      split
      · refine List.pairwise_cons.mpr ⟨fun y hy => ?_, ih⟩
        have := mem_scan hy
        omega
      · exact ih
    | succ delay => rw [scan]; exact ih

/-- What is selected after `x` is what a scan that starts right after `x`, with the gap
still ahead of it, selects. -/
theorem scan_after (h : x ∈ scan p gap delay i n) :
    (scan p gap delay i n).filter (x < ·) = scan p gap gap (x + 1) (i + n - (x + 1)) := by
  induction n generalizing delay i with
  | zero => simp [scan] at h
  | succ n ih =>
    have hend : i + (n + 1) = i + 1 + n := by omega
    cases delay with
    | zero =>
      rw [scan] at h ⊢
      split at h
      · rw [if_pos ‹_›]
        rcases List.mem_cons.mp h with rfl | h
        · have hall : ∀ y ∈ scan p gap gap (x + 1) n, decide (x < y) = true := fun y hy => by
            have := mem_scan hy
            simp only [decide_eq_true_eq]
            omega
          rw [List.filter_cons_of_neg (by simp), List.filter_eq_self.mpr hall, hend,
            Nat.add_sub_cancel_left]
        · have hlt := mem_scan h
          rw [List.filter_cons_of_neg (by simp; omega), ih h, hend]
      · rw [if_neg ‹_›, ih h, hend]
    | succ delay =>
      rw [scan] at h ⊢
      rw [ih h, hend]

theorem length_scan_add_le (hd : delay ≤ gap) :
    (scan p gap delay i n).length * (gap + 1) + delay ≤ n + gap := by
  induction n generalizing delay i with
  | zero => simpa [scan] using hd
  | succ n ih =>
    cases delay with
    | zero =>
      rw [scan]
      split
      · have := @ih gap (i + 1) le_rfl
        rw [List.length_cons, Nat.succ_mul]
        omega
      · have := @ih 0 (i + 1) hd
        omega
    | succ delay =>
      have := @ih delay (i + 1) (by omega)
      rw [scan]
      omega

theorem length_scan_le : (scan p gap delay i n).length * (gap + 1) ≤ n + gap := by
  rw [scan_delay]
  have := @length_scan_add_le p gap 0 (i + delay) (n - delay) (Nat.zero_le _)
  omega

theorem length_le_length_scan {l : List ℕ} (hgap : l.Pairwise (fun x y => x + gap < y))
    (hp : ∀ x ∈ l, i + delay ≤ x ∧ x < i + n ∧ p x = true) :
    l.length ≤ (scan p gap delay i n).length := by
  induction n generalizing delay i l with
  | zero =>
    cases l with
    | nil => exact Nat.zero_le _
    | cons x l =>
      have := hp x List.mem_cons_self
      omega
  | succ n ih =>
    cases delay with
    | succ delay =>
      rw [scan]
      apply ih hgap
      intro x hx
      have := hp x hx
      exact ⟨by omega, by omega, this.2.2⟩
    | zero =>
      rw [scan]
      split
      · cases l with
        | nil => exact Nat.zero_le _
        | cons x l =>
          obtain ⟨hx, hl⟩ := List.pairwise_cons.mp hgap
          have hle := hp x List.mem_cons_self
          apply Nat.succ_le_succ
          apply ih hl
          intro y hy
          have := hx y hy
          have := hp y (List.mem_cons_of_mem x hy)
          exact ⟨by omega, by omega, this.2.2⟩
      · apply ih hgap
        intro x hx
        have := hp x hx
        have hne : x ≠ i := fun h => ‹¬p i = true› (h ▸ this.2.2)
        exact ⟨by omega, by omega, this.2.2⟩

theorem exists_mem_scan_le (hx : p x = true) (hi : i ≤ x) (hn : x < i + n) :
    ∃ y ∈ scan p gap 0 i n, y ≤ x := by
  induction n generalizing i with
  | zero => exact absurd hn (Nat.not_lt.mpr hi)
  | succ n ih =>
    rw [scan]
    split
    · exact ⟨i, List.mem_cons_self, hi⟩
    · have hne : i ≠ x := fun h => ‹¬p i = true› (h ▸ hx)
      exact ih (by omega) (by omega)

theorem head?_scan : (scan p gap delay i n).head? = (List.range' (i + delay) (n - delay)).find? p := by
  rw [scan_delay]
  generalize i + delay = i
  generalize n - delay = n
  induction n generalizing i with
  | zero => rfl
  | succ n ih =>
    rw [scan, List.range'_succ, List.find?_cons]
    split <;> simp_all

section Window

variable {w : ℕ} {l : List ℕ}

def windowOf (w i : ℕ) : Finset ℕ := Finset.Icc (i + 1 - w) i

theorem disjoint_windowOf (h : x + w ≤ i) : Disjoint (windowOf w x) (windowOf w i) := by
  refine Finset.disjoint_left.mpr (fun j hx hi => ?_)
  rw [windowOf, Finset.mem_Icc] at hx hi
  omega

theorem not_disjoint_windowOf (hw : 0 < w) (hxi : x ≤ i) (h : i < x + w) :
    ¬Disjoint (windowOf w x) (windowOf w i) := by
  intro hdisjoint
  have hx : x ∈ windowOf w x := Finset.mem_Icc.mpr ⟨by omega, le_rfl⟩
  have hi : x ∈ windowOf w i := Finset.mem_Icc.mpr ⟨by omega, hxi⟩
  exact Finset.disjoint_left.mp hdisjoint hx hi

theorem card_windows (hl : l.Pairwise (fun x y => Disjoint (windowOf w x) (windowOf w y)))
    (h : ∀ x ∈ l, w ≤ x + 1) : (l.toFinset.biUnion (windowOf w)).card = w * l.length := by
  induction l with
  | nil => rfl
  | cons x l ih =>
    obtain ⟨hx, hl⟩ := List.pairwise_cons.mp hl
    obtain ⟨hwx, h⟩ := List.forall_mem_cons.mp h
    have hdisjoint : Disjoint (windowOf w x) (l.toFinset.biUnion (windowOf w)) := by
      rw [Finset.disjoint_biUnion_right]
      exact fun y hy => hx y (List.mem_toFinset.mp hy)
    have hcard : (windowOf w x).card = w := by
      rw [windowOf, Nat.card_Icc]
      omega
    rw [List.toFinset_cons, Finset.biUnion_insert, Finset.card_union_of_disjoint hdisjoint, hcard,
      ih hl h, List.length_cons, Nat.mul_succ, Nat.add_comm]

theorem mul_length_le (hl : l.Pairwise (fun x y => Disjoint (windowOf w x) (windowOf w y)))
    (h : ∀ x ∈ l, w ≤ x + 1 ∧ x < n) : w * l.length ≤ n := by
  rw [← card_windows hl (fun x hx => (h x hx).1), ← Finset.card_range n]
  refine Finset.card_le_card (Finset.biUnion_subset.mpr (fun x hx => ?_))
  intro j hj
  have hx := (h x (List.mem_toFinset.mp hx)).2
  rw [windowOf, Finset.mem_Icc] at hj
  exact Finset.mem_range.mpr (by omega)

end Window

end Wspack.Lib
