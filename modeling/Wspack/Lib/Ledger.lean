import Mathlib.Data.List.Count
import Mathlib.Data.List.Nodup

universe u v w

namespace Wspack.Lib

section Ledger

variable {α : Type u} [DecidableEq α] {xs ys : List α}

inductive Event (α : Type u)
  | acquire (a : α)
  | release (a : α)
  deriving DecidableEq

/-- What was acquired has been released exactly once, and nothing else has been released. -/
def Settled (log : List (Event α)) : Prop :=
  ∀ a, (.acquire a ∈ log → log.count (.release a) = 1) ∧ (.acquire a ∉ log → .release a ∉ log)

theorem settled_nil : Settled ([] : List (Event α)) := by
  simp [Settled]

theorem settled_append_iff (hys : ys.Nodup) :
    Settled (xs.map Event.acquire ++ ys.map Event.release) ↔ ∀ a, a ∈ ys ↔ a ∈ xs := by
  have hcount : ∀ a, (xs.map Event.acquire ++ ys.map Event.release).count (.release a) = ys.count a := by
    intro a
    have hinj : Function.Injective (Event.release : α → Event α) := fun _ _ h => Event.release.inj h
    rw [List.count_append, List.count_map_of_injective _ _ hinj, List.count_eq_zero_of_not_mem (by simp),
      Nat.zero_add]
  apply forall_congr'
  intro a
  rw [hcount, hys.count]
  by_cases ha : a ∈ xs
  · simp [ha]
  · simp [ha]

theorem settled_unwind_iff (h : (xs ++ ys).Nodup) :
    Settled (xs.map Event.acquire ++ (xs ++ ys).map Event.release) ↔ ys = [] := by
  rw [settled_append_iff h]
  constructor
  · intro hmem
    apply List.eq_nil_iff_forall_not_mem.mpr
    intro a ha
    have hxs := (hmem a).mp (List.mem_append_right _ ha)
    exact List.disjoint_of_nodup_append h hxs ha
  · rintro rfl
    simp

end Ledger

section Stable

variable {σ : Type u} {ε : Type v} {α β : Type u} {P : σ → Prop}

def Stable (P : σ → Prop) (x : StateT σ (Except ε) α) : Prop :=
  ∀ s a t, x s = .ok (a, t) → P s → P t

theorem Stable.pure (a : α) : Stable P (Pure.pure a : StateT σ (Except ε) α) := by
  intro s b t h hs
  cases h
  exact hs

theorem Stable.throw (e : ε) : Stable P (MonadExcept.throw e : StateT σ (Except ε) α) := by
  intro s b t h
  cases h

theorem bind_of_ok {x : StateT σ (Except ε) α} {f : α → StateT σ (Except ε) β} {s t : σ} {a : α}
    (hx : x s = .ok (a, t)) : (x >>= f) s = f a t := by
  change (x s >>= fun p => f p.1 p.2) = _
  rw [hx]
  rfl

theorem Stable.bind {x : StateT σ (Except ε) α} {f : α → StateT σ (Except ε) β} (hx : Stable P x)
    (hf : ∀ a, Stable P (f a)) : Stable P (x >>= f) := by
  intro s b u h hs
  cases hxs : x s with
  | error e =>
    change (x s >>= fun p => f p.1 p.2) = _ at h
    rw [hxs] at h
    cases h
  | ok p =>
    rw [bind_of_ok hxs] at h
    exact hf p.1 p.2 b u h (hx s p.1 p.2 hxs hs)

theorem Stable.ite {c : Prop} [Decidable c] {x y : StateT σ (Except ε) α} (hx : Stable P x)
    (hy : Stable P y) : Stable P (if c then x else y) := by
  split
  · exact hx
  · exact hy

theorem Stable.get {f : σ → StateT σ (Except ε) α} (hf : ∀ s, P s → Stable P (f s)) :
    Stable P (MonadState.get >>= f) := by
  intro s a t h hs
  exact hf s hs s a t h hs

theorem Stable.set {s' : σ} (h' : P s') : Stable P (MonadStateOf.set s' : StateT σ (Except ε) PUnit) := by
  intro s a t h _
  cases h
  exact h'

theorem Stable.update {f : σ → σ} (hf : ∀ s, P s → P (f s)) :
    Stable P (modify f : StateT σ (Except ε) PUnit) := by
  intro s a t h hs
  cases h
  exact hf s hs

theorem Stable.forM {ι : Type w} {f : ι → StateT σ (Except ε) PUnit} {xs : List ι}
    (h : ∀ x ∈ xs, Stable P (f x)) : Stable P (xs.forM f) := by
  induction xs with
  | nil => exact .pure _
  | cons x xs ih =>
    obtain ⟨hx, hxs⟩ := List.forall_mem_cons.mp h
    exact hx.bind fun _ => ih hxs

end Stable

end Wspack.Lib
