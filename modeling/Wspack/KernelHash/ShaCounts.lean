import Wspack.KernelHash.ShaPool

namespace Wspack.KernelHash.ShaPool

open Function (update update_self)
open Lib

variable {ι : Type} [DecidableEq ι] {i : ι} {p : Nat}

def Pc.building : Pc → Bool
  | .alloc => true
  | .assign _ => true
  | _ => false

def Pc.uses : Pc → Option Nat
  | .oops _ pool => some pool
  | .holds pool => some pool
  | .got _ p => p
  | .hash _ _ pool => some pool
  | .put _ pool _ => some pool
  | _ => none

def Pc.counted (pc : Pc) : Bool := pc.building || pc.uses.isSome

def Pc.Has (p : Nat) (pc : Pc) : Prop := ∀ q, pc.uses = some q → q = p

def Pc.late : Pc → Bool
  | .oops _ _ => true
  | _ => false

section Counts

variable [Fintype ι] {users : UInt64} {pool : Option Nat} {pcs : ι → Pc} {pc : Pc}

/-- `tcp_sha1sig_users` counts the callers; one of them allocates, or all have the pool that is
assigned. -/
structure Counts (users : UInt64) (pool : Option Nat) (pcs : ι → Pc) : Prop where
  counted : users.toNat = parties Pc.counted pcs
  unassigned : pool = none → (∀ i, (pcs i).uses = none) ∧ parties Pc.building pcs ≤ 1
  assigned : ∀ p, pool = some p →
    (∀ i, (pcs i).building = false) ∧ (∀ i, (pcs i).Has p) ∧ 0 < parties Pc.counted pcs
  late : ∀ i, (pcs i).late = false

omit [DecidableEq ι] in
theorem Counts.start : Counts 0 none (fun _ : ι => .idle) where
  counted := by simp [parties, total, Pc.counted, Pc.building, Pc.uses]
  unassigned _ := by simp [parties, total, Pc.building, Pc.uses]
  assigned _ h := by cases h
  late _ := rfl

theorem Counts.move (h : Counts users pool pcs) (hb : pc.building = (pcs i).building)
    (hs : pc.uses = (pcs i).uses) (hl : pc.late = false) : Counts users pool (update pcs i pc) := by
  have hcounted : pc.counted = (pcs i).counted := by rw [Pc.counted, Pc.counted, hb, hs]
  have hmove := parties_update Pc.counted pcs i pc
  have hmove' := parties_update Pc.building pcs i pc
  rw [hcounted] at hmove
  rw [hb] at hmove'
  refine ⟨by rw [h.counted]; omega, fun hp => ?_, fun p hp => ?_, moved_eq Pc.late hl h.late⟩
  · obtain ⟨huses, hle⟩ := h.unassigned hp
    exact ⟨moved_eq Pc.uses (by rw [hs, huses]) huses, by omega⟩
  · obtain ⟨hbuild, huses, hpos⟩ := h.assigned p hp
    exact ⟨moved_eq Pc.building (by rw [hb, hbuild]) hbuild,
      forall_moved (Pc.Has p) (by rw [Pc.Has, hs]; exact huses i) huses, by omega⟩

omit [DecidableEq ι] in
theorem toNat_add_one (hcard : Fintype.card ι < 2 ^ 64) (h : users.toNat + 1 = parties Pc.counted pcs) :
    (users + 1).toNat = parties Pc.counted pcs := by
  have hle := parties_le Pc.counted pcs
  rw [UInt64.toNat_add, UInt64.toNat_one]
  omega

theorem toNat_sub_one (h : 0 < users.toNat) : (users - 1).toNat = users.toNat - 1 := by
  have hlt := users.toNat_lt
  rw [UInt64.toNat_sub, UInt64.toNat_one]
  omega

theorem Counts.enter (h : Counts users pool pcs) (hp : pool = some p) (hcard : Fintype.card ι < 2 ^ 64)
    (hout : (pcs i).counted = false) (hb : pc.building = false) (hs : pc.uses = some p)
    (hl : pc.late = false) : Counts (users + 1) pool (update pcs i pc) := by
  subst hp
  obtain ⟨hbuild, huses, hpos⟩ := h.assigned p rfl
  have hin : pc.counted = true := by simp [Pc.counted, hs]
  have hmove := parties_update Pc.counted pcs i pc
  rw [hout, hin, Bool.toNat_true, Bool.toNat_false] at hmove
  refine ⟨toNat_add_one hcard (by rw [h.counted]; omega), fun hnone => (by cases hnone), fun q hq => ?_,
    moved_eq Pc.late hl h.late⟩
  obtain rfl := Option.some.inj hq
  refine ⟨moved_eq Pc.building hb hbuild, ?_, by omega⟩
  exact forall_moved (Pc.Has p)
    (fun q hq => Option.some.inj (hq.symm.trans hs)) huses

theorem Counts.first (h : Counts users pool pcs) (hcard : Fintype.card ι < 2 ^ 64) (hu : users = 0) :
    Counts (users + 1) pool (update pcs i .alloc) := by
  have hzero : parties Pc.counted pcs = 0 := h.counted.symm.trans (by rw [hu]; rfl)
  have hbuild : ∀ j, (pcs j).building = false := fun j => by
    have hj := parties_eq_zero.mp hzero j
    rw [Pc.counted, Bool.or_eq_false_iff] at hj
    exact hj.1
  have hpool : pool = none := by
    cases hp : pool with
    | none => rfl
    | some p =>
      have hpos := (h.assigned p hp).2.2
      omega
  subst hpool
  have hcounted := parties_update Pc.counted pcs i .alloc
  have hbuilding := parties_update Pc.building pcs i .alloc
  rw [parties_eq_zero.mp hzero i, show Pc.alloc.counted = true from rfl, Bool.toNat_true, Bool.toNat_false] at hcounted
  rw [hbuild i, show Pc.alloc.building = true from rfl, parties_eq_zero.mpr hbuild, Bool.toNat_true,
    Bool.toNat_false] at hbuilding
  refine ⟨toNat_add_one hcard (by rw [h.counted]; omega), fun _ => ⟨?_, by omega⟩, fun p hp => (by cases hp),
    moved_eq Pc.late rfl h.late⟩
  exact moved_eq Pc.uses rfl (h.unassigned rfl).1

omit [DecidableEq ι] in
theorem Counts.pool_of_building (h : Counts users pool pcs) (hpc : (pcs i).building = true) : pool = none := by
  cases hp : pool with
  | none => rfl
  | some p =>
    rw [(h.assigned p hp).1 i] at hpc
    cases hpc

theorem Counts.giveUp (h : Counts users pool pcs) (hpc : (pcs i).building = true) :
    Counts (users - 1) pool (update pcs i .idle) := by
  obtain rfl := h.pool_of_building hpc
  obtain ⟨huses, hle⟩ := h.unassigned rfl
  have hin : (pcs i).counted = true := by simp [Pc.counted, hpc]
  have hcounted := parties_update Pc.counted pcs i .idle
  have hbuilding := parties_update Pc.building pcs i .idle
  rw [hin, show Pc.idle.counted = false from rfl, Bool.toNat_true, Bool.toNat_false, ← h.counted] at hcounted
  rw [hpc, show Pc.idle.building = false from rfl, Bool.toNat_true, Bool.toNat_false] at hbuilding
  refine ⟨by rw [toNat_sub_one (by omega)]; omega, fun _ => ⟨moved_eq Pc.uses rfl huses, by omega⟩,
    fun p hp => (by cases hp), moved_eq Pc.late rfl h.late⟩

theorem Counts.assign (h : Counts users pool pcs) (hpc : (pcs i).building = true) :
    Counts users (some p) (update pcs i (.holds p)) := by
  obtain rfl := h.pool_of_building hpc
  obtain ⟨huses, hle⟩ := h.unassigned rfl
  have hin : (pcs i).counted = true := by simp [Pc.counted, hpc]
  have hcounted := parties_update Pc.counted pcs i (.holds p)
  have hbuilding := parties_update Pc.building pcs i (.holds p)
  rw [hin, show (Pc.holds p).counted = true from rfl] at hcounted
  rw [hpc, show (Pc.holds p).building = false from rfl, Bool.toNat_true, Bool.toNat_false] at hbuilding
  refine ⟨by rw [h.counted]; omega, fun hp => (by cases hp), fun q hq => ?_, moved_eq Pc.late rfl h.late⟩
  obtain rfl := Option.some.inj hq
  refine ⟨parties_eq_zero.mp (by omega), ?_, parties_pos (i := i) (by rw [update_self]; rfl)⟩
  exact forall_moved (Pc.Has p) (fun q hq => (Option.some.inj hq).symm)
    fun j q hj => by rw [huses j] at hj; cases hj

omit [DecidableEq ι] in
theorem Counts.pool_of_uses (h : Counts users pool pcs) (hpc : (pcs i).uses = some p) : pool = some p := by
  cases hp : pool with
  | none =>
    rw [(h.unassigned hp).1 i] at hpc
    cases hpc
  | some q => rw [(h.assigned q hp).2.1 i p hpc]

theorem Counts.leave (h : Counts users pool pcs) (hpc : (pcs i).uses = some p) (hout : pc.counted = false)
    (hl : pc.late = false) : Counts (users - 1) (if users - 1 = 0 then none else pool) (update pcs i pc) := by
  obtain rfl := h.pool_of_uses hpc
  obtain ⟨hbuild, huses, hpos⟩ := h.assigned p rfl
  have hin : (pcs i).counted = true := by simp [Pc.counted, hpc]
  rw [Pc.counted, Bool.or_eq_false_iff, Option.isSome_eq_false_iff, Option.isNone_iff_eq_none] at hout
  have hbuild' := moved_eq (i := i) Pc.building hout.1 hbuild
  have hcounted := parties_update Pc.counted pcs i pc
  rw [hin, Pc.counted, hout.1, hout.2, ← h.counted] at hcounted
  simp only [Option.isSome_none, Bool.or_false, Bool.toNat_true, Bool.toNat_false] at hcounted
  have husers : (users - 1).toNat = parties Pc.counted (update pcs i pc) := by
    rw [toNat_sub_one (by omega)]
    omega
  refine ⟨husers, fun hp => ?_, fun q hq => ?_, moved_eq Pc.late hl h.late⟩
  · have hzero : users - 1 = 0 := by
      by_contra hne
      rw [if_neg hne] at hp
      cases hp
    have hnobody := parties_eq_zero.mp (husers.symm.trans (by rw [hzero]; rfl))
    refine ⟨fun j => ?_, (parties_eq_zero.mpr hbuild').le.trans (Nat.zero_le _)⟩
    have hj := hnobody j
    rw [Pc.counted, Bool.or_eq_false_iff] at hj
    simpa using hj.2
  · split_ifs at hq with hzero
    obtain rfl := Option.some.inj hq
    refine ⟨hbuild', ?_, ?_⟩
    · exact forall_moved (Pc.Has p)
        (fun q hq => by rw [hout.2] at hq; cases hq) huses
    · refine husers ▸ Nat.pos_of_ne_zero fun h0 => hzero ?_
      exact UInt64.toNat_inj.mp h0

end Counts

end Wspack.KernelHash.ShaPool
