import Wspack.KernelHash.Lifecycle

namespace Wspack.KernelHash

open Function (update)
open Lib

def flushItem (b : Nat) (s : State) (id : Nat) : Except Halt State :=
  match s.items id with
  | none => .error (.fault .useAfterFree)
  | some cp => match freeBuffer s.heap cp with
    | .error f => .error (.fault f)
    | .ok (heap, _) => .ok { s with
        items := update s.items id none
        hashTab := update s.hashTab b ((s.hashTab b).erase id)
        hashCount := s.hashCount - 1
        heap := heap
        stats := { s.stats with mmf := if cp.holdsBuffer then s.stats.mmf + cp.len else s.stats.mmf } }

def flushLoop (b : Nat) : List Nat → State → Except Halt State
  | [], s => .ok s
  | id :: ids, s => match flushItem b s id with
    | .error e => .error e
    | .ok t => flushLoop b ids t

def flushBucket (s : State) (b : Nat) : Except Halt State := flushLoop b (s.hashTab b) s

def flushBuckets : List Nat → State → Except Halt State
  | [], s => .ok s
  | b :: bs, s => match flushBucket s b with
    | .error e => .error e
    | .ok t => flushBuckets bs t

def hashFlush (s : State) : Except Halt State := flushBuckets (List.range hashTabSize.toNat) s

/-- The steps of the module: those of the cache, and a flush of one bucket. -/
inductive ModuleAct
  | live (a : Act)
  | flush (b : Nat)

def moduleStep (cfg : Config) (s : State) : ModuleAct → Except Halt State
  | .live a => step cfg s a
  | .flush b => if writeLockFree cfg s b then flushBucket s b else .error .blocked

variable {cfg : Config} {s t : State} {b c id : Nat} {cp : HashinfoItem}

theorem flushItem_ok (h : flushItem b s id = .ok t) :
    ∃ cp heap cp' stats, s.items id = some cp ∧ freeBuffer s.heap cp = .ok (heap, cp') ∧
      t = { s with
        items := update s.items id none
        hashTab := update s.hashTab b ((s.hashTab b).erase id)
        hashCount := s.hashCount - 1
        heap := heap
        stats := stats } := by
  unfold flushItem at h
  cases hi : s.items id with
  | none => simp [hi] at h
  | some cp =>
    cases hf : freeBuffer s.heap cp with
    | error f => simp [hi, hf] at h
    | ok p =>
      simp only [hi, hf, Except.ok.injEq] at h
      exact ⟨cp, p.1, p.2, _, rfl, hf, h.symm⟩

theorem Sound.flushItem (h : Sound cfg s) (hl : writeLockFree cfg s b = true)
    (hb : id ∈ s.hashTab b) (hst : flushItem b s id = .ok t) : Sound cfg t := by
  obtain ⟨cp, heap, cp', stats, hi, hf, rfl⟩ := flushItem_ok hst
  exact ⟨⟨h.table.indexed.delete hb, h.table.walks.delete hl⟩, RefsOk.delete h.refs, LifeOk.delete h.life,
    h.pending.congr (fun _ _ => of_update_none) (fun _ => rfl), h.buffers.delete hi (h.item hi) hf⟩

theorem flushItem_frame (h : flushItem b s id = .ok t) :
    t.wr = s.wr ∧ t.hashTab = update s.hashTab b ((s.hashTab b).erase id) := by
  obtain ⟨_, _, _, _, _, _, rfl⟩ := flushItem_ok h
  exact ⟨rfl, rfl⟩

theorem flushLoop_invariant {P : State → Prop}
    (hP : ∀ s t id, P s → id ∈ s.hashTab b → flushItem b s id = .ok t → P t) {ids : List Nat}
    (hnd : ids.Nodup) (hsub : ∀ id ∈ ids, id ∈ s.hashTab b) (h : flushLoop b ids s = .ok t)
    (hs : P s) : P t := by
  induction ids generalizing s with
  | nil => cases h; exact hs
  | cons id ids ih =>
    obtain ⟨hid, hnd⟩ := List.nodup_cons.mp hnd
    cases hc : flushItem b s id with
    | error e => simp [flushLoop, hc] at h
    | ok u =>
      simp only [flushLoop, hc] at h
      refine ih hnd (fun j hj => ?_) h (hP s u id hs (hsub id List.mem_cons_self) hc)
      rw [(flushItem_frame hc).2, Function.update_self]
      have hne : j ≠ id := fun e => hid (e ▸ hj)
      exact (List.mem_erase_of_ne hne).mpr (hsub j (List.mem_cons_of_mem _ hj))

theorem flushLoop_hashTab {ids : List Nat} (h : flushLoop b ids s = .ok t) :
    t.hashTab = update s.hashTab b ((s.hashTab b).diff ids) := by
  induction ids generalizing s with
  | nil => cases h; simp
  | cons id ids ih =>
    cases hc : flushItem b s id with
    | error e => simp [flushLoop, hc] at h
    | ok u =>
      simp only [flushLoop, hc] at h
      rw [ih h, (flushItem_frame hc).2]
      simp

theorem flushBucket_hashTab (h : flushBucket s b = .ok t) : t.hashTab = update s.hashTab b [] := by
  have hd : (s.hashTab b).diff (s.hashTab b) = [] := by
    refine List.eq_nil_iff_forall_not_mem.mpr (fun x hx => ?_)
    have hpos := List.count_pos_iff.mpr hx
    rw [List.count_diff, Nat.sub_self] at hpos
    omega
  rw [flushLoop_hashTab h, hd]

end Wspack.KernelHash
