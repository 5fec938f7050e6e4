import Wspack.Pack.Part

namespace Wspack.Chunk

open Lib

def examined (playload : List UInt8) : List (Nat × UInt64) :=
  let txthash := packHash playload chunkNum
  (chunkNum - 1, txthash) ::
    rolled (roll playload) (playload.length - chunkNum) chunkNum txthash

def cutPoint (put : List Nat → Nat → List Nat) (s : Nat × List Nat) (x : Nat × UInt64) :
    Nat × List Nat :=
  if s.1 = 0 then
    if x.2 &&& zeroValue = 0 then (step, put s.2 x.1) else s
  else (s.1 - 1, s.2)

def windows (playload : List UInt8) : List (Nat × UInt64) :=
  (List.range' (chunkNum - 1) (playload.length - (chunkNum - 1))).map
    (fun i => (i, packHash (playload.drop (i + 1 - chunkNum)) chunkNum))

variable {put : List Nat → Nat → List Nat} {playload : List UInt8}

theorem partitionLoop_eq_foldl (n i : Nat) (txthash : UInt64) (delayTime : Nat) (fifo : List Nat) :
    partitionLoop put playload n i txthash delayTime fifo =
      ((rolled (roll playload) n i txthash).foldl (cutPoint put) (delayTime, fifo)).2 := by
  induction n generalizing i txthash delayTime fifo with
  | zero => rfl
  | succ n ih =>
    rw [partitionLoop, rolled, List.foldl_cons, cutPoint]
    split
    · split
      · exact ih ..
      · next hd _ => rw [ih, hd]
    · exact ih ..

theorem calculatePartition_eq_foldl :
    calculatePartition put playload = ((examined playload).foldl (cutPoint put) (0, [])).2 := by
  rw [calculatePartition, examined, List.foldl_cons, cutPoint, if_pos rfl]
  split <;> exact partitionLoop_eq_foldl ..

theorem examined_eq_windows (h : chunkNum ≤ playload.length) :
    examined playload = windows playload := by
  have hlen : playload.length - (chunkNum - 1) = playload.length - chunkNum + 1 := by
    simp only [chunkNum] at h ⊢
    omega
  have hroll := @rolled_eq_map _ (roll playload)
    (fun i => packHash (playload.drop (i - chunkNum)) chunkNum) (playload.length - chunkNum) chunkNum
    (fun j hj hn => roll_window hj (by omega))
  rw [Nat.sub_self, List.drop_zero] at hroll
  rw [examined, windows, hlen, List.range'_succ, List.map_cons, hroll]
  rfl

end Wspack.Chunk

namespace Wspack.Pack

open Lib
open Wspack.Chunk (char residue)

def examined (playload : List UInt8) : List (Nat × UInt64) :=
  let txthash := packHash playload chunkNum
  (chunkNum - 1, txthash) ::
    rolled (roll playload) (playload.length - chunkNum) chunkNum txthash

variable {playload : List UInt8}

theorem calculateLoop_eq_foldlM (n i : Nat) (txthash : UInt64) (s : Parting) :
    calculateLoop playload n i txthash s = (rolled (roll playload) n i txthash).foldlM
      (fun s x => partPoint playload x.2 x.1 s) s := by
  induction n generalizing i txthash s with
  | zero => rfl
  | succ n ih =>
    rw [calculateLoop, rolled, List.foldlM_cons]
    apply congrArg
    funext t
    exact ih ..

theorem packCalculatePart_eq_foldlM (s : Parting) :
    packCalculatePart playload s = (do
      let part ← partSet s.part countPacket
      let part ← partSet part playload.length
      (examined playload).foldlM (fun s x => partPoint playload x.2 x.1 s) { s with part }) := by
  simp only [packCalculatePart, examined, List.foldlM_cons, calculateLoop_eq_foldlM]

theorem residue_toUInt64 (x : Int64) : residue x.toUInt64 = (x.toInt : ZMod (2 ^ 60)) := by
  have hword : ((2 ^ 64 : Int) : ZMod (2 ^ 60)) = 0 := by
    rw [show (2 ^ 64 : Int) = ((2 ^ 60 * 2 ^ 4 : Nat) : Int) by norm_num, Int.cast_natCast,
      Nat.cast_mul, ZMod.natCast_self, zero_mul]
  rw [← Int64.toInt_toBitVec, BitVec.toInt_eq_toNat_cond]
  split
  · rw [Int.cast_natCast]
    rfl
  · rw [Int.cast_sub, Nat.cast_pow, Nat.cast_ofNat, hword, sub_zero, Int.cast_natCast]
    rfl

theorem residue_signed_mod (x : Int64) : residue (x % Q).toUInt64 = residue x.toUInt64 := by
  have hQ : (Q.toInt : ZMod (2 ^ 60)) = 0 := by
    rw [show Q.toInt = ((2 ^ 60 : Nat) : Int) by decide +kernel, Int.cast_natCast, ZMod.natCast_self]
  rw [residue_toUInt64, residue_toUInt64, Int64.toInt_mod, Int.tmod_def, Int.cast_sub, Int.cast_mul,
    hQ, zero_mul, sub_zero]

theorem residue_signed_pow (n : Nat) :
    residue ((List.range n).foldl (fun rm _ => R.toInt64 * rm % Q) 1).toUInt64 =
      residue Chunk.R ^ n := by
  induction n with
  | zero =>
    have hone : (Int64.toUInt64 1).toNat = 1 := by decide
    simp [residue, hone]
  | succ n ih =>
    rw [List.range_succ, List.foldl_append, List.foldl_cons, List.foldl_nil, residue_signed_mod,
      Int64.toUInt64_mul, Chunk.residue_mul, ih]
    exact (pow_succ' (residue Chunk.R) n).symm

theorem residue_signed_RM : residue RM.toUInt64 = residue Chunk.RM :=
  (residue_signed_pow (chunkNum - 1)).trans Chunk.residue_RM.symm

theorem Q_toUInt64 : Q.toUInt64 = Chunk.Q := by decide +kernel

theorem R_toUInt64 : R.toInt64.toUInt64 = Chunk.R := by decide

theorem packHash_eq : packHash = Chunk.packHash := by
  funext key M
  rw [packHash, Q_toUInt64, R_toUInt64, Chunk.packHash]

theorem signed_out {rm : Int64} {rm' : UInt64} (hrm : residue rm.toUInt64 = residue rm')
    (txthash : UInt64) (x : Int64) :
    (txthash + Chunk.Q - (rm * x % Q).toUInt64) % Chunk.Q =
      (txthash + Chunk.Q - rm' * x.toUInt64 % Chunk.Q) % Chunk.Q := by
  apply Chunk.mod_Q_inj
  rw [Chunk.residue_sub, Chunk.residue_sub, residue_signed_mod, Int64.toUInt64_mul,
    Chunk.residue_mod, Chunk.residue_mul, Chunk.residue_mul, hrm]

theorem roll_eq : roll playload = Chunk.roll playload := by
  funext txthash i
  simp only [roll, Q_toUInt64, R_toUInt64, signed_out residue_signed_RM]
  rfl

theorem examined_eq : examined playload = Chunk.examined playload := by
  rw [examined, packHash_eq, roll_eq]
  rfl

/-- Each loop is a walk over the positions it examines, and at each of them both hold the hash of
the window that ends there. -/
theorem txthash_eq_window (playload : List UInt8) (h : chunkNum ≤ playload.length) :
    (∀ put, Chunk.calculatePartition put playload =
      ((Chunk.examined playload).foldl (Chunk.cutPoint put) (0, [])).2) ∧
    (∀ s, packCalculatePart playload s = (do
      let part ← partSet s.part countPacket
      let part ← partSet part playload.length
      (examined playload).foldlM (fun s x => partPoint playload x.2 x.1 s) { s with part })) ∧
    Chunk.examined playload = Chunk.windows playload ∧
    examined playload = Chunk.windows playload ∧ packHash = Chunk.packHash :=
  ⟨fun _ => Chunk.calculatePartition_eq_foldl, packCalculatePart_eq_foldlM,
    Chunk.examined_eq_windows h, examined_eq.trans (Chunk.examined_eq_windows h), packHash_eq⟩

theorem txthash_eq_window_negative :
    (examined ((List.range 40).map (fun i => UInt8.ofNat (7 * i)))).length = 9 ∧
      examined ((List.range 40).map (fun i => UInt8.ofNat (7 * i))) =
        Chunk.windows ((List.range 40).map (fun i => UInt8.ofNat (7 * i))) :=
  ⟨by decide, (txthash_eq_window _ (by decide)).2.2.2.1⟩

end Wspack.Pack
