import Wspack.Lib.Text
import Wspack.Pack.Hashmap
import Wspack.Pack.Rolling

namespace Wspack.Tcpre

open Lib
open Wspack.Chunk (char residue)
open Wspack.Pack (Hashmap)

def chunkNum : Nat := 64
def size : Nat := 30000
def bucketsLen : Nat := 997
def num : Nat := 30000
def keynum : Nat := bucketsLen * num
def remedy : Nat := 12
def zeroNum : Nat := 2
def R : Int32 := 1048583

def Q : Int64 := (List.range 60).foldl (fun q _ => 2 * q) 1
def RM : Int64 := (List.range (chunkNum - 1)).foldl (fun rm _ => R.toInt64 * rm % Q) 1
def zeroValue : UInt64 := (List.range zeroNum).foldl (fun z _ => 2 * z) 1 - 1

def hash (key : List UInt8) (M : Nat) : UInt64 :=
  (key.take M).foldl (fun h b => (R.toInt64.toUInt64 * h + char b) % Q.toUInt64) 0

def bytesAt (mem : Nat → UInt8) (off n : Nat) : List UInt8 := (List.range' off n).map mem

def roll (playload : Nat → UInt8) (txthash : UInt64) (i : Nat) : UInt64 :=
  let out := RM * (playload (i - chunkNum)).toInt8.toInt64 % Q
  let txthash := (txthash + Q.toUInt64 - out.toUInt64) % Q.toUInt64
  (txthash * R.toInt64.toUInt64 + char (playload i)) % Q.toUInt64

def modeHash (data : UInt64) : UInt32 := (data % UInt64.ofNat bucketsLen).toUInt32

/-- The difference, returned as an `int`. -/
def modeCompare (a b : UInt64) : Int := (a - b).toUInt32.toInt32.toInt

structure Entry where
  key : UInt64
  data : List UInt8
  deriving DecidableEq

/-- The globals.  `entries` are the cells and rows in use; the map holds the number of the row for
the pointer to it.  `count` is what has been written to `fp`. -/
structure State where
  map : Hashmap UInt64 Nat
  entries : List Entry
  recount : Nat
  hashmapnum : Nat
  sumbytes : Nat
  count : List (List UInt8)

namespace State

def reindex (s : State) : Nat := s.entries.length

def row (s : State) (data : Nat) : List UInt8 := ((s.entries[data]?).map (·.data)).getD []

def store (s : State) (txthash : UInt64) (data : List UInt8) : State :=
  { s with
    map := s.map.set txthash s.reindex
    entries := s.entries ++ [⟨txthash, data⟩]
    hashmapnum := s.hashmapnum + 1 }

def repeated (s : State) (temp : List UInt8) : State :=
  { s with recount := s.recount + 1, count := s.count ++ [temp.takeWhile (· ≠ 0)] }

end State

def start : State where
  map := Hashmap.create bucketsLen modeCompare modeHash
  entries := []
  recount := 0
  hashmapnum := 0
  sumbytes := 0
  count := []

structure Payload where
  bytes : Nat → UInt8
  len : Nat

/-- A row as the copy from `off` on leaves it.  The copy may go on behind the payload. -/
def keydata (p : Payload) (off : Nat) : List UInt8 :=
  let n := if p.len < chunkNum * 3 then p.len else chunkNum * 3
  bytesAt p.bytes off n ++ List.replicate (chunkNum * 3 + 1 - n) 0

/-- What is done with a fingerprint, before the loop and in it; the bytes compared and stored are
those from `off` on.  The globals and `delay_time`, or nothing for `goto error`. -/
def examine (p : Payload) (off : Nat) (txthash : UInt64) (s : State) : Option (State × Nat) :=
  if txthash &&& zeroValue = 0 then
    match s.map.get txthash with
    | some data =>
      if (s.row data).take chunkNum = bytesAt p.bytes off chunkNum then
        some (s.repeated (bytesAt p.bytes off chunkNum), chunkNum)
      else some (s, 0)
    | none =>
      if s.reindex < keynum then some (s.store txthash (keydata p off), 0) else none
  else some (s, 0)

def calculateLoop (p : Payload) : (n i : Nat) → UInt64 → (delayTime : Nat) → State → State × Int
  | 0, _, _, _, s => (s, 0)
  | n + 1, i, txthash, delayTime, s =>
    let txthash := roll p.bytes txthash i
    if delayTime = 0 then
      (examine p (i - chunkNum) txthash s).elim (s, -1)
        (fun (s, delayTime) => calculateLoop p n (i + 1) txthash delayTime s)
    else calculateLoop p n (i + 1) txthash (delayTime - 1) s

def calculateHash (p : Payload) (s : State) : State × Int :=
  let txthash := hash (bytesAt p.bytes 0 chunkNum) chunkNum
  (examine p 0 txthash s).elim (s, -1)
    (fun (s, delayTime) => calculateLoop p (p.len - chunkNum) chunkNum txthash delayTime s)

def newline : UInt8 := 10

/-- The results of `fgets` one after the other; `line` is the part of the next one read so far. -/
def fgets : (line : List UInt8) → (input : List UInt8) → List (List UInt8)
  | line, [] => if line.isEmpty then [] else [line]
  | line, b :: input =>
    if b = newline ∨ line.length + 1 = size - 1 then (line ++ [b]) :: fgets [] input
    else fgets (line ++ [b]) input

def fillPacket (temp : List UInt8) (packet : Nat → UInt8) : Nat → UInt8 :=
  fun j => if h : j < temp.length then temp.get ⟨j, h⟩ else if j = temp.length then 0 else packet j

def readPacket (p : Payload) (s : State) : State × Int :=
  let s := { s with sumbytes := s.sumbytes + p.len }
  if chunkNum ≤ p.len then calculateHash p s else (s, 0)

/-- No result when a line starts with a null byte: `strncpy` is then told to write without end. -/
def readLoop : List (List UInt8) → (packet : Nat → UInt8) → State → State × Option Int
  | [], _, s => (s, some 0)
  | source :: input, packet, s =>
    let len := strlen 0 (source ++ [0])
    if len = 0 then (s, none)
    else
      let temp := source.take (len - 1)
      let packet := fillPacket temp packet
      let (s, rc) := readPacket ⟨packet, temp.length⟩ s
      if rc = 0 then readLoop input packet s else (s, some (-1))

def readFile (file : List UInt8) (packet : Nat → UInt8) (s : State) : State × Option Int :=
  readLoop (fgets [] file) packet s

def State.saving (s : State) : Nat := s.recount * (chunkNum - remedy)

structure Visit where
  payload : Payload
  i : Nat

namespace Visit

def first (v : Visit) : Bool := v.i == chunkNum - 1

def window (v : Visit) : List UInt8 := bytesAt v.payload.bytes (v.i + 1 - chunkNum) chunkNum

def fingerprint (v : Visit) : UInt64 := hash v.window chunkNum

/-- Where the code compares and stores from: in the loop, one byte in front of the window. -/
def off (v : Visit) : Nat := if v.first then 0 else v.i - chunkNum

def block (v : Visit) : List UInt8 := bytesAt v.payload.bytes v.off chunkNum

end Visit

structure Cursor where
  state : State
  delayTime : Nat
  failed : Bool

namespace Cursor

def result (c : Cursor) : State × Int := (c.state, if c.failed then -1 else 0)

def enter (c : Cursor) (v : Visit) : Cursor :=
  if v.first then { c with delayTime := 0, failed := false } else c

def visit (c : Cursor) (v : Visit) : Cursor :=
  if c.failed then c
  else if c.delayTime = 0 then
    match examine v.payload v.off v.fingerprint c.state with
    | some (state, delayTime) => { state, delayTime, failed := false }
    | none => { c with failed := true }
  else { c with delayTime := c.delayTime - 1 }

def advance (c : Cursor) (v : Visit) : Cursor := (c.enter v).visit v

end Cursor

def visitsFrom (p : Payload) (i n : Nat) : List Visit := (List.range' i n).map (Visit.mk p)

def visits (p : Payload) : List Visit := visitsFrom p (chunkNum - 1) (p.len - (chunkNum - 1))

variable {p : Payload} {s : State} {c : Cursor} {v : Visit} {vs : List Visit} {i n : Nat}

theorem bytesAt_cons {mem : Nat → UInt8} {off : Nat} :
    bytesAt mem off (n + 1) = mem off :: bytesAt mem (off + 1) n := by
  rw [bytesAt, List.range'_succ, List.map_cons, bytesAt]

theorem bytesAt_concat {mem : Nat → UInt8} {off : Nat} :
    bytesAt mem off (n + 1) = bytesAt mem off n ++ [mem (off + n)] := by
  rw [bytesAt, List.range'_concat, List.map_append, bytesAt, Nat.one_mul]
  rfl

theorem length_bytesAt {mem : Nat → UInt8} {off : Nat} : (bytesAt mem off n).length = n := by
  simp [bytesAt]

theorem hash_eq : hash = Chunk.packHash := Pack.packHash_eq

theorem Q_eq : Q = Pack.Q := rfl

theorem R_eq : R = Pack.R := rfl

theorem residue_RM : residue RM.toUInt64 = residue Chunk.R ^ (chunkNum - 1) :=
  Pack.residue_signed_pow (chunkNum - 1)

theorem roll_window (mem : Nat → UInt8) (k : Nat) :
    roll mem (hash (bytesAt mem k chunkNum) chunkNum) (k + chunkNum) =
      hash (bytesAt mem (k + 1) chunkNum) chunkNum := by
  have hlen : (bytesAt mem (k + 1) (chunkNum - 1)).length = chunkNum - 1 := length_bytesAt
  have hM : chunkNum - 1 + 1 = chunkNum := rfl
  have hlast : k + 1 + (chunkNum - 1) = k + chunkNum := by
    rw [Nat.add_assoc, Nat.add_comm 1, hM]
  have hrm : residue RM.toUInt64 = residue Chunk.R ^ (bytesAt mem (k + 1) (chunkNum - 1)).length := by
    rw [residue_RM, hlen]
  have hstep := @Chunk.roll_packHash_cons RM.toUInt64 (mem k) (mem (k + chunkNum)) _ hrm
  rw [hlen, ← bytesAt_cons, ← hlast, ← bytesAt_concat, hM, hlast] at hstep
  rw [hash_eq, ← hstep]
  simp only [roll, Nat.add_sub_cancel, Q_eq, Pack.Q_toUInt64, R_eq, Pack.R_toUInt64,
    Pack.signed_out rfl]
  rfl

theorem enter_state (c : Cursor) (v : Visit) : (c.enter v).state = c.state := by
  unfold Cursor.enter
  split <;> rfl

theorem visitsFrom_succ : visitsFrom p i (n + 1) = ⟨p, i⟩ :: visitsFrom p (i + 1) n := by
  rw [visitsFrom, List.range'_succ, List.map_cons, visitsFrom]

theorem foldl_failed (hvs : ∀ v ∈ vs, v.first = false) (hc : c.failed = true) :
    vs.foldl Cursor.advance c = c := by
  induction vs with
  | nil => rfl
  | cons v vs ih =>
    obtain ⟨hv, hvs⟩ := List.forall_mem_cons.mp hvs
    have hstay : c.advance v = c := by simp [Cursor.advance, Cursor.enter, Cursor.visit, hv, hc]
    rw [List.foldl_cons, hstay]
    exact ih hvs

theorem not_first (hi : chunkNum ≤ i) : Visit.first ⟨p, i⟩ = false := by
  have : i ≠ chunkNum - 1 := by
    simp only [chunkNum] at hi ⊢
    omega
  simpa [Visit.first] using this

theorem visitsFrom_not_first (hi : chunkNum ≤ i) : ∀ v ∈ visitsFrom p i n, v.first = false := by
  intro v hv
  obtain ⟨j, hj, rfl⟩ := List.mem_map.mp hv
  exact not_first (hi.trans (List.mem_range'_1.mp hj).1)

theorem calculateLoop_eq_foldl (k n delayTime : Nat) (s : State) :
    calculateLoop p n (k + chunkNum) (hash (bytesAt p.bytes k chunkNum) chunkNum) delayTime s =
      ((visitsFrom p (k + chunkNum) n).foldl Cursor.advance ⟨s, delayTime, false⟩).result := by
  induction n generalizing k delayTime s with
  | zero => rfl
  | succ n ih =>
    have hrest := visitsFrom_not_first (p := p) (n := n) (show chunkNum ≤ k + chunkNum + 1 by omega)
    have hfirst : Visit.first ⟨p, k + chunkNum⟩ = false := not_first (Nat.le_add_left _ k)
    have hnext := ih (k + 1)
    rw [Nat.add_right_comm] at hnext
    have hprint : Visit.fingerprint ⟨p, k + chunkNum⟩ =
        hash (bytesAt p.bytes (k + 1) chunkNum) chunkNum := by
      rw [Visit.fingerprint, Visit.window, Nat.add_right_comm, Nat.add_sub_cancel]
    rw [calculateLoop, roll_window, visitsFrom_succ, List.foldl_cons, Cursor.advance, Cursor.enter,
      hfirst, Cursor.visit]
    simp only [Bool.false_eq_true, if_false, Visit.off, hfirst, hprint]
    by_cases hd : delayTime = 0
    · rw [if_pos hd, if_pos hd]
      cases examine p (k + chunkNum - chunkNum) (hash (bytesAt p.bytes (k + 1) chunkNum) chunkNum) s with
      | some r => exact hnext ..
      | none =>
        dsimp only
        rw [foldl_failed hrest rfl]
        rfl
    · rw [if_neg hd, if_neg hd]
      exact hnext ..

theorem windows_count (h : chunkNum ≤ p.len) : p.len - (chunkNum - 1) = p.len - chunkNum + 1 := by
  simp only [chunkNum] at h ⊢
  omega

theorem visits_cons (h : chunkNum ≤ p.len) :
    visits p = ⟨p, chunkNum - 1⟩ :: visitsFrom p chunkNum (p.len - chunkNum) := by
  rw [visits, windows_count h, visitsFrom_succ, show chunkNum - 1 + 1 = chunkNum from rfl]

theorem calculateHash_eq_foldl (h : chunkNum ≤ p.len) (c : Cursor) :
    calculateHash p c.state = ((visits p).foldl Cursor.advance c).result := by
  have hloop := @calculateLoop_eq_foldl p 0
  have hrest := visitsFrom_not_first (p := p) (n := p.len - chunkNum) (le_refl chunkNum)
  have hfirst : Visit.first ⟨p, chunkNum - 1⟩ = true := rfl
  have hprint : Visit.fingerprint ⟨p, chunkNum - 1⟩ = hash (bytesAt p.bytes 0 chunkNum) chunkNum := rfl
  rw [Nat.zero_add] at hloop
  rw [visits_cons h, List.foldl_cons, Cursor.advance, Cursor.enter, hfirst, Cursor.visit,
    calculateHash]
  simp only [Bool.false_eq_true, if_true, if_false, Visit.off, hfirst, hprint]
  cases examine p 0 (hash (bytesAt p.bytes 0 chunkNum) chunkNum) c.state with
  | some r => exact hloop ..
  | none =>
    dsimp only
    rw [foldl_failed hrest rfl]
    rfl

structure Examines (c : Cursor) (v : Visit) : Prop where
  running : c.failed = false
  due : c.delayTime = 0
  zero : v.fingerprint &&& zeroValue = 0

inductive Visited (c : Cursor) (v : Visit) : Cursor → Prop
  | failed : c.failed = true → Visited c v c
  | delayed : c.failed = false → c.delayTime ≠ 0 →
      Visited c v { c with delayTime := c.delayTime - 1 }
  | passed : c.failed = false → c.delayTime = 0 → v.fingerprint &&& zeroValue ≠ 0 → Visited c v c
  | counted {data : Nat} : Examines c v → c.state.map.get v.fingerprint = some data →
      (c.state.row data).take chunkNum = v.block →
      Visited c v ⟨c.state.repeated v.block, chunkNum, false⟩
  | differs {data : Nat} : Examines c v → c.state.map.get v.fingerprint = some data →
      (c.state.row data).take chunkNum ≠ v.block → Visited c v c
  | stored : Examines c v → c.state.map.get v.fingerprint = none → c.state.reindex < keynum →
      Visited c v ⟨c.state.store v.fingerprint (keydata v.payload v.off), 0, false⟩
  | full : Examines c v → c.state.map.get v.fingerprint = none → keynum ≤ c.state.reindex →
      Visited c v { c with failed := true }

theorem visited (c : Cursor) (v : Visit) : Visited c v (c.visit v) := by
  obtain ⟨s, delayTime, failed⟩ := c
  have hblock : bytesAt v.payload.bytes v.off chunkNum = v.block := rfl
  unfold Cursor.visit examine
  cases failed with
  | true => exact .failed rfl
  | false =>
    by_cases hd : delayTime = 0
    · subst hd
      by_cases hz : v.fingerprint &&& zeroValue = 0
      · have hex : Examines ⟨s, 0, false⟩ v := ⟨rfl, rfl, hz⟩
        cases hget : s.map.get v.fingerprint with
        | some data =>
          by_cases heq : (s.row data).take chunkNum = v.block
          · simpa [hz, hget, heq, hblock] using .counted hex hget heq
          · simpa [hz, hget, heq, hblock] using .differs hex hget heq
        | none =>
          by_cases hroom : s.reindex < keynum
          · simpa [hz, hget, hroom] using .stored hex hget hroom
          · simpa [hz, hget, hroom] using .full hex hget (Nat.le_of_not_lt hroom)
      · simpa [hz] using .passed rfl rfl hz
    · simpa [hd] using .delayed rfl hd

end Wspack.Tcpre
