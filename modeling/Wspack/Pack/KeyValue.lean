import Wspack.KernelHash.Item
import Wspack.Lib.Run
import Wspack.Pack.Buffer

namespace Wspack.Pack

open Lib
open KernelHash (wrapInt wrapInt_of_lt)

def sha : Nat := 20
def shaNum : Nat := 50000000

def ptrdiffMax : Nat := 2 ^ 63 - 1

def word (x : Nat) : Nat := x % 2 ^ 64

/-- `key` is the address of a block of `allocated` bytes, and `contents` the memory from there on. -/
structure KeyValue where
  index : Nat
  capacity : Nat
  expandRate : Nat
  step : Int
  key : Nat
  allocated : Nat
  contents : Int → UInt8

def KeyValue.stepSize (kv : KeyValue) : Nat := (kv.step % 2 ^ 64).toNat

/-- What both branches of `keyvalue_create` do; `calloc` returns `base`, or fails for want of room. -/
def keyvalueAlloc (num : Nat) (step : Int) (base : Nat) : Option KeyValue :=
  let size := num * (step % 2 ^ 64).toNat
  if size ≤ ptrdiffMax then
    some {
      index := 0
      capacity := size
      expandRate := size
      step
      key := base
      allocated := size
      contents := fun _ => 0 }
  else none

def keyvalueCreate (num stepS base : Nat) : Option KeyValue :=
  if num = 0 then keyvalueAlloc shaNum sha base else keyvalueAlloc num (wrapInt stepS) base

def copyAt (contents : Int → UInt8) (dst : Int) (el : Nat → UInt8) (n : Nat) : Int → UInt8 :=
  fun i => if dst ≤ i ∧ i < dst + n then el (i - dst).toNat else contents i

def keyvalueFull (kv : KeyValue) : Bool :=
  !decide (kv.index ≤ word (kv.capacity + (2 ^ 64 - kv.stepSize)))

/-- `realloc` is what the allocator returns, NULL or the address of the block; the first bytes are
the old ones.  The result says whether it succeeded. -/
def keyvalueResize (kv : KeyValue) (newsize : Nat) (realloc : Option Nat) : KeyValue × Bool :=
  let kv := { kv with capacity := newsize }
  if 0 < kv.capacity then
    match realloc with
    | some contents =>
      ({ kv with key := contents, allocated := word (kv.capacity * kv.stepSize) }, true)
    | none => (kv, false)
  else (kv, false)

abbrev SizedWrite := Nat × Write

def keyvalueExpand (kv : KeyValue) (realloc : Option Nat) : KeyValue × Bool × List SizedWrite :=
  let oldMax := kv.capacity
  match keyvalueResize kv (word (kv.capacity + kv.expandRate)) realloc with
  | (kv, true) =>
    ({ kv with contents := copyAt kv.contents oldMax (fun _ => 0) kv.expandRate }, true,
      [(kv.allocated, ⟨oldMax, kv.expandRate⟩)])
  | (kv, false) => (kv, false, [])

/-- A call of `keyvalue_push`: the bytes at `el`, and what `realloc` returns if it is called. -/
structure Push where
  el : Nat → UInt8
  realloc : Option Nat

structure Pushed where
  kv : KeyValue
  pointer : Option Int
  writes : List SizedWrite

def KeyValue.copied (kv : KeyValue) (el : Nat → UInt8) : KeyValue :=
  { kv with
    contents := copyAt kv.contents (wrapInt kv.index) el kv.stepSize
    index := word (kv.index + kv.stepSize) }

def keyvaluePush (kv : KeyValue) (p : Push) : Pushed :=
  let oldIndex := wrapInt kv.index
  let write := (kv.allocated, ⟨oldIndex, kv.stepSize⟩)
  let kv := kv.copied p.el
  if keyvalueFull kv then
    match keyvalueExpand kv p.realloc with
    | (kv, true, writes) => ⟨kv, some (kv.key + oldIndex), write :: writes⟩
    | (kv, false, writes) => ⟨kv, none, write :: writes⟩
  else ⟨kv, some (kv.key + oldIndex), [write]⟩

def KeyValue.grows (kv : KeyValue) : Bool :=
  keyvalueFull { kv with index := word (kv.index + kv.stepSize) }

def KeyValue.grown (kv : KeyValue) (el : Nat → UInt8) (b : Nat) : KeyValue :=
  { kv.copied el with
    capacity := kv.capacity + kv.expandRate
    key := b
    allocated := (kv.capacity + kv.expandRate) * kv.stepSize
    contents := copyAt (kv.copied el).contents kv.capacity (fun _ => 0) kv.expandRate }

variable {kv : KeyValue} {p : Push} {m : Nat}

structure Sound (m : Nat) (kv : KeyValue) : Prop where
  small : kv.stepSize < 2 ^ 31
  index : kv.index = m * kv.stepSize
  below : kv.index < 2 ^ 32
  room : ∃ n c, kv.capacity = c * kv.stepSize ∧ kv.expandRate = n * kv.stepSize ∧
    0 < n ∧ n ≤ c ∧ m < c
  fits : kv.capacity ≤ kv.allocated
  size : kv.capacity < 2 ^ 63

theorem sound_alloc {num base : Nat} {step : Int} (hnum : 0 < num) (hmin : -2 ^ 31 ≤ step)
    (hmax : step < 2 ^ 31) (h : keyvalueAlloc num step base = some kv) : Sound 0 kv := by
  unfold keyvalueAlloc at h
  dsimp only at h
  split at h
  · next hsize =>
    cases h
    have hle := (Nat.le_mul_of_pos_left (step % 2 ^ 64).toNat hnum).trans hsize
    rw [ptrdiffMax] at hle hsize
    refine ⟨?_, (Nat.zero_mul _).symm, Nat.two_pow_pos 32, ⟨num, num, rfl, rfl, hnum, le_rfl, hnum⟩, le_rfl, ?_⟩
    · change (step % 2 ^ 64).toNat < 2 ^ 31
      omega
    · dsimp only
      omega
  · cases h

theorem sound_create {num stepS base : Nat} (h : keyvalueCreate num stepS base = some kv) :
    Sound 0 kv := by
  unfold keyvalueCreate at h
  split at h
  · exact sound_alloc (by decide) (by decide) (by decide) h
  · have hmin := @Int.le_bmod stepS (2 ^ 32) (by decide)
    have hmax := @Int.bmod_lt stepS (2 ^ 32) (by decide)
    exact sound_alloc (by omega) (by rw [wrapInt]; omega) (by rw [wrapInt]; omega) h

theorem word_of_lt {x : Nat} (h : x < 2 ^ 64) : word x = x := Nat.mod_eq_of_lt h

theorem Sound.next_le (h : Sound m kv) : m * kv.stepSize + kv.stepSize ≤ kv.capacity := by
  obtain ⟨n, c, hc, -, -, -, hm⟩ := h.room
  rw [hc, ← Nat.succ_mul]
  exact Nat.mul_le_mul_right _ hm

theorem Sound.index_add (h : Sound m kv) (hlt : kv.index < 2 ^ 31) :
    word (kv.index + kv.stepSize) = (m + 1) * kv.stepSize := by
  have := h.small
  rw [word_of_lt (by omega), h.index, Nat.succ_mul]

theorem Sound.grows_iff (h : Sound m kv) (hlt : kv.index < 2 ^ 31) :
    kv.grows = true ↔ 0 < kv.stepSize ∧ kv.capacity = (m + 1) * kv.stepSize := by
  obtain ⟨n, c, hc, -, -, -, hm⟩ := h.room
  have hsmall := h.small
  have hsize := h.size
  have hle : (m + 1) * kv.stepSize ≤ kv.capacity := by
    rw [Nat.succ_mul]
    exact h.next_le
  have hstep : kv.stepSize ≤ (m + 1) * kv.stepSize := Nat.le_mul_of_pos_left _ m.succ_pos
  have hsub : word (kv.capacity + (2 ^ 64 - kv.stepSize)) = kv.capacity - kv.stepSize := by
    rw [word]
    omega
  have hfull : kv.grows = true ↔ kv.capacity - kv.stepSize < (m + 1) * kv.stepSize := by
    unfold KeyValue.grows keyvalueFull
    simp only [h.index_add hlt, Bool.not_eq_true', decide_eq_false_iff_not, Nat.not_le]
    rw [show KeyValue.stepSize { kv with index := (m + 1) * kv.stepSize } = kv.stepSize from rfl, hsub]
  rw [hfull]
  rcases Nat.lt_or_ge (m + 1) c with hlt | hge
  · have hnext : (m + 1 + 1) * kv.stepSize ≤ kv.capacity := hc ▸ Nat.mul_le_mul_right _ hlt
    rw [Nat.succ_mul] at hnext
    omega
  · rw [show m + 1 = c by omega, ← hc]
    omega

section
variable (h : Sound m kv) (hlt : kv.index < 2 ^ 31)
include h hlt

theorem copied_eq (el : Nat → UInt8) : kv.copied el = { kv with
    contents := copyAt kv.contents (m * kv.stepSize : Nat) el kv.stepSize
    index := (m + 1) * kv.stepSize } := by
  rw [KeyValue.copied, h.index_add hlt, wrapInt_of_lt hlt, h.index]

theorem Sound.grown_size (hg : kv.grows = true) :
    word (kv.capacity + kv.expandRate) = kv.capacity + kv.expandRate ∧
      0 < kv.capacity + kv.expandRate ∧ kv.capacity + kv.expandRate < 2 ^ 63 ∧
      word ((kv.capacity + kv.expandRate) * kv.stepSize) =
        (kv.capacity + kv.expandRate) * kv.stepSize := by
  obtain ⟨hpos, hcap⟩ := (h.grows_iff hlt).mp hg
  obtain ⟨n, c, hc, hn, -, hle, -⟩ := h.room
  have hsmall := h.small
  have hrate : kv.expandRate ≤ kv.capacity := by
    rw [hc, hn]
    exact Nat.mul_le_mul_right _ hle
  rw [Nat.succ_mul, ← h.index] at hcap
  have hbytes : (kv.capacity + kv.expandRate) * kv.stepSize ≤ (2 ^ 33 - 4) * (2 ^ 31 - 1) :=
    Nat.mul_le_mul (by omega) (by omega)
  exact ⟨word_of_lt (by omega), by omega, by omega, word_of_lt (by omega)⟩

theorem push_keep (hg : kv.grows = false) :
    keyvaluePush kv p = ⟨kv.copied p.el, some (kv.key + (m * kv.stepSize : Nat)),
      [(kv.allocated, ⟨(m * kv.stepSize : Nat), kv.stepSize⟩)]⟩ := by
  have hfull : ¬keyvalueFull (kv.copied p.el) = true := Bool.eq_false_iff.mp hg
  rw [keyvaluePush, if_neg hfull, wrapInt_of_lt hlt, h.index]
  rfl

theorem push_grow {b : Nat} (hg : kv.grows = true) (hb : p.realloc = some b) :
    keyvaluePush kv p = ⟨kv.grown p.el b, some (b + (m * kv.stepSize : Nat)),
      [(kv.allocated, ⟨(m * kv.stepSize : Nat), kv.stepSize⟩),
        ((kv.capacity + kv.expandRate) * kv.stepSize, ⟨kv.capacity, kv.expandRate⟩)]⟩ := by
  obtain ⟨hword, hpos, -, hbytes⟩ := h.grown_size hlt hg
  have hfull : keyvalueFull (kv.copied p.el) = true := hg
  have hcap : (kv.copied p.el).capacity + (kv.copied p.el).expandRate =
    kv.capacity + kv.expandRate := rfl
  rw [keyvaluePush, if_pos hfull, wrapInt_of_lt hlt, h.index]
  simp only [keyvalueExpand, keyvalueResize, hb, hcap, hword, hpos, if_true]
  rw [KeyValue.grown, ← hbytes]
  rfl

theorem push_fail (hg : kv.grows = true) (hb : p.realloc = none) :
    keyvaluePush kv p = ⟨{ kv.copied p.el with capacity := kv.capacity + kv.expandRate }, none,
      [(kv.allocated, ⟨(m * kv.stepSize : Nat), kv.stepSize⟩)]⟩ := by
  obtain ⟨hword, hpos, -, -⟩ := h.grown_size hlt hg
  have hfull : keyvalueFull (kv.copied p.el) = true := hg
  have hcap : (kv.copied p.el).capacity + (kv.copied p.el).expandRate =
    kv.capacity + kv.expandRate := rfl
  rw [keyvaluePush, if_pos hfull, wrapInt_of_lt hlt, h.index]
  simp only [keyvalueExpand, keyvalueResize, hb, hcap, hword, hpos, if_true]

theorem Sound.keep (hg : kv.grows = false) (el : Nat → UInt8) : Sound (m + 1) (kv.copied el) := by
  have hsmall := h.small
  have hidx := h.index_add hlt
  have hnot := mt (h.grows_iff hlt).mpr (Bool.eq_false_iff.mp hg)
  obtain ⟨n, c, hc, hn, hpos, hle, hm⟩ := h.room
  refine ⟨h.small, hidx, ?_, ?_, h.fits, h.size⟩
  · change word (kv.index + kv.stepSize) < 2 ^ 32
    rw [word]
    omega
  · change ∃ n c, kv.capacity = c * kv.stepSize ∧ kv.expandRate = n * kv.stepSize ∧
      0 < n ∧ n ≤ c ∧ m + 1 < c
    rcases Nat.eq_zero_or_pos kv.stepSize with h0 | hstep
    · refine ⟨n, c + 1, ?_, hn, hpos, by omega, by omega⟩
      rw [hc, h0, Nat.mul_zero, Nat.mul_zero]
    · have hne : c ≠ m + 1 := by
        rintro rfl
        exact hnot ⟨hstep, hc⟩
      exact ⟨n, c, hc, hn, hpos, hle, by omega⟩

theorem Sound.grow (hg : kv.grows = true) (el : Nat → UInt8) (b : Nat) :
    Sound (m + 1) (kv.grown el b) := by
  have hsmall := h.small
  have hidx := h.index_add hlt
  obtain ⟨hstep, -⟩ := (h.grows_iff hlt).mp hg
  obtain ⟨-, -, hsize, -⟩ := h.grown_size hlt hg
  obtain ⟨n, c, hc, hn, hpos, hle, hm⟩ := h.room
  refine ⟨h.small, hidx, ?_, ⟨n, c + n, ?_, hn, hpos, by omega, by omega⟩, ?_, hsize⟩
  · change word (kv.index + kv.stepSize) < 2 ^ 32
    rw [word]
    omega
  · change kv.capacity + kv.expandRate = (c + n) * kv.stepSize
    rw [hc, hn, Nat.add_mul]
  · exact Nat.le_mul_of_pos_right _ hstep

theorem Sound.push (hr : kv.grows = true → p.realloc ≠ none) :
    Sound (m + 1) (keyvaluePush kv p).kv ∧ (keyvaluePush kv p).pointer ≠ none ∧
      ∀ w ∈ (keyvaluePush kv p).writes, w.2.Inside w.1 := by
  have hnext := h.next_le
  have hfits := h.fits
  cases hg : kv.grows with
  | false =>
    rw [push_keep h hlt hg]
    refine ⟨h.keep hlt hg p.el, by simp, fun w hw => ?_⟩
    rw [List.mem_singleton.mp hw]
    constructor <;> dsimp only <;> omega
  | true =>
    obtain ⟨b, hb⟩ := Option.ne_none_iff_exists'.mp (hr hg)
    obtain ⟨hstep, -⟩ := (h.grows_iff hlt).mp hg
    have hbytes := Nat.le_mul_of_pos_right (kv.capacity + kv.expandRate) hstep
    rw [push_grow h hlt hg hb]
    refine ⟨h.grow hlt hg p.el b, by simp, fun w hw => ?_⟩
    rcases List.mem_cons.mp hw with rfl | hw
    · constructor <;> dsimp only <;> omega
    · rw [List.mem_singleton.mp hw]
      constructor <;> dsimp only <;> omega

end

theorem head?_writes : (keyvaluePush kv p).writes.head? =
    some (kv.allocated, ⟨wrapInt kv.index, kv.stepSize⟩) := by
  unfold keyvaluePush
  dsimp only
  split
  · split <;> rfl
  · rfl

theorem Sound.wrapped (h : Sound m kv) (hge : ¬kv.index < 2 ^ 31) : wrapInt kv.index < 0 := by
  have := h.below
  rw [wrapInt, Int.bmod_def]
  omega

/-- What `keyvalue_push` leaves behind: no more capacity than bytes, all writes in the block, and
where it returns NULL the fields it found. -/
def Consistent (kv : KeyValue) (p : Push) : Prop :=
  (keyvaluePush kv p).kv.capacity ≤ (keyvaluePush kv p).kv.allocated ∧
    ((keyvaluePush kv p).pointer = none → (keyvaluePush kv p).kv.index = kv.index ∧
      (keyvaluePush kv p).kv.capacity = kv.capacity) ∧
    ∀ w ∈ (keyvaluePush kv p).writes, w.2.Inside w.1

def Succeeds (kv : KeyValue) (p : Push) : Prop :=
  kv.index < 2 ^ 31 ∧ (kv.grows = true → p.realloc ≠ none)

instance (kv : KeyValue) : DecidablePred (Consistent kv) :=
  fun _ => inferInstanceAs (Decidable (_ ∧ (_ → _ ∧ _) ∧ _))

instance (kv : KeyValue) : DecidablePred (Succeeds kv) :=
  fun _ => inferInstanceAs (Decidable (_ ∧ (_ → _)))

def KeyValue.next (kv : KeyValue) (p : Push) : KeyValue := (keyvaluePush kv p).kv

theorem Sound.index_lt (h : Sound m kv) (hw : ∀ w ∈ (keyvaluePush kv p).writes, w.2.Inside w.1) :
    kv.index < 2 ^ 31 := by
  by_contra hge
  have hneg := h.wrapped hge
  have hin := (hw _ (List.mem_of_head? head?_writes)).1
  dsimp only at hin
  omega

theorem Sound.consistent_iff (h : Sound m kv) : Consistent kv p ↔ Succeeds kv p := by
  constructor
  · rintro ⟨-, hnull, hw⟩
    have hlt := h.index_lt hw
    refine ⟨hlt, fun hg hb => ?_⟩
    have hstep := ((h.grows_iff hlt).mp hg).1
    have hsame := (hnull (by rw [push_fail h hlt hg hb])).1
    rw [push_fail h hlt hg hb] at hsame
    have hidx : word (kv.index + kv.stepSize) = kv.index := hsame
    rw [h.index_add hlt, h.index, Nat.succ_mul] at hidx
    omega
  · rintro ⟨hlt, hr⟩
    obtain ⟨hsound, hptr, hw⟩ := h.push hlt hr
    exact ⟨hsound.fits, fun hnull => absurd hnull hptr, hw⟩

theorem keyvalue_consistent (num stepS base : Nat) (kv : KeyValue)
    (h : keyvalueCreate num stepS base = some kv) (pushes : List Push) :
    Along KeyValue.next Consistent kv pushes ↔ Along KeyValue.next Succeeds kv pushes := by
  apply @along_iff _ _ _ _ KeyValue.next (fun kv => ∃ m, Sound m kv) (fun _ => True)
  · rintro kv p - ⟨m, hm⟩
    exact hm.consistent_iff
  · rintro kv p - ⟨m, hm⟩ ⟨hlt, hr⟩
    exact ⟨m + 1, (hm.push hlt hr).1⟩
  · exact ⟨0, sound_create h⟩
  · exact fun _ _ => trivial

def twoDigests : KeyValue where
  index := 0
  capacity := 40
  expandRate := 40
  step := 20
  key := 4096
  allocated := 40
  contents := fun _ => 0

def pushByte (b : UInt8) (realloc : Option Nat) : Push := ⟨fun _ => b, realloc⟩

theorem keyvalue_consistent_moved :
    keyvalueCreate 2 20 4096 = some twoDigests ∧ Along KeyValue.next Consistent twoDigests
      [pushByte 1 none, pushByte 2 (some 8192), pushByte 3 none] :=
  ⟨rfl, (keyvalue_consistent 2 20 4096 twoDigests rfl _).mpr (by decide +kernel)⟩

theorem keyvalue_inconsistent :
    keyvalueCreate 2 20 4096 = some twoDigests ∧ ¬Along KeyValue.next Consistent twoDigests
      [pushByte 1 none, pushByte 2 none, pushByte 3 none] :=
  ⟨rfl, by decide +kernel⟩

structure Store where
  kv : KeyValue
  pushed : List ((Nat → UInt8) × Option Int)

def Store.next (s : Store) (p : Push) : Store where
  kv := (keyvaluePush s.kv p).kv
  pushed := s.pushed ++ [(p.el, (keyvaluePush s.kv p).pointer)]

def Store.Holds (s : Store) : Prop :=
  ∀ i x, s.pushed[i]? = some x → x.2 = some ((s.kv.key : Int) + (i * s.kv.stepSize : Nat)) ∧
    i * s.kv.stepSize + s.kv.stepSize ≤ s.kv.allocated ∧
    ∀ b < s.kv.stepSize, s.kv.contents (i * s.kv.stepSize + b : Nat) = x.1 b

/-- The push copies `step` bytes to the next offset, inside the block, and then all that was pushed
is where its pointer says. -/
def Readable (s : Store) (p : Push) : Prop :=
  (keyvaluePush s.kv p).writes.head? =
      some (s.kv.allocated, ⟨(s.pushed.length * s.kv.stepSize : Nat), s.kv.stepSize⟩) ∧
    (∀ w ∈ (keyvaluePush s.kv p).writes, w.2.Inside w.1) ∧ (s.next p).Holds

def Stays (s : Store) (p : Push) : Prop :=
  s.kv.index < 2 ^ 31 ∧ (s.pushed ≠ [] → s.kv.grows = true → p.realloc = some s.kv.key)

instance (s : Store) : DecidablePred (Stays s) :=
  fun _ => inferInstanceAs (Decidable (_ ∧ (_ → _ → _)))

variable {s : Store}

theorem copyAt_outside {contents : Int → UInt8} {dst i : Int} {el : Nat → UInt8} {n : Nat}
    (h : i < dst ∨ dst + n ≤ i) : copyAt contents dst el n i = contents i := by
  rw [copyAt, if_neg (by omega)]

theorem copyAt_inside {contents : Int → UInt8} {dst b n : Nat} {el : Nat → UInt8} (h : b < n) :
    copyAt contents dst el n (dst + b : Nat) = el b := by
  rw [copyAt, if_pos (by omega)]
  congr 1
  omega

theorem Store.Holds.concat (hs : s.Holds) (h : Sound s.pushed.length s.kv) (hlt : s.kv.index < 2 ^ 31)
    (kv : KeyValue) (el : Nat → UInt8) (hstep : kv.stepSize = s.kv.stepSize)
    (hkey : s.pushed ≠ [] → kv.key = s.kv.key)
    (hroom : s.pushed.length * s.kv.stepSize + s.kv.stepSize ≤ kv.allocated)
    (hsame : ∀ j : Nat, j < s.pushed.length * s.kv.stepSize + s.kv.stepSize →
      kv.contents j = (s.kv.copied el).contents j) :
    Store.Holds ⟨kv, s.pushed ++
      [(el, some ((kv.key : Int) + (s.pushed.length * s.kv.stepSize : Nat)))]⟩ := by
  rw [copied_eq h hlt] at hsame
  intro i x hx
  simp only [hstep]
  rcases Nat.lt_or_ge i s.pushed.length with hi | hi
  · rw [List.getElem?_append_left hi] at hx
    have hne : s.pushed ≠ [] := List.ne_nil_of_length_pos (Nat.zero_lt_of_lt hi)
    obtain ⟨hptr, -, hbytes⟩ := hs i x hx
    have hle : i * s.kv.stepSize + s.kv.stepSize ≤ s.pushed.length * s.kv.stepSize := by
      rw [← Nat.succ_mul]
      exact Nat.mul_le_mul_right _ hi
    refine ⟨hkey hne ▸ hptr, by omega, fun b hb => ?_⟩
    rw [hsame _ (by omega), ← hbytes b hb]
    exact copyAt_outside (.inl (by omega))
  · obtain rfl : i = s.pushed.length := by
      have := (List.getElem?_eq_some_iff.mp hx).1
      simp only [List.length_append, List.length_singleton] at this
      omega
    rw [List.getElem?_concat_length, Option.some.injEq] at hx
    subst hx
    refine ⟨rfl, hroom, fun b hb => ?_⟩
    rw [hsame _ (by omega)]
    exact copyAt_inside hb

theorem Store.holds_next_iff (hs : s.Holds) (h : Sound s.pushed.length s.kv)
    (hlt : s.kv.index < 2 ^ 31) (halloc : p.realloc ≠ none) :
    (s.next p).Holds ↔ (s.pushed ≠ [] → s.kv.grows = true → p.realloc = some s.kv.key) := by
  have hnext := h.next_le
  have hfits := h.fits
  cases hg : s.kv.grows with
  | false =>
    simp only [Bool.false_eq_true, false_imp_iff, implies_true, iff_true]
    rw [Store.next, push_keep h hlt hg]
    exact hs.concat h hlt _ _ rfl (fun _ => rfl) (hnext.trans hfits) (fun _ _ => rfl)
  | true =>
    obtain ⟨b, hb⟩ := Option.ne_none_iff_exists'.mp halloc
    rw [Store.next, push_grow h hlt hg hb, hb, Option.some.injEq]
    constructor
    · intro hholds hne _
      obtain ⟨x, l, hl⟩ := List.exists_cons_of_ne_nil hne
      have hold := (hs 0 x (by rw [hl]; rfl)).1
      have hnew := (hholds 0 x (by rw [hl]; rfl)).1
      rw [hold, Option.some.injEq] at hnew
      change ((s.kv.key : Int) + (0 * s.kv.stepSize : Nat) = b + (0 * s.kv.stepSize : Nat)) at hnew
      omega
    · intro hkey
      obtain ⟨hstep, -⟩ := (h.grows_iff hlt).mp hg
      have hbytes := Nat.le_mul_of_pos_right (s.kv.capacity + s.kv.expandRate) hstep
      refine hs.concat h hlt (s.kv.grown p.el b) p.el rfl (fun hne => hkey hne rfl) ?_ ?_
      · exact (hnext.trans (Nat.le_add_right _ _)).trans hbytes
      · intro j hj
        have hlow : (j : Int) < s.kv.capacity := by omega
        change copyAt (s.kv.copied p.el).contents s.kv.capacity (fun _ => 0) s.kv.expandRate j = _
        rw [copyAt_outside (.inl hlow)]

theorem readable_iff_stays (hs : s.Holds) (h : Sound s.pushed.length s.kv) (halloc : p.realloc ≠ none) :
    Readable s p ↔ Stays s p := by
  constructor
  · rintro ⟨-, hw, hholds⟩
    have hlt := h.index_lt hw
    exact ⟨hlt, (Store.holds_next_iff hs h hlt halloc).mp hholds⟩
  · rintro ⟨hlt, hkey⟩
    refine ⟨?_, (h.push hlt (fun _ => halloc)).2.2, (Store.holds_next_iff hs h hlt halloc).mpr hkey⟩
    rw [head?_writes, wrapInt_of_lt hlt, h.index]

theorem keyvalue_readable (num stepS base : Nat) (kv : KeyValue)
    (h : keyvalueCreate num stepS base = some kv) (pushes : List Push)
    (halloc : ∀ p ∈ pushes, p.realloc ≠ none) :
    Along Store.next Readable ⟨kv, []⟩ pushes ↔ Along Store.next Stays ⟨kv, []⟩ pushes := by
  apply @along_iff _ _ _ _ Store.next (fun s => s.Holds ∧ Sound s.pushed.length s.kv)
    (fun p => p.realloc ≠ none)
  · rintro s p hp ⟨hs, hsound⟩
    exact readable_iff_stays hs hsound hp
  · rintro s p hp ⟨hs, hsound⟩ ⟨hlt, hkey⟩
    refine ⟨(Store.holds_next_iff hs hsound hlt hp).mpr hkey, ?_⟩
    rw [Store.next, List.length_append, List.length_singleton]
    exact (hsound.push hlt (fun _ => hp)).1
  · exact ⟨by simp [Store.Holds], sound_create h⟩
  · exact halloc

theorem keyvalue_readable_in_place :
    keyvalueCreate 2 20 4096 = some twoDigests ∧ Along Store.next Readable ⟨twoDigests, []⟩
      [pushByte 1 (some 0), pushByte 2 (some 4096), pushByte 3 (some 0)] :=
  ⟨rfl, (keyvalue_readable 2 20 4096 twoDigests rfl _ (by decide)).mpr (by decide +kernel)⟩

theorem keyvalue_moved :
    keyvalueCreate 2 20 4096 = some twoDigests ∧
      (∀ p ∈ [pushByte 1 (some 0), pushByte 2 (some 8192)], p.realloc ≠ none) ∧
      ¬Along Store.next Readable ⟨twoDigests, []⟩
        [pushByte 1 (some 0), pushByte 2 (some 8192)] := by
  refine ⟨rfl, by decide, fun h => ?_⟩
  have hptr := (h.2.1.2.2 0 _ rfl).1
  exact absurd hptr (by decide +kernel)

end Wspack.Pack
