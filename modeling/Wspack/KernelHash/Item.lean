import Mathlib.Logic.Function.Basic
import Mathlib.Algebra.Order.Ring.Int

namespace Wspack.KernelHash

def sha1Size : Nat := 20
def shaLen : Nat := 20
def chunkStep : Nat := 32
def itemCiteAdd : Int := 6
def itemCiteFind : Int := 6
def itemDiskLimit : Int := 6
def itemVipLimit : Int := 12

abbrev Digest := Vector UInt8 20

inductive FlagCache
  | memory
  | disk
  | willWrite
  | always
  | readBack
  deriving DecidableEq, Repr

/-- The allocators of `mem_style`: 0 is `kmalloc`, 1 to 3 are the slabs of one to three
chunk steps.  The code -1, no buffer, is `none` in `HashinfoItem.memStyle`. -/
inductive MemStyle
  | kmalloc
  | slab1
  | slab2
  | slab3
  deriving DecidableEq, Repr

inductive StoreFlag
  | initial
  | should
  | will
  deriving DecidableEq, Repr

structure HashinfoItem where
  refcnt : Int
  shareRef : Int
  len : Nat
  sha1 : Digest
  data : Nat
  memStyle : Option MemStyle
  cpuid : Int
  start : Nat
  flagCache : FlagCache
  flagMem : Bool
  storeFlag : StoreFlag
  /-- Ghost: the bytes `hash_new_item` was given. -/
  value : List UInt8
  deriving DecidableEq

/-- A 32-bit `int` that wraps, as `atomic_t` arithmetic does. -/
def wrapInt (x : Int) : Int := Int.bmod x (2 ^ 32)

theorem wrapInt_of_range {x : Int} (hl : -2 ^ 31 ≤ x) (hu : x < 2 ^ 31) : wrapInt x = x := by
  apply Int.bmod_eq_of_le <;> omega

theorem wrapInt_of_lt {n : Nat} (h : n < 2 ^ 31) : wrapInt n = n :=
  wrapInt_of_range (by omega) (by omega)

theorem wrapInt_add_wrapInt (x y : Int) : wrapInt (wrapInt x + y) = wrapInt (x + y) := Int.bmod_add_bmod

theorem wrapInt_sub_wrapInt (x y : Int) : wrapInt (wrapInt x - y) = wrapInt (x - y) := Int.bmod_sub_bmod

def slotCount (len : Nat) : Nat :=
  if len ≤ chunkStep then 1 else (len + chunkStep - 1) / chunkStep

theorem slotCount_eq (len : Nat) : slotCount len = max 1 ((len + chunkStep - 1) / chunkStep) := by
  unfold slotCount chunkStep
  split <;> omega

theorem slotCount_pos (len : Nat) : 0 < slotCount len := by
  rw [slotCount_eq]; omega

theorem le_slotCount (len : Nat) : len ≤ slotCount len * chunkStep := by
  rw [slotCount_eq, chunkStep]; omega

def memStyleOf (length : Nat) : MemStyle :=
  if length ≤ chunkStep then .slab1
  else if length ≤ chunkStep * 2 then .slab2
  else if length ≤ chunkStep * 3 then .slab3
  else .kmalloc

/-- The data buffers: `next` have been handed out, `freed` lists those given back, in
order and with repetition, and `mm` are the counters `mm0` to `mm3`. -/
structure Heap where
  next : Nat
  bytes : Nat → List UInt8
  freed : List Nat
  mm : MemStyle → Int

inductive Fault
  | freeDataMemory
  | bitmapFull
  | cpuOffline
  | useAfterFree
  deriving DecidableEq, Repr

def allocDataMemory (h : Heap) (cp : HashinfoItem) : Heap × HashinfoItem :=
  match cp.memStyle with
  | some _ => (h, cp)
  | none =>
    let k := memStyleOf cp.len
    ({ h with
        next := h.next + 1
        bytes := Function.update h.bytes h.next (List.replicate cp.len 0)
        mm := Function.update h.mm k (h.mm k + cp.len) },
      { cp with data := h.next, memStyle := some k })

def freeDataMemory (h : Heap) (cp : HashinfoItem) : Except Fault (Heap × HashinfoItem) :=
  match cp.memStyle with
  | some k => .ok
      ({ h with freed := cp.data :: h.freed, mm := Function.update h.mm k (h.mm k - cp.len) },
        { cp with memStyle := none })
  | none => .error .freeDataMemory

def memcpyData (h : Heap) (cp : HashinfoItem) (src : List UInt8) : Heap :=
  { h with bytes := Function.update h.bytes cp.data src }

def newItem (h : Heap) (info : Digest) (value : List UInt8) : Heap × HashinfoItem :=
  let (h, cp) := allocDataMemory h
    { refcnt := itemCiteAdd, shareRef := 1, len := value.length, sha1 := info, data := 0,
      memStyle := none, cpuid := -1, start := 0, flagCache := .memory, flagMem := false,
      storeFlag := .initial, value := value }
  (memcpyData h cp value, cp)

def HashinfoItem.hit (cp : HashinfoItem) : HashinfoItem :=
  { cp with
    refcnt := wrapInt (cp.refcnt + itemCiteFind)
    shareRef := wrapInt (cp.shareRef + 1)
    flagCache := if cp.flagCache = .disk then .readBack else cp.flagCache }

def HashinfoItem.release (cp : HashinfoItem) : HashinfoItem :=
  { cp with shareRef := wrapInt (cp.shareRef - 1) }

def HashinfoItem.diskRange (cp : HashinfoItem) : Bool :=
  decide (cp.refcnt < itemVipLimit) && decide (itemDiskLimit ≤ cp.refcnt)

def HashinfoItem.markable (cp : HashinfoItem) : Bool :=
  cp.diskRange && decide (cp.flagCache = .willWrite) && decide (cp.cpuid = -1) &&
    decide (cp.shareRef = 1)

def HashinfoItem.mark (cp : HashinfoItem) : HashinfoItem :=
  { cp with
    storeFlag := if cp.storeFlag = .should then .will else cp.storeFlag
    cpuid := -2 }

def HashinfoItem.unmarkable (cp : HashinfoItem) : Bool :=
  decide (cp.cpuid = -2) && decide (cp.flagCache = .willWrite) && decide (1 < cp.shareRef)

def HashinfoItem.unmark (cp : HashinfoItem) : HashinfoItem := { cp with cpuid := -1 }

def HashinfoItem.placeable (cp : HashinfoItem) : Bool :=
  cp.diskRange && decide (cp.cpuid = -2) && decide (cp.flagCache = .willWrite) &&
    decide (cp.shareRef = 1)

def HashinfoItem.place (cp : HashinfoItem) (cpu start : Nat) : HashinfoItem :=
  { cp with start := start, cpuid := cpu }

def HashinfoItem.committable (cp : HashinfoItem) : Bool :=
  decide (cp.flagCache = .willWrite) && decide (cp.shareRef = 1) && decide (0 ≤ cp.cpuid)

def HashinfoItem.expired (cp : HashinfoItem) : Bool :=
  decide (cp.shareRef = 1) && decide (cp.refcnt ≤ 1)

def HashinfoItem.holdsBuffer (cp : HashinfoItem) : Bool :=
  decide (cp.flagCache = .memory) || decide (cp.flagCache = .willWrite) ||
    decide (cp.flagCache = .always) || decide (cp.flagCache = .readBack)

def HashinfoItem.holdsSlot (cp : HashinfoItem) : Bool :=
  decide (cp.flagCache = .disk) || (decide (cp.flagCache = .willWrite) && decide (0 ≤ cp.cpuid)) ||
    decide (cp.flagCache = .readBack)

/-- The three tests of the status machine in `bucket_clear_item`, in their order, on an
item whose `refcnt` has just been decremented. -/
def HashinfoItem.nextFlag (cp : HashinfoItem) : FlagCache :=
  let f := if itemVipLimit ≤ cp.refcnt ∧ cp.flagCache = .memory then .always else cp.flagCache
  let f := if cp.refcnt < itemVipLimit ∧ itemDiskLimit ≤ cp.refcnt ∧ f = .memory
    then .willWrite else f
  if itemVipLimit ≤ cp.refcnt ∧ f = .willWrite ∧ cp.cpuid < 0 then .always else f

def HashinfoItem.age (cp : HashinfoItem) : HashinfoItem :=
  let cp := { cp with refcnt := wrapInt (cp.refcnt - 1) }
  { cp with
    flagCache := cp.nextFlag
    storeFlag := if itemDiskLimit < cp.refcnt ∧ cp.storeFlag = .initial then .should
      else cp.storeFlag }

end Wspack.KernelHash
