import Wspack.KernelHash.Jenkins
import Wspack.Lib.Cells

/-! The chunk table of `cache_verify/hash_table.c`: the items, their buffers, and the three
operations on the buckets.  Each operation runs under the lock of its bucket and is one step. -/

namespace Wspack.CacheVerify

open KernelHash (Digest MemStyle memStyleOf chunkStep shaLen wrapInt bkt hashTabSize)

def itemCiteAdd : Int := 6
def itemCiteFind : Int := 6
def itemDiskLimit : Int := 1000

def hashMaxCount : Nat := 2 * 1024 * 1024 * 1024 / 88

/-- What `build_hash` hands on: more than `SHALEN + 2` bytes of the payload of one packet. -/
structure Chunk where
  bytes : List UInt8
  long : shaLen + 2 < bytes.length
  fits : bytes.length < 2 ^ 16
  deriving DecidableEq

structure HashinfoItem where
  sha1 : Digest
  refcnt : Int
  dataRefcnt : Int
  cpuid : Int
  data : Chunk
  buffer : Nat
  memStyle : MemStyle
  deriving DecidableEq

def HashinfoItem.len (cp : HashinfoItem) : Nat := cp.data.bytes.length

structure Table where
  hashTab : Nat → List HashinfoItem
  hashCount : Int
  next : Nat
  freed : List Nat
  mm : MemStyle → Int
  pending : Nat → Bool
  loffFile : Nat → Nat
  mmw : Int

def Table.init : Table where
  hashTab _ := []
  hashCount := 0
  next := 0
  freed := []
  mm _ := 0
  pending _ := false
  loffFile _ := 0
  mmw := 0

inductive Fault
  | allocDataMemory
  | copyMem
  | overflow
  | kernelWrite
  deriving DecidableEq, Repr

/-- What `alloc_data_memory` adds to the counter of the allocator, and `free_data_memory`
takes off again. -/
def memSize (cp : HashinfoItem) : Nat :=
  match cp.memStyle with
  | .kmalloc => cp.len
  | .slab1 => chunkStep
  | .slab2 => chunkStep * 2
  | .slab3 => chunkStep * 3

def Table.addMm (t : Table) (k : MemStyle) (n : Int) : Table :=
  { t with mm := Function.update t.mm k (t.mm k + n) }

def Table.newItem (t : Table) (info : Digest) (value : Chunk) : HashinfoItem where
  sha1 := info
  refcnt := wrapInt (itemCiteAdd + 1)
  dataRefcnt := 1
  cpuid := -1
  data := value
  buffer := t.next
  memStyle := memStyleOf value.bytes.length

def Table.insert (t : Table) (cp : HashinfoItem) : Table :=
  { t.addMm cp.memStyle (memSize cp) with
    next := t.next + 1
    hashCount := wrapInt (t.hashCount + 1)
    hashTab := Function.update t.hashTab (bkt cp.sha1) (cp :: t.hashTab (bkt cp.sha1)) }

/-- `hash_new_item`, where `item` and `data` say whether the two allocations succeed. -/
def Table.hashNewItem (t : Table) (info : Digest) (value : Chunk) (item data : Bool) :
    Except Fault Table :=
  if (hashMaxCount : Int) < t.hashCount % 2 ^ 64 then .ok t
  else if item = false then .ok t
  else if data = false then .error .allocDataMemory
  else .ok (t.insert (t.newItem info value))

def HashinfoItem.hit (cp : HashinfoItem) : HashinfoItem :=
  { cp with
    refcnt := wrapInt (cp.refcnt + itemCiteFind)
    dataRefcnt := wrapInt (cp.dataRefcnt + 1) }

def hitFirst (info : Digest) : List HashinfoItem → List HashinfoItem
  | [] => []
  | cp :: l => if cp.sha1 = info then cp.hit :: l else cp :: hitFirst info l

def Table.found (t : Table) (info : Digest) : Option HashinfoItem :=
  (t.hashTab (bkt info)).find? (·.sha1 = info)

def Table.getHashItem (t : Table) (info : Digest) : Table :=
  { t with
    hashTab := Function.update t.hashTab (bkt info) (hitFirst info (t.hashTab (bkt info))) }

/-- What one sweep does to an item: `none` when `atomic_dec_and_test` finds zero. -/
def HashinfoItem.clear (cp : HashinfoItem) : Option HashinfoItem :=
  let r := wrapInt (cp.refcnt - 1)
  if r = 0 then none else some { cp with refcnt := wrapInt (r - 1) }

def Table.delete (t : Table) (cp : HashinfoItem) : Table :=
  { t.addMm cp.memStyle (-memSize cp) with
    hashCount := wrapInt (t.hashCount - 1)
    freed := cp.buffer :: t.freed }

def Table.clearList (t : Table) : List HashinfoItem → Table × List HashinfoItem × Bool
  | [] => (t, [], false)
  | cp :: l =>
    match cp.clear with
    | none => (t.delete cp).clearList l
    | some cp =>
      let (t, kept, flag) := t.clearList l
      (t, cp :: kept, decide (itemDiskLimit ≤ cp.dataRefcnt) || flag)

def Table.bucketClearItem (t : Table) (data : Nat) : Table :=
  let (t, kept, flag) := t.clearList (t.hashTab data)
  { t with
    hashTab := Function.update t.hashTab data kept
    pending := if flag then Function.update t.pending data true else t.pending }

end Wspack.CacheVerify
