import Wspack.Lib.Ledger
import Wspack.KernelHash.Jenkins

namespace Wspack.KernelHash.Init

open Function (update)
open Lib

inductive Slab
  | shaData
  | chunk1
  | chunk2
  | chunk3
  | reskb
  | listhead
  | readskb
  | tasklet
  deriving DecidableEq

inductive Counter
  | mmw
  | mmm
  | mmf
  | mmd
  deriving DecidableEq

inductive Resource
  | skbWq
  | file (cpu : Nat)
  | slab (cache : Slab)
  | bitmap (cpu : Nat)
  | writereadWq
  | hashTab
  | bucketClear
  | hashCachep
  | printMemory
  | bucketTimer (idx : Nat)
  | counter (c : Counter)
  | nfOut
  | nfIn
  | pool
  | poolEntry (cpu : Nat)
  | poolHash (cpu : Nat)
  | jprobe
  deriving DecidableEq

/-- What a pointer variable holds; `stale` is the address of something released. -/
inductive Ptr
  | null
  | err
  | live
  | stale
  deriving DecidableEq

/-- The machine `minit` runs on: its CPUs and which of the calls that acquire something
succeed, with the error of those whose error `minit` passes on. -/
structure Kernel where
  online : List Nat
  possible : List Nat
  succeeds : Resource → Bool
  errno : Resource → Int
  nodup_online : online.Nodup
  nodup_possible : possible.Nodup
  errno_neg : ∀ r, errno r < 0

abbrev Pool := Nat → Option Bool

structure Loaded where
  log : List (Event Resource)
  ptr : Resource → Ptr
  heads : Bool
  users : UInt64
  pool : Option Pool
  kprobeInReged : Bool

/-- The module's own code follows a pointer it must not follow, or never stops. -/
inductive Oops
  | hashFlush
  | retry
  deriving DecidableEq

abbrev Boot := StateT Loaded (Except Oops)

def loaded : Loaded :=
  { log := [], ptr := fun _ => .null, heads := false, users := 0, pool := none, kprobeInReged := false }

def Loaded.take (r : Resource) (s : Loaded) : Loaded :=
  { s with log := s.log ++ [.acquire r], ptr := update s.ptr r .live }

def Loaded.give (r : Resource) (s : Loaded) : Loaded :=
  { s with
    log := s.log ++ [.release r]
    ptr := if s.ptr r = .live then update s.ptr r .stale else s.ptr }

def acquire (k : Kernel) (p : Ptr) (r : Resource) : Boot Bool := do
  if k.succeeds r then
    modify (Loaded.take r)
    return true
  modify (fun s => { s with ptr := update s.ptr r p })
  return false

def arm (r : Resource) : Boot Unit := modify (Loaded.take r)

def release (r : Resource) : Boot Unit := modify (Loaded.give r)

def enomem : Int := -12
def enodev : Int := -19

def allocEach (k : Kernel) (p : Ptr) (err : Int) : List Resource → Boot Int
  | [] => return 0
  | r :: rs => do
    if !(← acquire k p r) then return err
    allocEach k p err rs

def freeEach (test : Ptr → Bool) : List Resource → Boot Unit
  | [] => return ()
  | r :: rs => do
    if test ((← get).ptr r) then release r
    freeEach test rs

def initSomeParameters (k : Kernel) : Boot Int := do
  if !(← acquire k .null .skbWq) then return -1
  return 0

def allocPercpuFile (k : Kernel) : Boot Int := allocEach k .err enodev (k.online.map .file)
def freePercpuFile (k : Kernel) : Boot Unit := freeEach (fun p => p ≠ .err) (k.online.map .file)

def slabs : List Resource :=
  [.slab .shaData, .slab .chunk1, .slab .chunk2, .slab .chunk3, .slab .reskb, .slab .listhead,
    .slab .readskb, .slab .tasklet]

def allocSlab (k : Kernel) : Boot Int := allocEach k .null enomem slabs
def freeSlab : Boot Unit := freeEach (fun p => p ≠ .null) slabs

def allocBitmap (k : Kernel) : Boot Int := allocEach k .null enomem (k.online.map .bitmap)
def freeBitmap (k : Kernel) : Boot Unit := freeEach (fun p => p ≠ .null) (k.online.map .bitmap)

def bucketTimers : List Resource := (List.range hashTabSize.toNat).map .bucketTimer
def counters : List Resource := [.counter .mmw, .counter .mmm, .counter .mmf, .counter .mmd]

def percpuCounterInit (k : Kernel) (r : Resource) : Boot Unit := do
  let _ ← acquire k .null r
  return ()

def initialHashTableCache (k : Kernel) : Boot Int := do
  if !(← acquire k .null .writereadWq) then return -1
  if !(← acquire k .null .hashTab) then return enomem
  if !(← acquire k .null .bucketClear) then return enomem
  if !(← acquire k .null .hashCachep) then
    release .hashTab
    return enomem
  modify (fun s => { s with heads := true })
  arm .printMemory
  bucketTimers.forM arm
  counters.forM (percpuCounterInit k)
  return 0

/-- The walk along the heads of the empty buckets. -/
def hashFlush : Boot Unit := do
  let s ← get
  if s.ptr .hashTab = .live ∧ s.heads then return ()
  throw .hashFlush

/-- `percpu_counter_destroy` itself passes over a counter without storage. -/
def releaseHashTableCache : Boot Unit := do
  hashFlush
  release .printMemory
  freeEach (fun p => p ≠ .null) counters
  bucketTimers.forM release
  release .writereadWq
  release .hashCachep
  release .hashTab

def nfRegisterHook (k : Kernel) (r : Resource) : Boot Int := do
  if !(← acquire k .null r) then return k.errno r
  return 0

def nfUnregisterHook (r : Resource) : Boot Unit := release r

def freePool (k : Kernel) (pool : Pool) : Boot Unit := do
  k.possible.forM (fun cpu => match pool cpu with
    | none => return ()
    | some tfm => do
      if tfm then release (.poolHash cpu)
      release (.poolEntry cpu))
  release .pool

def fillPool (k : Kernel) : List Nat → Pool → Boot (Option Pool)
  | [], pool => return some pool
  | cpu :: cpus, pool => do
    if !(← acquire k .null (.poolEntry cpu)) then
      freePool k pool
      return none
    if !(← acquire k .null (.poolHash cpu)) then
      freePool k (update pool cpu (some false))
      return none
    fillPool k cpus (update pool cpu (some true))

def allocPool (k : Kernel) : Boot (Option Pool) := do
  if !(← acquire k .null .pool) then return none
  fillPool k k.possible (fun _ => none)

def tcpAllocSha1sigPool (k : Kernel) : Boot (Option Pool) := do
  let s ← get
  if s.users = 0 then
    set { s with users := s.users + 1 }
    match ← allocPool k with
    | none =>
      modify (fun s => { s with users := s.users - 1 })
      return none
    | some p => match (← get).pool with
      | some pool =>
        freePool k p
        return some pool
      | none =>
        modify (fun s => { s with pool := some p })
        return some p
  else match s.pool with
    | none => throw .retry
    | some pool =>
      set { s with users := s.users + 1 }
      return some pool

def tcpFreeSha1sigPool (k : Kernel) : Boot Unit := do
  let s ← get
  if s.users - 1 = 0 then
    set { s with users := 0, pool := none }
    match s.pool with
    | none => return ()
    | some pool => freePool k pool
  else set { s with users := s.users - 1 }

def registerJprobe (k : Kernel) : Boot Int := do
  if !(← acquire k .null .jprobe) then return k.errno .jprobe
  return 0

def errAllocFile (k : Kernel) : Boot Unit := freePercpuFile k

def errAllocSlab (k : Kernel) : Boot Unit := do
  freeSlab
  errAllocFile k

def errBitmap (k : Kernel) : Boot Unit := do
  freeBitmap k
  errAllocSlab k

def errHashTableCache (k : Kernel) : Boot Unit := do
  releaseHashTableCache
  errBitmap k

def errNfRegOut (k : Kernel) : Boot Unit := do
  nfUnregisterHook .nfOut
  errHashTableCache k

def errNfRegIn (k : Kernel) : Boot Unit := do
  nfUnregisterHook .nfIn
  errNfRegOut k

def errSha1siqPool (k : Kernel) : Boot Unit := do
  tcpFreeSha1sigPool k
  errNfRegIn k

def minit (k : Kernel) : Boot Int := do
  let err ← initSomeParameters k
  if err < 0 then return err
  let err ← allocPercpuFile k
  if err < 0 then
    errAllocFile k
    return err
  let err ← allocSlab k
  if err < 0 then
    errAllocSlab k
    return err
  let err ← allocBitmap k
  if err < 0 then
    errBitmap k
    return err
  let err ← initialHashTableCache k
  if err < 0 then
    errHashTableCache k
    return err
  let err ← nfRegisterHook k .nfOut
  if err < 0 then
    errNfRegOut k
    return err
  let err ← nfRegisterHook k .nfIn
  if err < 0 then
    errNfRegIn k
    return err
  match ← tcpAllocSha1sigPool k with
  | none =>
    -- `err` is still what the last registration returned.
    errSha1siqPool k
    return err
  | some _ =>
    let err ← registerJprobe k
    if err < 0 then return err
    modify (fun s => { s with kprobeInReged := true })
    return err

end Wspack.KernelHash.Init
