import Wspack.KernelHash.Jenkins
import Wspack.KernelHash.Bitmap
import Mathlib.Data.Finset.Insert
import Mathlib.Data.Finset.Sum

/-! The chunk cache of `kernel_hash` as a transition system.  A step is one section that
the code runs under a bucket lock, or one item of a loop of `wr_file` or `read_data`; the
steps of all CPUs interleave as the reader-writer locks allow.  Allocations other than
that of the item itself succeed, and `kernel_write` and `kernel_read` move every byte. -/

namespace Wspack.KernelHash

structure Config where
  ncpu : Nat
  hashMaxCount : Int

/-- Where a CPU stands in `hand_hash`: before `get_hash_item`, after a miss, or holding
the item it found. -/
inductive Hand
  | idle
  | missed (dst : Digest) (src : List UInt8)
  | found (item hold len : Nat)
  deriving DecidableEq

/-- A node of `all_list + cpu`; `hold` is ghost. -/
structure ReadSkb where
  item : Nat
  cpu : Nat
  hold : Nat
  deriving DecidableEq

inductive Phase
  | mark
  | place
  | write
  | written
  | commit
  deriving DecidableEq, Repr

def Phase.locked : Phase → Bool
  | .mark | .place | .commit => true
  | .write | .written => false

/-- The locals of a running `wr_file`.  The items pass 1 counted and those pass 2 placed
are ghost. -/
structure WrFile where
  index : Nat
  phase : Phase
  todo : List Nat
  allSize : Nat
  memIndex : Nat
  stAllSize : Nat
  copyMem : Nat → UInt8
  counted : Finset Nat
  placed : Finset Nat

structure Stats where
  sumNum : Int
  saveNum : Int
  devote : FlagCache → Int
  mmw : Int
  mmd : Int
  mmm : Int
  mmf : Int
  rdl : Int
  rdf : Int

structure State where
  items : Nat → Option HashinfoItem
  nextItem : Nat
  hashTab : Nat → List Nat
  hashCount : Int
  heap : Heap
  bitmap : Nat → Bitmap
  bitmapIndex : Nat → Nat
  file : Nat → Nat → UInt8
  loffFile : Nat → Nat
  hand : Nat → Hand
  readList : List ReadSkb
  workPending : Nat → Bool
  wr : Nat → Option WrFile
  /-- Ghost: `get_hash_item` results so far, and those released, in order. -/
  nextHold : Nat
  released : List Nat
  stats : Stats

inductive Halt
  | blocked
  | fault (f : Fault)
  deriving DecidableEq, Repr

inductive Act
  | getHashItem (cpu : Nat) (src : List UInt8) (dst : Digest)
  | addHashInfo (cpu : Nat) (zalloc : Bool)
  | releaseItem (cpu : Nat)
  | readData (i : Nat)
  | bucketClearItem (b : Nat)
  | wrStart (cpu b : Nat)
  | wrStep (cpu : Nat)

def blit (f : Nat → UInt8) (off n : Nat) (g : Nat → UInt8) : Nat → UInt8 :=
  fun i => if off ≤ i ∧ i < off + n then g (i - off) else f i

def kernelRead (f : Nat → UInt8) (pos len : Nat) : List UInt8 :=
  (List.range len).map (fun j => f (pos + j))

/-- `key & CT_LOCKARRAY_MASK`: buckets share their locks in stripes. -/
def lockStripe (key : Nat) : Nat := key &&& 1023

def WrFile.holdsLock (w : WrFile) (b : Nat) : Bool :=
  w.phase.locked && lockStripe w.index == lockStripe b

def writeLockFree (cfg : Config) (s : State) (b : Nat) : Bool :=
  (List.range cfg.ncpu).all (fun c => (s.wr c).all (fun w => !w.holdsLock b))

def lookup (s : State) (info : Digest) : Option (Nat × HashinfoItem) :=
  (s.hashTab (bkt info)).findSome? (fun id =>
    (s.items id).bind (fun cp => if cp.sha1 = info then some (id, cp) else none))

def getHashItem (s : State) (info : Digest) : Option (Nat × State) :=
  (lookup s info).map (fun (id, cp) => (id,
    { s with
      items := Function.update s.items id (some cp.hit)
      nextHold := s.nextHold + 1
      stats := { s.stats with
        devote := Function.update s.stats.devote cp.flagCache
          (s.stats.devote cp.flagCache + cp.len) } }))

/-- `hash_new_item`, or `none` where it returns NULL: the table is over its limit, or
`kmem_cache_zalloc` failed. -/
def hashNewItem (cfg : Config) (s : State) (info : Digest) (value : List UInt8) (zalloc : Bool) :
    Option State :=
  if s.hashCount > cfg.hashMaxCount then none
  else if !zalloc then none
  else
    let (heap, cp) := newItem s.heap info value
    some { s with
      items := Function.update s.items s.nextItem (some cp)
      nextItem := s.nextItem + 1
      hashTab := Function.update s.hashTab (bkt info) (s.nextItem :: s.hashTab (bkt info))
      hashCount := s.hashCount + 1
      heap := heap }

def handGet (s : State) (c : Nat) (src : List UInt8) (dst : Digest) : State :=
  match getHashItem s dst with
  | none => { s with hand := Function.update s.hand c (.missed dst src) }
  | some (id, t) => { t with hand := Function.update s.hand c (.found id s.nextHold src.length) }

def handAdd (cfg : Config) (s : State) (c : Nat) (dst : Digest) (src : List UInt8) (zalloc : Bool) :
    Except Halt State :=
  let finish := fun t : State =>
    { t with
      hand := Function.update s.hand c .idle
      stats := { t.stats with sumNum := t.stats.sumNum + src.length } }
  match hashNewItem cfg s dst src zalloc with
  | none => .ok (finish s)
  | some t => if writeLockFree cfg s (bkt dst) then .ok (finish t) else .error .blocked

def handFound (cfg : Config) (s : State) (c id hold len : Nat) : Except Halt State :=
  match s.items id with
  | none => .error (.fault .useAfterFree)
  | some cp =>
    let t := { s with
      hand := Function.update s.hand c .idle
      stats := { s.stats with
        sumNum := s.stats.sumNum + len
        saveNum := s.stats.saveNum + (len - (shaLen + 2)) } }
    if cp.flagCache ≠ .readBack then
      .ok { t with
        items := Function.update s.items id (some cp.release)
        released := hold :: s.released }
    else if (cfg.ncpu : Int) ≤ cp.cpuid then .error (.fault .cpuOffline)
    else .ok { t with readList := ⟨id, cp.cpuid.toNat, hold⟩ :: s.readList }

/-- The read of one queued item.  The temporary buffer is the stack's or `kzalloc`ed,
depending on `len`; the bytes copied are the same. -/
def readItem (s : State) (cpu : Nat) (cp : HashinfoItem) : Heap × HashinfoItem :=
  if cp.flagMem then (s.heap, cp)
  else
    let (heap, cp) := allocDataMemory s.heap cp
    (memcpyData heap cp (kernelRead (s.file cpu) (cp.start * chunkStep) cp.len),
      { cp with flagMem := true })

def readData (s : State) (i : Nat) : Except Halt State :=
  match s.readList[i]? with
  | none => .error .blocked
  | some r => match s.items r.item with
    | none => .error (.fault .useAfterFree)
    | some cp => .ok { s with
      items := Function.update s.items r.item (some (readItem s r.cpu cp).2.release)
      heap := (readItem s r.cpu cp).1
      readList := s.readList.eraseIdx i
      released := r.hold :: s.released
      stats := if cp.flagMem then s.stats
        else { s.stats with rdl := s.stats.rdl + cp.len, rdf := s.stats.rdf + 1 } }

def freeBuffer (h : Heap) (cp : HashinfoItem) : Except Fault (Heap × HashinfoItem) :=
  if cp.holdsBuffer then freeDataMemory h cp else .ok (h, cp)

def deleteItem (s : State) (b id : Nat) (cp : HashinfoItem) : Except Halt State :=
  match freeBuffer s.heap cp with
  | .error f => .error (.fault f)
  | .ok (heap, _) => .ok { s with
      items := Function.update s.items id none
      hashTab := Function.update s.hashTab b ((s.hashTab b).erase id)
      hashCount := s.hashCount - 1
      heap := heap
      bitmap := if cp.holdsSlot then
          Function.update s.bitmap cp.cpuid.toNat
            (clearBits (s.bitmap cp.cpuid.toNat) cp.start (slotCount cp.len))
        else s.bitmap
      stats := { s.stats with
        mmf := if cp.holdsBuffer then s.stats.mmf + cp.len else s.stats.mmf
        mmd := if cp.storeFlag = .should then s.stats.mmd + cp.len else s.stats.mmd } }

def clearItem (b : Nat) (s : State) (flag : Bool) (id : Nat) : Except Halt (State × Bool) :=
  match s.items id with
  | none => .error (.fault .useAfterFree)
  | some cp =>
    if cp.expired then
      match deleteItem s b id cp with
      | .error e => .error e
      | .ok t => .ok (t, flag)
    else .ok
      ({ s with
          items := Function.update s.items id (some cp.age)
          stats := if cp.age.flagCache = .always ∧ cp.flagCache ≠ .always then
            { s.stats with mmm := s.stats.mmm + cp.len } else s.stats },
        flag || cp.age.diskRange)

def clearLoop (b : Nat) : List Nat → State → Bool → Except Halt (State × Bool)
  | [], s, flag => .ok (s, flag)
  | id :: ids, s, flag => match clearItem b s flag id with
    | .error e => .error e
    | .ok (t, flag) => clearLoop b ids t flag

def bucketClearItem (s : State) (b : Nat) : Except Halt State :=
  match clearLoop b (s.hashTab b) s false with
  | .error e => .error e
  | .ok (t, flag) => .ok
    { t with workPending := if flag then Function.update t.workPending b true else t.workPending }

def wrStart (s : State) (c b : Nat) : State :=
  { s with
    workPending := Function.update s.workPending b false
    wr := Function.update s.wr c (some
      { index := b, phase := .mark, todo := s.hashTab b, allSize := 0, memIndex := 0,
        stAllSize := 0, copyMem := fun _ => 0, counted := ∅, placed := ∅ }) }

def State.setWr (s : State) (c : Nat) (w : Option WrFile) : State :=
  { s with wr := Function.update s.wr c w }

def markItem (s : State) (c : Nat) (w : WrFile) (id : Nat) (cp : HashinfoItem) (rest : List Nat) :
    State :=
  if cp.markable then
    { s with
      items := Function.update s.items id (some cp.mark)
      wr := Function.update s.wr c (some { w with
        todo := rest
        allSize := w.allSize + slotCount cp.len * chunkStep
        counted := insert id w.counted }) }
  else s.setWr c (some { w with todo := rest })

def placeAt (s : State) (c : Nat) (w : WrFile) (id : Nat) (cp : HashinfoItem) (rest : List Nat)
    (findIndex : Nat) : State :=
  { s with
    items := Function.update s.items id (some (cp.place c findIndex))
    bitmap := Function.update s.bitmap c (setBits (s.bitmap c) findIndex (slotCount cp.len))
    bitmapIndex := Function.update s.bitmapIndex c (s.bitmapIndex c + slotCount cp.len)
    wr := Function.update s.wr c (some { w with
      todo := rest
      memIndex := w.memIndex + slotCount cp.len * chunkStep
      stAllSize := w.stAllSize + cp.len
      copyMem := blit w.copyMem w.memIndex cp.len (fun j => (s.heap.bytes cp.data).getD j 0)
      placed := insert id w.placed }) }

def placeItem (s : State) (c : Nat) (w : WrFile) (id : Nat) (cp : HashinfoItem) (rest : List Nat) :
    Except Halt State :=
  if cp.unmarkable then .ok
    { s with
      items := Function.update s.items id (some cp.unmark)
      wr := Function.update s.wr c (some { w with todo := rest }) }
  else if cp.placeable then
    let findIndex :=
      bitmapFindNextZeroArea (s.bitmap c) bitmapSize (s.bitmapIndex c) (slotCount cp.len) 0
    if bitmapSize < findIndex then .error (.fault .bitmapFull)
    else .ok (placeAt s c w id cp rest findIndex)
  else .ok (s.setWr c (some { w with todo := rest }))

def writeFile (s : State) (c : Nat) (w : WrFile) : State :=
  { s with
    file := Function.update s.file c (blit (s.file c) (s.loffFile c) w.allSize w.copyMem)
    loffFile := Function.update s.loffFile c (s.loffFile c + w.allSize)
    wr := Function.update s.wr c (some { w with phase := .written })
    stats := { s.stats with mmw := s.stats.mmw + w.stAllSize } }

def commitItem (s : State) (c : Nat) (w : WrFile) (id : Nat) (cp : HashinfoItem) (rest : List Nat) :
    Except Halt State :=
  if cp.committable then
    match freeDataMemory s.heap { cp with flagCache := .disk } with
    | .error f => .error (.fault f)
    | .ok (heap, cp) => .ok
      { s with
        items := Function.update s.items id (some cp)
        heap := heap
        wr := Function.update s.wr c (some { w with todo := rest }) }
  else .ok (s.setWr c (some { w with todo := rest }))

/-- The next step of the `wr_file` running on CPU `c`.  The passes walk the bucket as it
is when they take the lock, which keeps it from changing under them. -/
def wrStep (s : State) (c : Nat) : Except Halt State :=
  match s.wr c with
  | none => .error .blocked
  | some w => match w.phase, w.todo with
    | .mark, [] =>
      if w.allSize = 0 then .ok (s.setWr c none)
      else .ok (s.setWr c (some { w with phase := .place, todo := s.hashTab w.index }))
    | .place, [] => .ok (s.setWr c (some { w with phase := .write }))
    | .write, _ => .ok (writeFile s c w)
    | .written, _ => .ok (s.setWr c (some { w with phase := .commit, todo := s.hashTab w.index }))
    | .commit, [] => .ok (s.setWr c none)
    | .mark, id :: rest => match s.items id with
      | none => .error (.fault .useAfterFree)
      | some cp => .ok (markItem s c w id cp rest)
    | .place, id :: rest => match s.items id with
      | none => .error (.fault .useAfterFree)
      | some cp => placeItem s c w id cp rest
    | .commit, id :: rest => match s.items id with
      | none => .error (.fault .useAfterFree)
      | some cp => commitItem s c w id cp rest

def step (cfg : Config) (s : State) : Act → Except Halt State
  | .getHashItem c src dst =>
    if c < cfg.ncpu ∧ s.hand c = .idle then .ok (handGet s c src dst) else .error .blocked
  | .addHashInfo c zalloc => match s.hand c with
    | .missed dst src => handAdd cfg s c dst src zalloc
    | _ => .error .blocked
  | .releaseItem c => match s.hand c with
    | .found id hold len => handFound cfg s c id hold len
    | _ => .error .blocked
  | .readData i => readData s i
  | .bucketClearItem b =>
    if writeLockFree cfg s b then bucketClearItem s b else .error .blocked
  | .wrStart c b =>
    if c < cfg.ncpu ∧ (s.wr c).isNone ∧ s.workPending b then .ok (wrStart s c b)
    else .error .blocked
  | .wrStep c => wrStep s c

def init (file : Nat → Nat → UInt8) : State :=
  { items := fun _ => none
    nextItem := 0
    hashTab := fun _ => []
    hashCount := 0
    heap := { next := 0, bytes := fun _ => [], freed := [], mm := fun _ => 0 }
    bitmap := fun _ _ => false
    bitmapIndex := fun _ => 0
    file := file
    loffFile := fun _ => 0
    hand := fun _ => .idle
    readList := []
    workPending := fun _ => false
    wr := fun _ => none
    nextHold := 0
    released := []
    stats :=
      { sumNum := 0, saveNum := 0, devote := fun _ => 0, mmw := 0, mmd := 0, mmm := 0, mmf := 0,
        rdl := 0, rdf := 0 } }

def twoCpus : Config := { ncpu := 2, hashMaxCount := 1000 }

def chunkA : List UInt8 := List.replicate 16 1 ++ List.replicate 16 4
def digestA : Digest :=
  #v[114, 230, 197, 82, 70, 80, 124, 213, 144, 224, 203, 111, 140, 193, 189, 52, 182, 59, 0, 37]

def chunkB : List UInt8 := List.replicate 16 7 ++ List.replicate 16 252
def digestB : Digest :=
  #v[49, 55, 13, 182, 172, 123, 133, 145, 8, 108, 208, 226, 52, 150, 50, 148, 8, 50, 40, 121]

def insertOn (c : Nat) (src : List UInt8) (dst : Digest) : List Act :=
  [.getHashItem c src dst, .addHashInfo c true]

def hitOn (c : Nat) (src : List UInt8) (dst : Digest) : List Act :=
  [.getHashItem c src dst, .releaseItem c]

def roundTrip : List Act :=
  insertOn 1 chunkA digestA ++ hitOn 1 chunkA digestA ++
    [.bucketClearItem (bkt digestA), .wrStart 0 (bkt digestA)] ++
    List.replicate 8 (.wrStep 0) ++ hitOn 1 chunkA digestA

end Wspack.KernelHash
