import Wspack.KernelHash.Item
import Wspack.Lib.Run
import Wspack.Pack.FiniteMap

/-! The hash map with `int` members and with arrays of the size that was allocated: an access outside an
array or through a NULL pointer is a fault.  As long as its buckets have room to grow it does what the map
with unbounded numbers does. -/

namespace Wspack.Pack.Sized

open Function (update)
open Lib
open KernelHash (wrapInt wrapInt_of_lt)

inductive Fault
  | nullDereference
  | outOfBounds
  deriving DecidableEq

/-- `contents` points to `size` entries, and one from `stop`, the source's `end`, on is written before it is
read.  Both `stop` and `max` are of type `int`. -/
structure DArray (α : Type) where
  contents : Nat → Option α
  size : Nat
  stop : Int
  max : Int
  expandRate : Nat

theorem ok_bind {α β : Type} (a : α) (f : α → Except Fault β) : (Except.ok a >>= f) = f a := rfl

namespace DArray

variable {α β : Type}

def create (initialMax : Nat) : Option (DArray α) :=
  let max := wrapInt initialMax
  if 0 < max then
    some { contents := fun _ => none, size := initialMax, stop := 0, max, expandRate := defaultExpandRate }
  else none

def load (a : DArray α) (i : Int) : Except Fault (Option α) :=
  if 0 ≤ i ∧ i < a.size then .ok (a.contents i.toNat) else .error .outOfBounds

def store (a : DArray α) (i : Int) (el : Option α) : Except Fault (DArray α) :=
  if 0 ≤ i ∧ i < a.size then .ok { a with contents := update a.contents i.toNat el }
  else .error .outOfBounds

def get (a : DArray α) (i : Int) : Except Fault (Option α) :=
  if i < a.max then a.load i else .ok none

def set (a : DArray α) (i : Int) (el : Option α) : Except Fault (DArray α) :=
  if i < a.max then { a with stop := if a.stop < i then i else a.stop }.store i el else .ok a

/-- `newsize` is assigned to an `int` before it is checked. -/
def resize (a : DArray α) (newsize : Int) : DArray α × Int :=
  let a := { a with max := wrapInt newsize }
  if 0 < a.max then ({ a with size := a.max.toNat }, 0) else (a, -1)

def expand (a : DArray α) : DArray α × Int := a.resize (a.max + a.expandRate)

def push (a : DArray α) (el : α) : Except Fault (DArray α × Int) := do
  let a ← a.store a.stop (some el)
  let a := { a with stop := wrapInt (a.stop + 1) }
  return if a.max ≤ a.stop then a.expand else (a, 0)

def contract (a : DArray α) : DArray α × Int :=
  let newSize := if a.stop < a.expandRate then (a.expandRate : Int) else a.stop
  a.resize (newSize + 1)

def remove (a : DArray α) (i : Int) : Except Fault (DArray α × Option α) := do
  let el ← a.load i
  let a ← a.store i none
  return (a, el)

def pop (a : DArray α) : Except Fault (DArray α × Option α) :=
  if 0 ≤ a.stop - 1 then do
    let (a, el) ← a.remove (a.stop - 1)
    let a := { a with stop := a.stop - 1 }
    return (if (a.expandRate : Int) < a.stop ∧ a.stop % (a.expandRate : Int) ≠ 0 then a.contract.1 else a, el)
  else .ok (a, none)

def wide (f : α → β) (a : DArray α) : Pack.DArray β where
  contents := Option.map f ∘ a.contents
  stop := a.stop.toNat
  max := a.max.toNat
  expandRate := a.expandRate

structure Fits (a : DArray α) : Prop where
  stop : 0 ≤ a.stop
  room : a.stop < a.max
  size : a.max ≤ a.size
  int : a.max < 2 ^ 31
  rate : a.expandRate = defaultExpandRate

def HasRoom (a : DArray α) : Prop := a.stop + 1 < a.max ∨ a.max + defaultExpandRate < 2 ^ 31

instance (a : DArray α) : Decidable a.HasRoom := inferInstanceAs (Decidable (_ ∨ _))

variable {f : α → β} {a : DArray α} {el : α} {c : Nat → Option α} {size n m rate : Nat}

theorem Fits.exists_eq (h : a.Fits) : ∃ c size, ∃ n m : Nat, a = ⟨c, size, n, m, defaultExpandRate⟩ ∧
    n < m ∧ m ≤ size ∧ m < 2 ^ 31 := by
  obtain ⟨c, size, stop, max, rate⟩ := a
  obtain ⟨hstop, hroom, hsize, hint, rfl⟩ := h
  dsimp only at hstop hroom hsize hint
  refine ⟨c, size, stop.toNat, max.toNat, ?_, by omega, by omega, by omega⟩
  rw [Int.toNat_of_nonneg hstop, Int.toNat_of_nonneg (by omega)]

theorem fits_of_lt (hroom : n < m) (hsize : m ≤ size) (hint : m < 2 ^ 31) :
    (⟨c, size, n, m, defaultExpandRate⟩ : DArray α).Fits :=
  ⟨Int.natCast_nonneg n, Int.ofNat_lt.mpr hroom, Int.ofNat_le.mpr hsize, by dsimp only; omega, rfl⟩

theorem wide_get (h : a.max ≤ a.size) (i : Nat) :
    ∃ o, a.get i = .ok o ∧ (a.wide f).get i = o.map f ∧ (∀ el, o = some el → a.contents i = some el) := by
  by_cases hi : (i : Int) < a.max
  · have hlt : i < (a.wide f).max := by
      dsimp only [wide]
      omega
    refine ⟨a.contents i, ?_, if_pos hlt, fun _ h => h⟩
    rw [get, if_pos hi, load, if_pos (by omega), Int.toNat_natCast]
  · have hle : ¬i < (a.wide f).max := by
      dsimp only [wide]
      omega
    refine ⟨none, by rw [get, if_neg hi], ?_, fun _ h => nomatch h⟩
    rw [Pack.DArray.get, if_neg hle, Option.map_none]

theorem store_eq {o : Option α} (h : n < a.size) :
    a.store n o = .ok { a with contents := update a.contents n o } := by
  rw [store, if_pos (by omega), Int.toNat_natCast]

theorem resize_eq (hpos : 0 < n) (h : n < 2 ^ 31) : a.resize n = ({ a with max := n, size := n }, 0) := by
  simp [resize, wrapInt_of_lt h, hpos]

theorem push_eq (hsize : n < size) (hint : n + 1 < 2 ^ 31) (max : Int) :
    (⟨c, size, n, max, rate⟩ : DArray α).push el =
      let a : DArray α := ⟨update c n (some el), size, (n + 1 : Nat), max, rate⟩
      .ok (if max ≤ (n + 1 : Nat) then a.expand else (a, 0)) := by
  have hwrap := wrapInt_of_lt hint
  push_cast at hwrap
  simp only [push, store_eq (a := ⟨c, size, n, max, rate⟩) hsize, bind, Except.bind, pure, Except.pure, hwrap]
  push_cast
  rfl

theorem Fits.push (f : α → β) (el : α) (h : a.Fits) (hroom : a.HasRoom) : ∃ b, a.push el = .ok (b, 0) ∧ b.Fits ∧
    b.wide f = (a.wide f).push (f el) := by
  obtain ⟨c, size, n, m, rfl, hlt, hsize, hint⟩ := h.exists_eq
  rw [push_eq (by omega) (by omega)]
  by_cases hfull : m ≤ n + 1
  · have hgrow : m + defaultExpandRate < 2 ^ 31 := by
      rcases hroom with hroom | hroom <;> dsimp only at hroom <;> omega
    have hpos : 0 < m + defaultExpandRate := by omega
    refine ⟨⟨update c n (some el), m + defaultExpandRate, (n + 1 : Nat), (m + defaultExpandRate : Nat),
      defaultExpandRate⟩, ?_, fits_of_lt (by rw [defaultExpandRate]; omega) le_rfl hgrow, ?_⟩
    · dsimp only
      rw [if_pos (by omega), expand]
      exact congrArg Except.ok (resize_eq hpos hgrow)
    · have hnat : ((m : Int) + defaultExpandRate).toNat = m + defaultExpandRate := by omega
      simp [wide, Pack.DArray.push, Pack.DArray.expand, hfull, hnat, Function.comp_update]
  · refine ⟨⟨update c n (some el), size, (n + 1 : Nat), m, defaultExpandRate⟩, ?_,
      fits_of_lt (by omega) hsize hint, ?_⟩
    · dsimp only
      rw [if_neg (by omega)]
    · simp [wide, Pack.DArray.push, hfull, Function.comp_update]

theorem Fits.push_full (el : α) (h : a.Fits) (hroom : ¬a.HasRoom) :
    ∃ b, a.push el = .ok (b, -1) ∧ b.max < b.stop := by
  obtain ⟨c, size, n, m, rfl, hlt, hsize, hint⟩ := h.exists_eq
  obtain ⟨hfull, hgrow⟩ := not_or.mp hroom
  dsimp only at hfull hgrow
  have hrate : (defaultExpandRate : Int) = 300 := rfl
  have hneg : wrapInt (m + defaultExpandRate) = m + defaultExpandRate - 2 ^ 32 := by
    rw [wrapInt, Int.bmod_def]
    omega
  have hle : ¬0 < (m : Int) + defaultExpandRate - 2 ^ 32 := by omega
  refine ⟨⟨update c n (some el), size, (n + 1 : Nat), m + defaultExpandRate - 2 ^ 32, defaultExpandRate⟩, ?_, ?_⟩
  · rw [push_eq (by omega) (by omega)]
    dsimp only
    rw [if_pos (by omega), expand]
    simp only [resize, hneg, if_neg hle]
  · dsimp only
    omega

theorem contract_eq (hint : n + 1 < 2 ^ 31) :
    (⟨c, size, n, m, defaultExpandRate⟩ : DArray α).contract.1 =
      let k := (if n < defaultExpandRate then defaultExpandRate else n) + 1
      ⟨c, k, n, k, defaultExpandRate⟩ := by
  have hk : (if n < defaultExpandRate then defaultExpandRate else n) + 1 < 2 ^ 31 := by
    rw [defaultExpandRate]
    split <;> omega
  have hcast : (if (n : Int) < defaultExpandRate then (defaultExpandRate : Int) else n) + 1 =
      ((if n < defaultExpandRate then defaultExpandRate else n) + 1 : Nat) := by
    push_cast
    simp only [Int.ofNat_lt]
  rw [contract]
  dsimp only
  rw [hcast, resize_eq (Nat.succ_pos _) hk]

theorem pop_eq (hsize : n < size) :
    (⟨c, size, (n + 1 : Nat), m, rate⟩ : DArray α).pop =
      let a : DArray α := ⟨update c n none, size, n, m, rate⟩
      .ok (if rate < n ∧ n % rate ≠ 0 then a.contract.1 else a, c n) := by
  have hsub : ((n + 1 : Nat) : Int) - 1 = n := by omega
  have hiff : ((rate : Int) < n ∧ (n : Int) % rate ≠ 0) ↔ (rate < n ∧ n % rate ≠ 0) := by omega
  have hload : (⟨c, size, (n + 1 : Nat), m, rate⟩ : DArray α).load n = .ok (c n) := by
    rw [load, if_pos ⟨Int.natCast_nonneg n, Int.ofNat_lt.mpr hsize⟩, Int.toNat_natCast]
  simp only [pop, remove, hsub, hload, store_eq (a := ⟨c, size, (n + 1 : Nat), m, rate⟩) hsize, bind, Except.bind,
    pure, Except.pure, Int.natCast_nonneg, if_true, hiff]

theorem Fits.pop (f : α → β) (h : a.Fits) (hpos : 1 ≤ a.stop) : ∃ b o, a.pop = .ok (b, o) ∧ b.Fits ∧
    (a.wide f).pop = (b.wide f, o.map f) := by
  obtain ⟨c, size, n, m, rfl, hlt, hsize, hint⟩ := h.exists_eq
  obtain ⟨n, rfl⟩ := Nat.exists_eq_succ_of_ne_zero (show n ≠ 0 by dsimp only at hpos; omega)
  rw [pop_eq (by omega)]
  by_cases hc : defaultExpandRate < n ∧ n % defaultExpandRate ≠ 0
  · refine ⟨_, _, rfl, ?_, ?_⟩
    · rw [if_pos hc, contract_eq (by omega)]
      refine fits_of_lt ?_ le_rfl ?_ <;> rw [defaultExpandRate] <;> split <;> omega
    · rw [if_pos hc, contract_eq (by omega)]
      simp [wide, Pack.DArray.pop, Pack.DArray.remove, Pack.DArray.contract, hc, Function.comp_update,
        -Nat.cast_add, -Nat.cast_ite]
  · refine ⟨_, _, rfl, ?_, ?_⟩
    · rw [if_neg hc]
      exact fits_of_lt (by omega) hsize hint
    · rw [if_neg hc]
      simp [wide, Pack.DArray.pop, Pack.DArray.remove, hc, Function.comp_update]

theorem Fits.set (f : α → β) (el : α) (h : a.Fits) (i : Nat) : ∃ b, a.set i (some el) = .ok b ∧ b.Fits ∧
    b.wide f = (a.wide f).set i (f el) := by
  obtain ⟨c, size, n, m, rfl, hlt, hsize, hint⟩ := h.exists_eq
  by_cases hi : i < m
  · have hcast : (if (n : Int) < i then (i : Int) else n) = ((if n < i then i else n : Nat) : Int) := by
      push_cast
      simp only [Int.ofNat_lt]
    refine ⟨⟨update c i (some el), size, (if n < i then i else n : Nat), m, defaultExpandRate⟩, ?_,
      fits_of_lt (by split <;> omega) hsize hint, ?_⟩
    · rw [DArray.set, if_pos (Int.ofNat_lt.mpr hi)]
      dsimp only
      rw [hcast, store_eq (by dsimp only; omega)]
    · have hi' : i < (wide f (⟨c, size, n, m, defaultExpandRate⟩ : DArray α)).max := hi
      rw [Pack.DArray.set, if_pos hi']
      simp only [wide, Function.comp_update, Int.toNat_natCast]
      rfl
  · refine ⟨⟨c, size, n, m, defaultExpandRate⟩, ?_, fits_of_lt hlt hsize hint, ?_⟩
    · rw [DArray.set, if_neg (mt Int.ofNat_lt.mp hi)]
    · simp [wide, Pack.DArray.set, hi]

def fresh : DArray α := ⟨fun _ => none, defaultNumberOfBuckets, 0, defaultNumberOfBuckets, defaultExpandRate⟩

theorem create_fresh : (create defaultNumberOfBuckets : Option (DArray α)) = some fresh := by
  rw [create, wrapInt_of_lt (by decide)]
  rfl

theorem fresh_fits : (fresh : DArray α).Fits := fits_of_lt (n := 0) (by decide) le_rfl (by decide)

theorem fresh_wide : (fresh : DArray α).wide f = Pack.DArray.create defaultNumberOfBuckets := rfl

end DArray

structure Hashmap (κ δ : Type) where
  buckets : DArray (DArray (HashmapNode κ δ))
  compare : κ → κ → Int
  hash : κ → UInt32

namespace Hashmap

variable {κ δ : Type}

/-- `map->buckets->end` is written before the array is checked. -/
def create (bucketsLen : Int) (compare : κ → κ → Int) (hash : κ → UInt32) : Except Fault (Hashmap κ δ) :=
  let bucketsN := if 0 < bucketsLen then bucketsLen else defaultNumberOfBuckets
  (DArray.create bucketsN.toNat).elim (.error .nullDereference) fun buckets =>
    .ok { buckets := { buckets with stop := buckets.max }, compare, hash }

/-- The `uint32_t` is divided by `max` as an unsigned number, and the rest assigned to an `int`. -/
def bucketN (map : Hashmap κ δ) (key : κ) : Int :=
  wrapInt ((map.hash key).toNat % (map.buckets.max % 2 ^ 32))

def findBucket (map : Hashmap κ δ) (key : κ) (create : Bool) :
    Except Fault (Hashmap κ δ × Option (DArray (HashmapNode κ δ))) :=
  if map.bucketN key < 0 then .ok (map, none)
  else do
    match ← map.buckets.get (map.bucketN key) with
    | some bucket => return (map, some bucket)
    | none =>
      if create then
        match DArray.create defaultNumberOfBuckets with
        | none => return (map, none)
        | some bucket =>
          let buckets ← map.buckets.set (map.bucketN key) (some bucket)
          return ({ map with buckets }, some bucket)
      else return (map, none)

def setBucket (map : Hashmap κ δ) (n : Int) (bucket : DArray (HashmapNode κ δ)) : Hashmap κ δ :=
  { map with buckets :=
      { map.buckets with contents := update map.buckets.contents n.toNat (some bucket) } }

/-- What `DArray_push` returns is not looked at. -/
def set (map : Hashmap κ δ) (key : κ) (data : δ) : Except Fault (Hashmap κ δ × Int) := do
  match ← map.findBucket key true with
  | (map, none) => return (map, -1)
  | (map, some bucket) =>
    let (bucket, _) ← bucket.push { key, data, hash := map.hash key }
    return (map.setBucket (map.bucketN key) bucket, 0)

def getNode (map : Hashmap κ δ) (hash : UInt32) (bucket : DArray (HashmapNode κ δ)) (key : κ) :
    (n i : Nat) → Except Fault (Option Nat)
  | 0, _ => .ok none
  | n + 1, i => do
    let some node ← bucket.get i | throw .nullDereference
    if node.hash = hash ∧ map.compare node.key key = 0 then return some i
    else getNode map hash bucket key n (i + 1)

def get (map : Hashmap κ δ) (key : κ) : Except Fault (Option δ) := do
  match ← map.findBucket key false with
  | (_, none) => return none
  | (_, some bucket) =>
    match ← map.getNode (map.hash key) bucket key bucket.stop.toNat 0 with
    | none => return none
    | some i => return (← bucket.get i).map (·.data)

/-- The node at `i` and the one popped off the end are the same when `i` is the end. -/
def delete (map : Hashmap κ δ) (key : κ) : Except Fault (Hashmap κ δ × Option δ) := do
  match ← map.findBucket key false with
  | (_, none) => return (map, none)
  | (_, some bucket) =>
    match ← map.getNode (map.hash key) bucket key bucket.stop.toNat 0 with
    | none => return (map, none)
    | some i =>
      let some node ← bucket.get i | throw .nullDereference
      let (bucket, ending) ← bucket.pop
      let bucket ← if (i : Int) ≠ bucket.stop then bucket.set i ending else .ok bucket
      return (map.setBucket (map.bucketN key) bucket, some node.data)

section Traverse
variable {σ : Type} (traverseCb : σ → HashmapNode κ δ → σ × Int)

def traverseBucket (bucket : DArray (HashmapNode κ δ)) : (n j : Nat) → σ → Except Fault (σ × Int)
  | 0, _, s => .ok (s, 0)
  | n + 1, j, s => do
    let some node ← bucket.get j | throw .nullDereference
    let (s, rc) := traverseCb s node
    if rc ≠ 0 then return (s, rc) else traverseBucket bucket n (j + 1) s

def traverseLoop (map : Hashmap κ δ) : (n i : Nat) → σ → Except Fault (σ × Int)
  | 0, _, s => .ok (s, 0)
  | n + 1, i, s => do
    match ← map.buckets.get i with
    | none => traverseLoop map n (i + 1) s
    | some bucket =>
      let (s, rc) ← traverseBucket traverseCb bucket bucket.stop.toNat 0 s
      if rc ≠ 0 then return (s, rc) else traverseLoop map n (i + 1) s

def traverse (map : Hashmap κ δ) (s : σ) : Except Fault (σ × Int) :=
  traverseLoop traverseCb map map.buckets.stop.toNat 0 s

end Traverse

def wide (map : Hashmap κ δ) : Pack.Hashmap κ δ where
  buckets := map.buckets.wide (DArray.wide id)
  compare := map.compare
  hash := map.hash

structure Fits (map : Hashmap κ δ) : Prop where
  some_bucket : 0 < map.buckets.max
  full : map.buckets.stop = map.buckets.max
  size : map.buckets.max ≤ map.buckets.size
  int : map.buckets.max < 2 ^ 31
  buckets : ∀ n bucket, map.buckets.contents n = some bucket → bucket.Fits

def bucketFor (map : Hashmap κ δ) (key : κ) : DArray (HashmapNode κ δ) :=
  (map.buckets.contents (map.bucketN key).toNat).getD .fresh

variable {map : Hashmap κ δ} {key : κ} {data : δ}

theorem create_of_pos {bucketsLen : Int} (hlen : 0 < bucketsLen) (hpos : 0 < wrapInt bucketsLen)
    (compare : κ → κ → Int) (hash : κ → UInt32) :
    ∃ map : Hashmap κ δ, create bucketsLen compare hash = .ok map ∧ map.Fits ∧
      map.wide = Pack.Hashmap.create (wrapInt bucketsLen).toNat compare hash := by
  have hnat : ((bucketsLen.toNat : Nat) : Int) = bucketsLen := Int.toNat_of_nonneg hlen.le
  have hle : wrapInt bucketsLen ≤ bucketsLen ∧ wrapInt bucketsLen < 2 ^ 31 := by
    rw [wrapInt, Int.bmod_def]
    omega
  generalize hmax : wrapInt bucketsLen = max at hpos hle ⊢
  have hcreate : (DArray.create bucketsLen.toNat : Option (DArray (DArray (HashmapNode κ δ)))) =
      some ⟨fun _ => none, bucketsLen.toNat, 0, max, defaultExpandRate⟩ := by
    rw [DArray.create, hnat, hmax, if_pos hpos]
  refine ⟨⟨⟨fun _ => none, bucketsLen.toNat, max, max, defaultExpandRate⟩, compare, hash⟩, ?_, ?_, ?_⟩
  · rw [create, if_pos hlen, hcreate, Option.elim_some]
  · exact ⟨hpos, rfl, hle.1.trans hnat.ge, hle.2, fun _ _ h => nomatch h⟩
  · have hn : 0 < max.toNat := by omega
    rw [Pack.Hashmap.create, if_pos hn]
    rfl

theorem create_of_neg {bucketsLen : Int} (hlen : 0 < bucketsLen) (hneg : ¬0 < wrapInt bucketsLen)
    (compare : κ → κ → Int) (hash : κ → UInt32) :
    (create bucketsLen compare hash : Except Fault (Hashmap κ δ)) = .error .nullDereference := by
  have hcreate : (DArray.create bucketsLen.toNat : Option (DArray (DArray (HashmapNode κ δ)))) = none := by
    rw [DArray.create, Int.toNat_of_nonneg hlen.le, if_neg hneg]
  rw [create, if_pos hlen, hcreate, Option.elim_none]

theorem Fits.bucketN_eq (h : map.Fits) (key : κ) : map.bucketN key = (map.wide.bucketN key : Nat) := by
  obtain ⟨m, hm⟩ : ∃ m : Nat, map.buckets.max = m := ⟨map.buckets.max.toNat, by have := h.some_bucket; omega⟩
  have hpos : 0 < m := by have := h.some_bucket; omega
  have hint : m < 2 ^ 31 := by have := h.int; omega
  have hmod : (m : Int) % 2 ^ 32 = m := Int.emod_eq_of_lt (by omega) (by omega)
  have hlt : (map.hash key).toNat % m < 2 ^ 31 := (Nat.mod_lt _ hpos).trans hint
  have hcast : ((map.hash key).toNat : Int) % m = ((map.hash key).toNat % m : Nat) := by push_cast; rfl
  rw [bucketN, hm, hmod, hcast, wrapInt_of_lt hlt, Pack.Hashmap.bucketN]
  simp [wide, DArray.wide, hm]

theorem Fits.wide_ok (h : map.Fits) : map.wide.Ok where
  some_bucket := by
    have := h.some_bucket
    dsimp only [wide, DArray.wide]
    omega
  full := by
    dsimp only [wide, DArray.wide]
    rw [h.full]
  buckets n bucket hb := by
    rw [Pack.DArray.get] at hb
    split at hb
    · obtain ⟨b, hb', rfl⟩ := Option.map_eq_some_iff.mp hb
      have hfits := h.buckets n b hb'
      refine ⟨?_, ?_⟩
      · have := hfits.room
        have := hfits.stop
        dsimp only [DArray.wide]
        omega
      · dsimp only [DArray.wide]
        rw [hfits.rate]
        decide
    · cases hb

theorem Fits.bucketN_lt (h : map.Fits) (key : κ) : (map.wide.bucketN key : Int) < map.buckets.max := by
  have hlt := h.wide_ok.bucketN_lt key
  dsimp only [wide, DArray.wide] at hlt ⊢
  omega

theorem Fits.get_bucket (h : map.Fits) (key : κ) :
    map.buckets.get (map.bucketN key) = .ok (map.buckets.contents (map.wide.bucketN key)) ∧
      map.wide.buckets.get (map.wide.bucketN key) =
        (map.buckets.contents (map.wide.bucketN key)).map (DArray.wide id) := by
  have hlt := h.bucketN_lt key
  have hsize := h.size
  constructor
  · rw [h.bucketN_eq, DArray.get, if_pos hlt, DArray.load, if_pos (by omega), Int.toNat_natCast]
  · exact if_pos (h.wide_ok.bucketN_lt key)

theorem Fits.findBucket_some (h : map.Fits) {bucket : DArray (HashmapNode κ δ)} {create : Bool}
    (hb : map.buckets.contents (map.wide.bucketN key) = some bucket) :
    map.findBucket key create = .ok (map, some bucket) := by
  have hpos : ¬map.bucketN key < 0 := by
    rw [h.bucketN_eq]
    omega
  simp only [findBucket, if_neg hpos, (h.get_bucket key).1, hb, bind, Except.bind, pure, Except.pure]

theorem Fits.findBucket_none (h : map.Fits) (hb : map.buckets.contents (map.wide.bucketN key) = none) :
    map.findBucket key false = .ok (map, none) ∧
      map.findBucket key true = .ok (map.setBucket (map.bucketN key) .fresh, some .fresh) := by
  have hpos : ¬map.bucketN key < 0 := by
    rw [h.bucketN_eq]
    omega
  have hlt := h.bucketN_lt key
  have hsize := h.size
  have hset : map.buckets.set (map.bucketN key) (some .fresh) =
      .ok { map.buckets with contents := update map.buckets.contents (map.bucketN key).toNat (some .fresh) } := by
    rw [h.bucketN_eq, DArray.set, if_pos hlt, if_neg (by rw [h.full]; omega), Int.toNat_natCast]
    exact DArray.store_eq (by dsimp only; omega)
  constructor
  · simp [findBucket, hpos, (h.get_bucket key).1, hb, bind, Except.bind, pure, Except.pure]
  · simp only [findBucket, if_neg hpos, (h.get_bucket key).1, hb, bind, Except.bind, pure, Except.pure, if_true,
      DArray.create_fresh, hset, setBucket]

theorem setBucket_contents (n : Int) (bucket : DArray (HashmapNode κ δ)) :
    (map.setBucket n bucket).buckets.contents n.toNat = some bucket := Function.update_self ..

theorem wide_setBucket (n : Nat) (bucket : DArray (HashmapNode κ δ)) :
    (map.setBucket n bucket).wide = map.wide.setBucket n (bucket.wide id) := by
  simp [wide, DArray.wide, setBucket, Pack.Hashmap.setBucket, Function.comp_update]

theorem Fits.setBucket (h : map.Fits) {bucket : DArray (HashmapNode κ δ)} (hb : bucket.Fits) (n : Int) :
    (map.setBucket n bucket).Fits := by
  refine ⟨h.some_bucket, h.full, h.size, h.int, fun i b hi => ?_⟩
  by_cases he : i = n.toNat
  · subst he
    rw [Hashmap.setBucket] at hi
    dsimp only at hi
    rw [Function.update_self] at hi
    cases hi
    exact hb
  · rw [Hashmap.setBucket] at hi
    dsimp only at hi
    rw [Function.update_of_ne he] at hi
    exact h.buckets i b hi

theorem Fits.bucketFor (h : map.Fits) (key : κ) :
    (map.bucketFor key).Fits ∧ (map.bucketFor key).wide id = map.wide.bucketFor key := by
  rw [Hashmap.bucketFor, Pack.Hashmap.bucketFor, (h.get_bucket key).2, h.bucketN_eq, Int.toNat_natCast]
  cases hb : map.buckets.contents (map.wide.bucketN key) with
  | none => exact ⟨DArray.fresh_fits, DArray.fresh_wide⟩
  | some bucket => exact ⟨h.buckets _ _ hb, rfl⟩

theorem Fits.set_eq (h : map.Fits) {bucket : DArray (HashmapNode κ δ)} {rc : Int}
    (hpush : (map.bucketFor key).push { key, data, hash := map.hash key } = .ok (bucket, rc)) :
    map.set key data = .ok (map.setBucket (map.bucketN key) bucket, 0) := by
  rw [Hashmap.bucketFor, h.bucketN_eq, Int.toNat_natCast] at hpush
  cases hb : map.buckets.contents (map.wide.bucketN key) with
  | some b =>
    rw [hb, Option.getD_some] at hpush
    simp only [Hashmap.set, h.findBucket_some hb, hpush, ok_bind]
    rfl
  | none =>
    rw [hb, Option.getD_none] at hpush
    have hagain : ∀ n, (map.setBucket n .fresh).setBucket n bucket = map.setBucket n bucket := fun n => by
      simp [Hashmap.setBucket]
    have hkey : ∀ n b, (map.setBucket n b).bucketN key = map.bucketN key := fun _ _ => rfl
    have hhash : ∀ n b, (map.setBucket n b).hash = map.hash := fun _ _ => rfl
    simp only [Hashmap.set, (h.findBucket_none hb).2, hhash, hpush, ok_bind, hkey, hagain]
    rfl

theorem Fits.set (h : map.Fits) (data : δ) (hroom : (map.bucketFor key).HasRoom) :
    ∃ map', map.set key data = .ok (map', 0) ∧ map'.Fits ∧ map'.wide = map.wide.set key data := by
  obtain ⟨hfits, hwide⟩ := h.bucketFor key
  obtain ⟨b, hpush, hb, heq⟩ := hfits.push id { key, data, hash := map.hash key } hroom
  refine ⟨_, h.set_eq hpush, h.setBucket hb _, ?_⟩
  rw [h.bucketN_eq, wide_setBucket, heq, hwide, Pack.Hashmap.set_eq h.wide_ok]
  rfl

theorem Fits.set_full (h : map.Fits) (data : δ) (hroom : ¬(map.bucketFor key).HasRoom) :
    ∃ map' n b, map.set key data = .ok (map', 0) ∧ map'.buckets.contents n = some b ∧ b.max < b.stop := by
  obtain ⟨b, hpush, hb⟩ := (h.bucketFor key).1.push_full { key, data, hash := map.hash key } hroom
  exact ⟨_, _, b, h.set_eq hpush, setBucket_contents _ b, hb⟩

theorem getNode_eq (map : Hashmap κ δ) (key : κ) {bucket : DArray (HashmapNode κ δ)}
    (hb : bucket.max ≤ bucket.size) (hash : UInt32) (n i : Nat)
    (hall : ∀ j, i ≤ j → j < i + n → (bucket.wide id).get j ≠ none) :
    map.getNode hash bucket key n i = .ok (map.wide.getNode hash (bucket.wide id) key n i) := by
  induction n generalizing i with
  | zero => rfl
  | succ n ih =>
    obtain ⟨o, ho, hw, -⟩ := bucket.wide_get (f := id) hb i
    rw [Option.map_id, id] at hw
    obtain ⟨node, rfl⟩ := Option.ne_none_iff_exists'.mp (hw ▸ hall i le_rfl (by omega))
    rw [getNode, Pack.Hashmap.getNode, ho, hw, ok_bind]
    dsimp only
    have hcmp : map.wide.compare = map.compare := rfl
    rw [hcmp]
    split
    · rfl
    · exact ih _ fun j hij hj => hall j (by omega) (by omega)

theorem get_ne_none {bucket : DArray (HashmapNode κ δ)} {l : List (HashmapNode κ δ)}
    (hl : (bucket.wide id).Holds l) {j : Nat} (hj : j < bucket.stop.toNat) : (bucket.wide id).get j ≠ none := by
  have hstop : bucket.stop.toNat = l.length := hl.stop
  rw [hl.get j hj, ne_eq, List.getElem?_eq_none_iff]
  omega

theorem Fits.get_eq (h : map.Fits) (hs : map.wide.Stores) (key : κ) : map.get key = .ok (map.wide.get key) := by
  have hget := (h.get_bucket key).2
  cases hb : map.buckets.contents (map.wide.bucketN key) with
  | none =>
    rw [hb, Option.map_none] at hget
    simp only [get, (h.findBucket_none hb).1, ok_bind, Pack.Hashmap.get, Pack.Hashmap.findBucket, hget]
    rfl
  | some bucket =>
    rw [hb, Option.map_some] at hget
    have hnode := getNode_eq map key (h.buckets _ _ hb).size (map.hash key) _ 0
      fun j _ hj => get_ne_none (hs.holds _ _ hget) (by rwa [Nat.zero_add] at hj)
    have hhash : map.wide.hash = map.hash := rfl
    have hstop : (bucket.wide id).stop = bucket.stop.toNat := rfl
    simp only [get, h.findBucket_some hb, ok_bind, hnode, Pack.Hashmap.get, Pack.Hashmap.findBucket, hget, hhash,
      hstop]
    cases map.wide.getNode (map.hash key) (bucket.wide id) key bucket.stop.toNat 0 with
    | none => rfl
    | some i =>
      obtain ⟨o, ho, hw, -⟩ := bucket.wide_get (f := id) (h.buckets _ _ hb).size i
      rw [Option.map_id, id] at hw
      simp only [ho, hw, ok_bind]
      rfl

theorem Fits.delete_eq (h : map.Fits) (hs : map.wide.Stores) (key : κ) : ∃ map',
    map.delete key = .ok (map', (map.wide.delete key).2) ∧ map'.Fits ∧ map'.wide = (map.wide.delete key).1 := by
  have hget := (h.get_bucket key).2
  cases hb : map.buckets.contents (map.wide.bucketN key) with
  | none =>
    rw [hb, Option.map_none] at hget
    refine ⟨map, ?_, h, ?_⟩
    · simp only [delete, (h.findBucket_none hb).1, ok_bind, Pack.Hashmap.delete, Pack.Hashmap.findBucket, hget]
      rfl
    · simp [Pack.Hashmap.delete, Pack.Hashmap.findBucket, hget]
  | some bucket =>
    rw [hb, Option.map_some] at hget
    have hfits := h.buckets _ _ hb
    have hholds := hs.holds _ _ hget
    have hnode := getNode_eq map key hfits.size (map.hash key) _ 0
      fun j _ hj => get_ne_none hholds (by rwa [Nat.zero_add] at hj)
    have hhash : map.wide.hash = map.hash := rfl
    have hstop : (bucket.wide id).stop = bucket.stop.toNat := rfl
    simp only [delete, h.findBucket_some hb, ok_bind, hnode, Pack.Hashmap.delete, Pack.Hashmap.findBucket,
      hget, hhash, hstop]
    cases hi : map.wide.getNode (map.hash key) (bucket.wide id) key bucket.stop.toNat 0 with
    | none => exact ⟨map, rfl, h, rfl⟩
    | some i =>
      obtain ⟨hlt, node, hat, -⟩ := Pack.Hashmap.getNode_eq_some hi
      rw [Nat.zero_add] at hlt
      obtain ⟨o, ho, hw, -⟩ := bucket.wide_get (f := id) hfits.size i
      rw [Option.map_id, id, hat] at hw
      obtain ⟨l, x, hl⟩ : ∃ l x, map.wide.nodes (map.wide.bucketN key) = l ++ [x] := by
        rcases List.eq_nil_or_concat (map.wide.nodes (map.wide.bucketN key)) with hnil | ⟨l, x, hl⟩
        · have hlen := hholds.stop
          rw [hnil, List.length_nil, hstop] at hlen
          omega
        · exact ⟨l, x, by rw [hl, List.concat_eq_append]⟩
      rw [hl] at hholds
      obtain ⟨b, e, hpop, hbfits, hbwide⟩ := hfits.pop id (by omega)
      rw [Option.map_id, id] at hbwide
      obtain rfl : e = some x := by
        have hx := hholds.pop.2
        rwa [hbwide] at hx
      have hsame : ((i : Int) ≠ b.stop) ↔ i ≠ (b.wide id).stop := by
        have hpos := hbfits.stop
        dsimp only [DArray.wide]
        omega
      simp only [ho, ← hw, ok_bind, hpop, hat, hbwide, hsame]
      by_cases hne : i ≠ (b.wide id).stop
      · obtain ⟨b', hset, hbfits', hwide'⟩ := hbfits.set id x i
        simp only [if_pos hne, hset, ok_bind]
        refine ⟨_, rfl, h.setBucket hbfits' _, ?_⟩
        rw [h.bucketN_eq, wide_setBucket, hwide']
        rfl
      · simp only [if_neg hne]
        refine ⟨_, rfl, h.setBucket hbfits _, ?_⟩
        rw [h.bucketN_eq, wide_setBucket]

section Traverse

variable {σ : Type} (traverseCb : σ → HashmapNode κ δ → σ × Int)

theorem traverseBucket_eq {bucket : DArray (HashmapNode κ δ)} (hb : bucket.max ≤ bucket.size) {n j : Nat} (s : σ)
    (hall : ∀ k, j ≤ k → k < j + n → (bucket.wide id).get k ≠ none) :
    traverseBucket traverseCb bucket n j s =
      .ok (Pack.Hashmap.traverseBucket traverseCb (bucket.wide id) n j s) := by
  induction n generalizing j s with
  | zero => rfl
  | succ n ih =>
    obtain ⟨o, ho, hw, -⟩ := bucket.wide_get (f := id) hb j
    rw [Option.map_id, id] at hw
    obtain ⟨node, rfl⟩ := Option.ne_none_iff_exists'.mp (hw ▸ hall j le_rfl (by omega))
    rw [traverseBucket, Pack.Hashmap.traverseBucket, ho, hw, ok_bind]
    dsimp only
    split
    · rfl
    · exact ih _ fun k hjk hk => hall k (by omega) (by omega)

theorem Fits.traverseLoop_eq (h : map.Fits) (hs : map.wide.Stores) (n i : Nat) (s : σ) :
    traverseLoop traverseCb map n i s = .ok (Pack.Hashmap.traverseLoop traverseCb map.wide n i s) := by
  induction n generalizing i s with
  | zero => rfl
  | succ n ih =>
    obtain ⟨o, ho, hw, hsome⟩ := map.buckets.wide_get (f := DArray.wide id) h.size i
    have hget : map.wide.buckets.get i = o.map (DArray.wide id) := hw
    rw [traverseLoop, Pack.Hashmap.traverseLoop, ho, hget, ok_bind]
    cases o with
    | none => exact ih _ _
    | some bucket =>
      have hholds := hs.holds i (bucket.wide id) hget
      have hstop : (bucket.wide id).stop = bucket.stop.toNat := rfl
      dsimp only [Option.map_some]
      rw [traverseBucket_eq traverseCb (h.buckets _ _ (hsome bucket rfl)).size s fun k _ hk =>
        get_ne_none hholds (by rwa [Nat.zero_add] at hk), ok_bind, hstop]
      split
      · rfl
      · exact ih _ _

theorem Fits.traverse_eq (h : map.Fits) (hs : map.wide.Stores) (s : σ) :
    map.traverse traverseCb s = .ok (map.wide.traverse traverseCb s) := h.traverseLoop_eq traverseCb hs _ _ s

end Traverse

def step (map : Hashmap κ δ) : MapOp κ δ → Except Fault (Hashmap κ δ)
  | .set key data => (map.set key data).map Prod.fst
  | .get key => (map.get key).map fun _ => map
  | .delete key => (map.delete key).map Prod.fst

def Careful (map : Hashmap κ δ) : MapOp κ δ → Prop
  | .set key _ => map.get key = .ok none
  | .get _ => True
  | .delete _ => True

def HasRoom (map : Hashmap κ δ) : MapOp κ δ → Prop
  | .set key _ => (map.bucketFor key).HasRoom
  | .get _ => True
  | .delete _ => True

def NoneFull (map : Hashmap κ δ) : Prop :=
  ∀ n bucket, map.buckets.contents n = some bucket → bucket.stop < bucket.max

variable {m : κ → Option δ} {op : MapOp κ δ} {ops : List (MapOp κ δ)} {map' : Hashmap κ δ}

structure Represents (map : Hashmap κ δ) (m : κ → Option δ) : Prop where
  fits : map.Fits
  refines : MapOp.Refines map.wide m

theorem Represents.get (h : Represents map m) (k : κ) : map.get k = .ok (m k) := by
  rw [h.fits.get_eq h.refines.stores, h.refines.get]

theorem Represents.noneFull (h : Represents map m) : map.NoneFull :=
  fun n bucket hb => (h.fits.buckets n bucket hb).room

variable [DecidableEq κ]

theorem Represents.next (h : Represents map m) (op : MapOp κ δ) (hop : Careful map op) (hroom : HasRoom map op) :
    ∃ map', step map op = .ok map' ∧ Represents map' (MapOp.act m op) := by
  cases op with
  | get key => exact ⟨map, by rw [step, h.get]; rfl, h⟩
  | set key data =>
    obtain ⟨map', he, hfits, hwide⟩ := h.fits.set data hroom
    have hnone : map.wide.get key = none := by
      rw [Careful, h.fits.get_eq h.refines.stores] at hop
      exact Except.ok.inj hop
    refine ⟨map', by rw [step, he]; rfl, hfits, ?_⟩
    rw [hwide]
    exact h.refines.next (.set key data) hnone
  | delete key =>
    obtain ⟨map', he, hfits, hwide⟩ := h.fits.delete_eq h.refines.stores key
    refine ⟨map', by rw [step, he]; rfl, hfits, ?_⟩
    rw [hwide]
    exact h.refines.next (.delete key) trivial

theorem Represents.run (h : Represents map m)
    (hr : Run step (fun map op => Careful map op ∧ HasRoom map op) map ops map') :
    Represents map' (ops.foldl MapOp.act m) := by
  induction hr generalizing m with
  | nil => exact h
  | cons hc he _ ih =>
    obtain ⟨map₁, he₁, h₁⟩ := h.next _ hc.1 hc.2
    rw [he₁] at he
    cases he
    exact ih h₁

theorem Represents.next_iff (h : Represents map m) (hop : Careful map op) :
    (∃ map', step map op = .ok map' ∧ map'.NoneFull) ↔ HasRoom map op := by
  constructor
  · rintro ⟨map', he, hfull⟩
    cases op with
    | get key => trivial
    | delete key => trivial
    | set key data =>
      by_contra hroom
      obtain ⟨map₁, n, b, he₁, hb, hlt⟩ := h.fits.set_full data hroom
      rw [step, he₁] at he
      cases he
      exact absurd (hfull n b hb) (by omega)
  · intro hroom
    obtain ⟨map', he, h'⟩ := h.next _ hop hroom
    exact ⟨map', he, h'.noneFull⟩

/-- A map is created exactly where the number of buckets is positive as an `int`.  After any careful
sequence of operations that have room: the next one leaves no bucket full exactly if it has room too, get and
delete return the data of the last set, a delete shows at its key only, a traversal meets every key that is
there once, and no bucket is full. -/
theorem hashmap_refines_finite_map (bucketsLen : Int) (hlen : 0 < bucketsLen) (compare : κ → κ → Int)
    (hash : κ → UInt32) (hcmp : ∀ a b, compare a b = 0 ↔ a = b) :
    ((∃ map : Hashmap κ δ, create bucketsLen compare hash = .ok map) ↔ 0 < wrapInt bucketsLen) ∧
    ∀ (start : Hashmap κ δ) (ops : List (MapOp κ δ)) (map : Hashmap κ δ),
      create bucketsLen compare hash = .ok start →
      Run step (fun map op => Careful map op ∧ HasRoom map op) start ops map →
      (∀ op, Careful map op → ((∃ map', step map op = .ok map' ∧ map'.NoneFull) ↔ HasRoom map op)) ∧
      (∀ k, map.get k = .ok (MapOp.last ops k)) ∧
      (∀ k, ∃ map', map.delete k = .ok (map', MapOp.last ops k) ∧
        ∀ k', map'.get k' = .ok (if k' = k then none else MapOp.last ops k')) ∧
      (∃ l, (∀ (σ : Type) (traverseCb : σ → HashmapNode κ δ → σ × Int) (s : σ),
          map.traverse traverseCb s = .ok (Pack.Hashmap.visit traverseCb l s)) ∧
        (l.map (·.key)).Nodup ∧
        ∀ k data, (∃ node ∈ l, node.key = k ∧ node.data = data) ↔ MapOp.last ops k = some data) ∧
      map.NoneFull := by
  have hcreate : ∀ start : Hashmap κ δ, create bucketsLen compare hash = .ok start →
      0 < wrapInt bucketsLen ∧ Represents start fun _ => none := by
    intro start he
    by_cases hpos : 0 < wrapInt bucketsLen
    · obtain ⟨map, he', hfits, hwide⟩ := create_of_pos (δ := δ) hlen hpos compare hash
      rw [he] at he'
      cases he'
      refine ⟨hpos, hfits, ?_⟩
      rw [hwide]
      exact ⟨.create, hcmp, fun _ => Pack.Hashmap.get_create⟩
    · rw [create_of_neg hlen hpos] at he
      cases he
  refine ⟨⟨fun ⟨start, he⟩ => (hcreate start he).1, fun hpos => ?_⟩, fun start ops map he hr => ?_⟩
  · obtain ⟨map, he, -⟩ := create_of_pos (δ := δ) hlen hpos compare hash
    exact ⟨map, he⟩
  · have h : Represents map (MapOp.last ops) := (hcreate start he).2.run hr
    refine ⟨fun op hop => h.next_iff hop, h.get, fun k => ?_, ⟨map.wide.listed, fun σ cb s => ?_, ?_, ?_⟩,
      h.noneFull⟩
    · obtain ⟨map', hdel, -⟩ := h.fits.delete_eq h.refines.stores k
      obtain ⟨map₁, hstep, h₁⟩ := h.next (.delete k) trivial trivial
      rw [step, hdel] at hstep
      cases hstep
      rw [h.refines.stores.delete_data, h.refines.get] at hdel
      refine ⟨map', hdel, fun k' => ?_⟩
      rw [h₁.get, MapOp.act, Function.update_apply]
    · rw [h.fits.traverse_eq cb h.refines.stores, Pack.Hashmap.traverse_eq_visit]
    · exact h.refines.stores.nodup_listed
    · exact fun k data => h.refines.listed_iff

theorem create_too_many : (create 2147483648 (fun a b : Nat => (a : Int) - b) (fun _ => 7) :
    Except Fault (Hashmap Nat Nat)) = .error .nullDereference :=
  create_of_neg (by decide) (by decide) _ _

def swapped : List (MapOp Nat Nat) := [.set 1 10, .set 2 20, .set 3 30, .delete 1, .get 3, .set 1 11]

def colliding : Hashmap Nat Nat where
  buckets := ⟨fun _ => none, 3, 3, 3, defaultExpandRate⟩
  compare a b := a - b
  hash _ := 7

def admits (map : Hashmap Nat Nat) : MapOp Nat Nat → Bool
  | .set key _ => (map.get key).toOption == some none && decide (map.bucketFor key).HasRoom
  | .get _ => true
  | .delete _ => true

theorem admits_iff (map : Hashmap Nat Nat) (op : MapOp Nat Nat) (h : admits map op = true) :
    Careful map op ∧ HasRoom map op := by
  cases op with
  | get => exact ⟨trivial, trivial⟩
  | delete => exact ⟨trivial, trivial⟩
  | set key data =>
    rw [admits, Bool.and_eq_true, beq_iff_eq, decide_eq_true_eq] at h
    refine ⟨?_, h.2⟩
    rw [Careful]
    cases hget : map.get key with
    | error e =>
      rw [hget] at h
      cases h.1
    | ok o =>
      rw [hget] at h
      rw [Option.some.inj h.1]

theorem hashmap_refines_swapped : ∃ map, create 3 colliding.compare colliding.hash = .ok colliding ∧
    Run step (fun map op => Careful map op ∧ HasRoom map op) colliding swapped map ∧
    map.get 1 = .ok (some 11) ∧ map.get 3 = .ok (some 30) := by
  have hrun : Run step (fun map op => Careful map op ∧ HasRoom map op) colliding swapped
      (final step admits colliding swapped) :=
    (run_final (by decide +kernel)).mono admits_iff
  obtain ⟨-, hget, -⟩ := (hashmap_refines_finite_map 3 (by decide) colliding.compare colliding.hash
    (fun a b => by simp [colliding]; omega)).2 colliding swapped _ rfl hrun
  exact ⟨_, rfl, hrun, hget 1, hget 3⟩

end Hashmap

end Wspack.Pack.Sized
