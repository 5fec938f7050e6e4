import Mathlib.Logic.Function.Basic
import Mathlib.Data.List.Basic

/-! The chained hash map of `hashmap.c` over the growable arrays of `darray.c`, with numbers of any size:
what their being `int`s changes is in `SizedMap`.  Allocations succeed. -/

universe u v w

namespace Wspack.Pack

def defaultExpandRate : Nat := 300
def defaultNumberOfBuckets : Nat := 100

/-- `stop` is the source's `end`; an entry from there on is written before it is read. -/
structure DArray (α : Type u) where
  contents : Nat → Option α
  stop : Nat
  max : Nat
  expandRate : Nat

namespace DArray

variable {α : Type u} {a : DArray α} {el : α} {i : Nat}

def create (initialMax : Nat) : DArray α where
  contents _ := none
  stop := 0
  max := initialMax
  expandRate := defaultExpandRate

def get (a : DArray α) (i : Nat) : Option α := if i < a.max then a.contents i else none

def set (a : DArray α) (i : Nat) (el : α) : DArray α :=
  if i < a.max then
    { a with
      contents := Function.update a.contents i (some el)
      stop := if a.stop < i then i else a.stop }
  else a

def expand (a : DArray α) : DArray α := { a with max := a.max + a.expandRate }

def push (a : DArray α) (el : α) : DArray α :=
  let a := { a with contents := Function.update a.contents a.stop (some el), stop := a.stop + 1 }
  if a.max ≤ a.stop then a.expand else a

def contract (a : DArray α) : DArray α :=
  let newSize := if a.stop < a.expandRate then a.expandRate else a.stop
  { a with max := newSize + 1 }

def remove (a : DArray α) (i : Nat) : DArray α × Option α :=
  ({ a with contents := Function.update a.contents i none }, a.contents i)

def pop (a : DArray α) : DArray α × Option α :=
  if 1 ≤ a.stop then
    let (a, el) := a.remove (a.stop - 1)
    let a := { a with stop := a.stop - 1 }
    (if a.expandRate < a.stop ∧ a.stop % a.expandRate ≠ 0 then a.contract else a, el)
  else (a, none)

structure Ok (a : DArray α) : Prop where
  room : a.stop < a.max
  rate : 0 < a.expandRate

def elements (a : DArray α) : List α := (List.range' 0 a.stop).filterMap a.get

theorem Ok.create {n : Nat} (h : 0 < n) : (create n : DArray α).Ok :=
  ⟨h, show 0 < defaultExpandRate by decide⟩

theorem Ok.push (h : a.Ok) : (a.push el).Ok := by
  obtain ⟨hroom, hrate⟩ := h
  unfold DArray.push
  dsimp only
  split
  · exact ⟨by simp only [expand]; omega, hrate⟩
  · exact ⟨by dsimp only; omega, hrate⟩

@[simp] theorem push_stop : (a.push el).stop = a.stop + 1 := by
  unfold push
  dsimp only
  split <;> rfl

theorem get_push_lt (h : a.Ok) (hi : i < a.stop) : (a.push el).get i = a.get i := by
  have hroom := h.room
  have hne : i ≠ a.stop := by omega
  unfold push get
  dsimp only
  split <;> simp [expand, Function.update_of_ne hne, show i < a.max by omega,
    show i < a.max + a.expandRate by omega]

theorem get_push_stop (h : a.Ok) : (a.push el).get a.stop = some el := by
  have hroom := h.room
  unfold push get
  dsimp only
  split <;> simp [expand, show a.stop < a.max + a.expandRate by omega]

theorem elements_push (h : a.Ok) : (a.push el).elements = a.elements ++ [el] := by
  have hold : (List.range' 0 a.stop).filterMap (a.push el).get =
      (List.range' 0 a.stop).filterMap a.get :=
    List.filterMap_congr (fun i hi => get_push_lt h (by simpa using hi))
  rw [elements, push_stop, List.range'_concat, List.filterMap_append, hold]
  simp [get_push_stop h, elements]

end DArray

structure HashmapNode (κ : Type u) (δ : Type v) where
  key : κ
  data : δ
  hash : UInt32

structure Hashmap (κ : Type u) (δ : Type v) where
  buckets : DArray (DArray (HashmapNode κ δ))
  compare : κ → κ → Int
  hash : κ → UInt32

namespace Hashmap

variable {κ : Type u} {δ : Type v}

def create (bucketsLen : Nat) (compare : κ → κ → Int) (hash : κ → UInt32) : Hashmap κ δ :=
  let bucketsN := if 0 < bucketsLen then bucketsLen else defaultNumberOfBuckets
  { buckets := { DArray.create bucketsN with stop := bucketsN }, compare, hash }

def bucketN (map : Hashmap κ δ) (key : κ) : Nat := (map.hash key).toNat % map.buckets.max

def findBucket (map : Hashmap κ δ) (key : κ) (create : Bool) :
    Hashmap κ δ × Option (DArray (HashmapNode κ δ)) :=
  match map.buckets.get (map.bucketN key) with
  | some bucket => (map, some bucket)
  | none =>
    if create then
      let bucket := DArray.create defaultNumberOfBuckets
      ({ map with buckets := map.buckets.set (map.bucketN key) bucket }, some bucket)
    else (map, none)

def setBucket (map : Hashmap κ δ) (n : Nat) (bucket : DArray (HashmapNode κ δ)) : Hashmap κ δ :=
  { map with buckets :=
      { map.buckets with contents := Function.update map.buckets.contents n (some bucket) } }

def set (map : Hashmap κ δ) (key : κ) (data : δ) : Hashmap κ δ :=
  match map.findBucket key true with
  | (map, none) => map
  | (map, some bucket) =>
    map.setBucket (map.bucketN key) (bucket.push { key, data, hash := map.hash key })

def getNode (map : Hashmap κ δ) (hash : UInt32) (bucket : DArray (HashmapNode κ δ)) (key : κ) :
    (n i : Nat) → Option Nat
  | 0, _ => none
  | n + 1, i =>
    match bucket.get i with
    | some node =>
      if node.hash = hash ∧ map.compare node.key key = 0 then some i
      else getNode map hash bucket key n (i + 1)
    | none => getNode map hash bucket key n (i + 1)

def get (map : Hashmap κ δ) (key : κ) : Option δ :=
  match (map.findBucket key false).2 with
  | none => none
  | some bucket =>
    match map.getNode (map.hash key) bucket key bucket.stop 0 with
    | none => none
    | some i => (bucket.get i).map (·.data)

/-- The node at `i` and the one popped off the end are the same when `i` is the end. -/
def delete (map : Hashmap κ δ) (key : κ) : Hashmap κ δ × Option δ :=
  match (map.findBucket key false).2 with
  | none => (map, none)
  | some bucket =>
    match map.getNode (map.hash key) bucket key bucket.stop 0 with
    | none => (map, none)
    | some i =>
      let data := (bucket.get i).map (·.data)
      let (bucket, ending) := bucket.pop
      let bucket := if i ≠ bucket.stop then (ending.map (bucket.set i)).getD bucket else bucket
      (map.setBucket (map.bucketN key) bucket, data)

section Traverse
variable {σ : Type w} (traverseCb : σ → HashmapNode κ δ → σ × Int)

def traverseBucket (bucket : DArray (HashmapNode κ δ)) : (n j : Nat) → σ → σ × Int
  | 0, _, s => (s, 0)
  | n + 1, j, s =>
    match bucket.get j with
    | none => traverseBucket bucket n (j + 1) s
    | some node =>
      let (s, rc) := traverseCb s node
      if rc ≠ 0 then (s, rc) else traverseBucket bucket n (j + 1) s

def traverseLoop (map : Hashmap κ δ) : (n i : Nat) → σ → σ × Int
  | 0, _, s => (s, 0)
  | n + 1, i, s =>
    match map.buckets.get i with
    | none => traverseLoop map n (i + 1) s
    | some bucket =>
      let (s, rc) := traverseBucket traverseCb bucket bucket.stop 0 s
      if rc ≠ 0 then (s, rc) else traverseLoop map n (i + 1) s

def traverse (map : Hashmap κ δ) (s : σ) : σ × Int :=
  traverseLoop traverseCb map map.buckets.stop 0 s

end Traverse

structure Ok (map : Hashmap κ δ) : Prop where
  some_bucket : 0 < map.buckets.max
  full : map.buckets.stop = map.buckets.max
  buckets : ∀ n bucket, map.buckets.get n = some bucket → bucket.Ok

def chain (map : Hashmap κ δ) (key : κ) : List (HashmapNode κ δ) :=
  match map.buckets.get (map.bucketN key) with
  | none => []
  | some bucket => bucket.elements

variable {map : Hashmap κ δ} {key k : κ} {data : δ}

theorem getNode_eq_find? (bucket : DArray (HashmapNode κ δ)) (n i : Nat) :
    (map.getNode (map.hash key) bucket key n i).bind (fun i => (bucket.get i).map (·.data)) =
      (((List.range' i n).filterMap bucket.get).find? (fun node =>
        node.hash = map.hash key ∧ map.compare node.key key = 0)).map (·.data) := by
  induction n generalizing i with
  | zero => rfl
  | succ n ih =>
    rw [getNode, List.range'_succ]
    cases hg : bucket.get i with
    | none => simpa [List.filterMap_cons, hg] using ih (i + 1)
    | some node =>
      rw [List.filterMap_cons_some hg, List.find?_cons]
      by_cases hp : node.hash = map.hash key ∧ map.compare node.key key = 0
      · simp [hp, hg]
      · simp only [hp, if_false, decide_false]
        exact ih (i + 1)

theorem get_eq_find? : map.get key = ((map.chain key).find? (fun node =>
    node.hash = map.hash key ∧ map.compare node.key key = 0)).map (·.data) := by
  unfold get chain findBucket
  cases hg : map.buckets.get (map.bucketN key) with
  | none => simp
  | some bucket =>
    dsimp only
    rw [DArray.elements, ← getNode_eq_find?]
    cases map.getNode (map.hash key) bucket key bucket.stop 0 <;> rfl

theorem Ok.bucketN_lt (h : map.Ok) (key : κ) : map.bucketN key < map.buckets.max :=
  Nat.mod_lt _ h.some_bucket

theorem buckets_create {bucketsLen n : Nat} {compare : κ → κ → Int} {hash : κ → UInt32} :
    (create bucketsLen compare hash : Hashmap κ δ).buckets.get n = none := ite_self none

theorem get_create {bucketsLen : Nat} {compare : κ → κ → Int} {hash : κ → UInt32} :
    (create bucketsLen compare hash : Hashmap κ δ).get key = none := by
  rw [get_eq_find?, chain, buckets_create]
  rfl

theorem Ok.create {bucketsLen : Nat} {compare : κ → κ → Int} {hash : κ → UInt32} :
    (create bucketsLen compare hash : Hashmap κ δ).Ok where
  some_bucket := by
    simp only [Hashmap.create, DArray.create, defaultNumberOfBuckets]
    split <;> omega
  full := rfl
  buckets n bucket hb := by
    rw [buckets_create] at hb
    cases hb

def bucketFor (map : Hashmap κ δ) (key : κ) : DArray (HashmapNode κ δ) :=
  (map.buckets.get (map.bucketN key)).getD (DArray.create defaultNumberOfBuckets)

theorem Ok.bucketFor (h : map.Ok) (key : κ) : (map.bucketFor key).Ok := by
  unfold Hashmap.bucketFor
  cases hg : map.buckets.get (map.bucketN key) with
  | none => exact DArray.Ok.create (by decide)
  | some bucket => exact h.buckets _ _ hg

theorem elements_bucketFor : (map.bucketFor key).elements = map.chain key := by
  unfold bucketFor chain
  cases map.buckets.get (map.bucketN key) <;> rfl

@[simp] theorem setBucket_bucketN {n : Nat} {bucket : DArray (HashmapNode κ δ)} :
    (map.setBucket n bucket).bucketN k = map.bucketN k := rfl

theorem get_setBucket {n m : Nat} {bucket : DArray (HashmapNode κ δ)} (hn : n < map.buckets.max) :
    (map.setBucket n bucket).buckets.get m =
      if m = n then some bucket else map.buckets.get m := by
  unfold setBucket DArray.get
  by_cases h : m = n
  · subst h
    simp [hn]
  · simp [h]

theorem set_buckets (h : map.Ok) {n : Nat} {bucket : DArray (HashmapNode κ δ)}
    (hn : n < map.buckets.max) :
    { map with buckets := map.buckets.set n bucket } = map.setBucket n bucket := by
  have hstop : ¬map.buckets.stop < n := by
    rw [h.full]
    omega
  simp [DArray.set, hn, hstop, setBucket]

theorem set_eq (h : map.Ok) : map.set key data = map.setBucket (map.bucketN key)
    ((map.bucketFor key).push { key, data, hash := map.hash key }) := by
  unfold set findBucket bucketFor
  cases hg : map.buckets.get (map.bucketN key) with
  | some bucket => rfl
  | none =>
    simp only [if_true, set_buckets h (h.bucketN_lt key), setBucket_bucketN]
    simp [setBucket]

theorem set_hash (h : map.Ok) : (map.set key data).hash = map.hash := by
  rw [set_eq h, setBucket]

theorem set_compare (h : map.Ok) : (map.set key data).compare = map.compare := by
  rw [set_eq h, setBucket]

theorem Ok.set (h : map.Ok) : (map.set key data).Ok := by
  rw [set_eq h]
  refine ⟨h.some_bucket, h.full, fun n bucket hb => ?_⟩
  rw [get_setBucket (h.bucketN_lt key)] at hb
  split at hb
  · cases hb
    exact (h.bucketFor key).push
  · exact h.buckets n bucket hb

theorem chain_set (h : map.Ok) : (map.set key data).chain k =
    map.chain k ++ if map.bucketN k = map.bucketN key then
      [{ key, data, hash := map.hash key }] else [] := by
  rw [set_eq h, chain, setBucket_bucketN, get_setBucket (h.bucketN_lt key)]
  by_cases hn : map.bucketN k = map.bucketN key
  · have hchain : map.chain k = (map.bucketFor key).elements := by
      rw [elements_bucketFor, chain, chain, hn]
    rw [if_pos hn, if_pos hn, hchain]
    exact DArray.elements_push (h.bucketFor key)
  · rw [if_neg hn, if_neg hn, List.append_nil, chain]

theorem get_set (h : map.Ok) : (map.set key data).get k = (map.get k).or
    (if map.hash key = map.hash k ∧ map.compare key k = 0 then some data else none) := by
  rw [get_eq_find?, get_eq_find?, chain_set h, set_hash h, set_compare h, List.find?_append, Option.map_or]
  congr 1
  by_cases hp : map.hash key = map.hash k ∧ map.compare key k = 0
  · have hn : map.bucketN k = map.bucketN key := by rw [bucketN, bucketN, hp.1]
    simp [hn, hp]
  · split <;> simp [hp]

end Hashmap

end Wspack.Pack
