import Mathlib.Data.List.Nodup
import Mathlib.Data.List.Perm.Basic
import Mathlib.Order.Basic
import Wspack.Pack.Hashmap

universe u v w

namespace Wspack.Pack

open scoped List

namespace DArray

variable {α : Type u} {a : DArray α} {l : List α} {x : α} {i : Nat}

structure Holds (a : DArray α) (l : List α) : Prop where
  ok : a.Ok
  stop : a.stop = l.length
  get : ∀ i < a.stop, a.get i = l[i]?

theorem Holds.create {n : Nat} (h : 0 < n) : (create n : DArray α).Holds [] :=
  ⟨.create h, rfl, fun _ hi => absurd hi (Nat.not_lt_zero _)⟩

theorem Holds.push (h : a.Holds l) : (a.push x).Holds (l ++ [x]) := by
  refine ⟨h.ok.push, by simp [h.stop], fun i hi => ?_⟩
  rw [push_stop] at hi
  rcases Nat.lt_succ_iff_lt_or_eq.mp hi with hlt | rfl
  · rw [get_push_lt h.ok hlt, h.get i hlt, List.getElem?_append_left (h.stop ▸ hlt)]
  · rw [get_push_stop h.ok, h.stop, List.getElem?_concat_length]

theorem Holds.elements_eq (h : a.Holds l) : a.elements = l := by
  have hget : (List.range' 0 a.stop).filterMap a.get =
      (List.range' 0 a.stop).filterMap (fun i => l[i]?) :=
    List.filterMap_congr (fun i hi => h.get i (by simpa using hi))
  have hall : ∀ l : List α, (List.range l.length).filterMap (fun i => l[i]?) = l := by
    intro l
    induction l with
    | nil => rfl
    | cons x l ih =>
      rw [List.length_cons, List.range_succ_eq_map, List.filterMap_cons_some (by rfl),
        List.filterMap_map]
      exact congrArg (x :: ·) ih
  rw [elements, hget, h.stop, ← List.range_eq_range', hall]

theorem Holds.set (h : a.Holds l) (hi : i < l.length) : (a.set i x).Holds (l.set i x) := by
  have hroom := h.ok.room
  have hlt : i < a.stop := h.stop ▸ hi
  rw [DArray.set, if_pos (by omega), if_neg (by omega)]
  refine ⟨⟨hroom, h.ok.rate⟩, by rw [List.length_set, h.stop], fun j hj => ?_⟩
  have hget := h.get j hj
  rw [DArray.get, if_pos (show j < a.max by dsimp only at hj; omega)] at hget ⊢
  rw [List.getElem?_set]
  by_cases hij : i = j
  · subst hij
    simp [hi]
  · rw [if_neg hij, ← hget]
    exact Function.update_of_ne (Ne.symm hij) _ _

theorem pop_eq (h : a.Ok) (hpos : 1 ≤ a.stop) : ∃ m, a.stop - 1 < m ∧
    a.pop = ({ a with
      contents := Function.update a.contents (a.stop - 1) none
      stop := a.stop - 1
      max := m }, a.contents (a.stop - 1)) := by
  have hroom := h.room
  rw [pop, if_pos hpos]
  dsimp only [remove]
  split
  · refine ⟨(if a.stop - 1 < a.expandRate then a.expandRate else a.stop - 1) + 1, ?_, rfl⟩
    split <;> omega
  · exact ⟨a.max, by omega, rfl⟩

theorem Holds.pop (h : a.Holds (l ++ [x])) : a.pop.1.Holds l ∧ a.pop.2 = some x := by
  have hroom := h.ok.room
  have hstop : a.stop = l.length + 1 := by simpa using h.stop
  have hget : ∀ i ≤ l.length, a.contents i = (l ++ [x])[i]? := by
    intro i hi
    rw [← h.get i (by omega), DArray.get, if_pos (by omega)]
  obtain ⟨m, hm, hpop⟩ := pop_eq h.ok (by omega)
  rw [hstop, Nat.add_sub_cancel] at hm hpop
  rw [hpop]
  refine ⟨⟨⟨hm, h.ok.rate⟩, rfl, fun i hi => ?_⟩, ?_⟩
  · dsimp only at hi
    rw [DArray.get, if_pos (show i < m by omega)]
    dsimp only
    rw [Function.update_of_ne (by omega), hget i (by omega), List.getElem?_append_left hi]
  · rw [hget _ (Nat.le_refl _), List.getElem?_concat_length]

end DArray

def swapRemove {α : Type u} (l : List α) (x : α) (i : Nat) : List α :=
  if i = l.length then l else l.set i x

theorem swapRemove_perm {α : Type u} {l : List α} {x y : α} {i : Nat}
    (h : (l ++ [x])[i]? = some y) : y :: swapRemove l x i ~ l ++ [x] := by
  rw [swapRemove]
  split
  · subst i
    rw [List.getElem?_concat_length, Option.some.injEq] at h
    subst h
    exact (List.perm_append_singleton _ _).symm
  · next hne =>
    obtain ⟨hlt, hy⟩ := List.getElem?_eq_some_iff.mp h
    have hlt : i < l.length := by
      rw [List.length_append, List.length_singleton] at hlt
      omega
    rw [List.getElem_append_left hlt] at hy
    have hl : l = l.take i ++ y :: l.drop (i + 1) := by
      rw [← hy, ← List.drop_eq_getElem_cons hlt, List.take_append_drop]
    calc y :: l.set i x
      _ = y :: (l.take i ++ x :: l.drop (i + 1)) := by
        rw [List.set_eq_take_append_cons_drop, if_pos hlt]
      _ ~ y :: x :: (l.take i ++ l.drop (i + 1)) := List.perm_middle.cons y
      _ ~ x :: y :: (l.take i ++ l.drop (i + 1)) := .swap _ _ _
      _ ~ x :: (l.take i ++ y :: l.drop (i + 1)) := List.perm_middle.symm.cons x
      _ = x :: l := by rw [← hl]
      _ ~ l ++ [x] := (List.perm_append_singleton _ _).symm

theorem DArray.Holds.swapRemove {α : Type u} {a : DArray α} {l : List α} {x : α} {i : Nat}
    (h : a.Holds l) (hi : i ≤ l.length) :
    (if i ≠ a.stop then a.set i x else a).Holds (swapRemove l x i) := by
  rw [Pack.swapRemove, h.stop]
  by_cases hl : i = l.length
  · rw [if_neg (not_not.mpr hl), if_pos hl]
    exact h
  · rw [if_pos hl, if_neg hl]
    exact h.set (by omega)

namespace Hashmap

variable {κ : Type u} {δ : Type v} {map : Hashmap κ δ} {key k : κ} {data : δ} {n : Nat}

def nodes (map : Hashmap κ δ) (n : Nat) : List (HashmapNode κ δ) :=
  match map.buckets.get n with
  | none => []
  | some bucket => bucket.elements

structure Stores (map : Hashmap κ δ) : Prop where
  ok : map.Ok
  holds : ∀ n bucket, map.buckets.get n = some bucket → bucket.Holds (map.nodes n)
  home : ∀ n, ∀ node ∈ map.nodes n, map.bucketN node.key = n ∧ node.hash = map.hash node.key
  nodup : ∀ n, ((map.nodes n).map (·.key)).Nodup

theorem Stores.create {bucketsLen : Nat} {compare : κ → κ → Int} {hash : κ → UInt32} :
    (create bucketsLen compare hash : Hashmap κ δ).Stores := by
  have hnil : ∀ n, (Hashmap.create bucketsLen compare hash : Hashmap κ δ).nodes n = [] := by
    intro n
    rw [nodes, buckets_create]
  refine ⟨.create, fun n bucket hb => ?_, fun n node hnode => ?_, fun n => ?_⟩
  · rw [buckets_create] at hb
    cases hb
  · rw [hnil] at hnode
    cases hnode
  · rw [hnil]
    exact .nil

theorem nodes_setBucket {m : Nat} {bucket : DArray (HashmapNode κ δ)} {l : List (HashmapNode κ δ)}
    (hn : n < map.buckets.max) (hb : bucket.Holds l) :
    (map.setBucket n bucket).nodes m = if m = n then l else map.nodes m := by
  rw [nodes, get_setBucket hn]
  by_cases hm : m = n
  · rw [if_pos hm, if_pos hm]
    exact hb.elements_eq
  · rw [if_neg hm, if_neg hm, nodes]

theorem Stores.setBucket {bucket : DArray (HashmapNode κ δ)} {l : List (HashmapNode κ δ)}
    (h : map.Stores) (hn : n < map.buckets.max) (hb : bucket.Holds l)
    (hhome : ∀ node ∈ l, map.bucketN node.key = n ∧ node.hash = map.hash node.key)
    (hnodup : (l.map (·.key)).Nodup) : (map.setBucket n bucket).Stores := by
  have hnodes := fun m => @nodes_setBucket _ _ map n m bucket l hn hb
  refine ⟨⟨h.ok.some_bucket, h.ok.full, fun m b hget => ?_⟩, fun m b hget => ?_, fun m node hm => ?_,
    fun m => ?_⟩
  · rw [get_setBucket hn] at hget
    split at hget
    · cases hget
      exact hb.ok
    · exact h.ok.buckets m b hget
  · rw [get_setBucket hn] at hget
    rw [hnodes]
    split at hget
    · cases hget
      rwa [if_pos ‹_›]
    · rw [if_neg ‹_›]
      exact h.holds m b hget
  · rw [hnodes] at hm
    split at hm
    · subst m
      exact hhome node hm
    · exact h.home m node hm
  · rw [hnodes]
    split
    · exact hnodup
    · exact h.nodup m

theorem getNode_eq_some {hash : UInt32} {bucket : DArray (HashmapNode κ δ)} {m i j : Nat}
    (h : map.getNode hash bucket key m i = some j) : j < i + m ∧
      ∃ node, bucket.get j = some node ∧ node.hash = hash ∧ map.compare node.key key = 0 := by
  induction m generalizing i with
  | zero => cases h
  | succ m ih =>
    rw [getNode] at h
    split at h
    · next node hg =>
      split at h
      · cases h
        exact ⟨by omega, node, hg, ‹_›⟩
      · obtain ⟨hlt, hnode⟩ := ih h
        exact ⟨by omega, hnode⟩
    · obtain ⟨hlt, hnode⟩ := ih h
      exact ⟨by omega, hnode⟩

theorem Stores.delete_cases (h : map.Stores) (key : κ) :
    (map.get key = none ∧ map.delete key = (map, none)) ∨
    ∃ node l bucket, map.get key = some node.data ∧ map.compare node.key key = 0 ∧
      node :: l ~ map.nodes (map.bucketN key) ∧ bucket.Holds l ∧
      map.delete key = (map.setBucket (map.bucketN key) bucket, some node.data) := by
  cases hg : map.buckets.get (map.bucketN key) with
  | none => exact .inl ⟨by simp [get, findBucket, hg], by simp [delete, findBucket, hg]⟩
  | some bucket =>
    cases hn : map.getNode (map.hash key) bucket key bucket.stop 0 with
    | none => exact .inl ⟨by simp [get, findBucket, hg, hn], by simp [delete, findBucket, hg, hn]⟩
    | some i =>
      obtain ⟨hlt, node, hnode, -, hkey⟩ := getNode_eq_some hn
      have hb := h.holds _ _ hg
      rw [Nat.zero_add] at hlt
      obtain ⟨l, x, hl⟩ : ∃ l x, map.nodes (map.bucketN key) = l ++ [x] := by
        rcases List.eq_nil_or_concat (map.nodes (map.bucketN key)) with hnil | ⟨l, x, hl⟩
        · have := hb.stop
          rw [hnil, List.length_nil] at this
          omega
        · exact ⟨l, x, by rw [hl, List.concat_eq_append]⟩
      rw [hl] at hb
      obtain ⟨hpop, hx⟩ := hb.pop
      have hat : (l ++ [x])[i]? = some node := (hb.get i hlt).symm.trans hnode
      refine .inr ⟨node, swapRemove l x i, (if i ≠ bucket.pop.1.stop then bucket.pop.1.set i x
        else bucket.pop.1), ?_, hkey, hl ▸ swapRemove_perm hat, hpop.swapRemove ?_, ?_⟩
      · simp [get, findBucket, hg, hn, hnode]
      · have := hb.stop
        rw [List.length_append, List.length_singleton] at this
        omega
      · simp [delete, findBucket, hg, hn, hnode, hx]

theorem Stores.delete (h : map.Stores) : (map.delete key).1.Stores := by
  rcases h.delete_cases key with ⟨-, hdel⟩ | ⟨node, l, bucket, -, -, hperm, hb, hdel⟩
  · rwa [hdel]
  · rw [hdel]
    refine h.setBucket (h.ok.bucketN_lt key) hb (fun node' hnode => ?_) ?_
    · exact h.home _ node' (hperm.subset (List.mem_cons_of_mem _ hnode))
    · have hnodup := ((hperm.map (·.key)).nodup_iff).mpr (h.nodup _)
      exact (List.nodup_cons.mp hnodup).2

theorem delete_compare (h : map.Stores) : (map.delete key).1.compare = map.compare := by
  rcases h.delete_cases key with ⟨-, hdel⟩ | ⟨node, l, bucket, -, -, -, -, hdel⟩
  · rw [hdel]
  · rw [hdel]
    rfl

theorem Stores.delete_data (h : map.Stores) : (map.delete key).2 = map.get key := by
  rcases h.delete_cases key with ⟨hget, hdel⟩ | ⟨node, l, bucket, hget, -, -, -, hdel⟩
  · rw [hdel, hget]
  · rw [hdel, hget]

section
variable (hcmp : ∀ a b, map.compare a b = 0 ↔ a = b)
include hcmp

theorem Stores.get_eq_some_iff (h : map.Stores) : map.get key = some data ↔
    ∃ node ∈ map.nodes (map.bucketN key), node.key = key ∧ node.data = data := by
  rw [get_eq_find?, Option.map_eq_some_iff]
  constructor
  · rintro ⟨node, hfind, hdata⟩
    have hp := List.find?_some hfind
    rw [decide_eq_true_eq, hcmp] at hp
    exact ⟨node, List.mem_of_find?_eq_some hfind, hp.2, hdata⟩
  · rintro ⟨node, hnode, hkey, hdata⟩
    refine ⟨node, ?_, hdata⟩
    have hhash : node.hash = map.hash key := hkey ▸ (h.home _ node hnode).2
    cases hfind : (map.chain key).find? (fun node =>
        node.hash = map.hash key ∧ map.compare node.key key = 0) with
    | none =>
      have hp := List.find?_eq_none.mp hfind node hnode
      rw [decide_eq_true_eq, hcmp] at hp
      exact absurd ⟨hhash, hkey⟩ hp
    | some node' =>
      have hp := List.find?_some hfind
      rw [decide_eq_true_eq, hcmp] at hp
      exact congrArg some (List.inj_on_of_nodup_map (h.nodup _) (List.mem_of_find?_eq_some hfind)
        hnode (hp.2.trans hkey.symm))

theorem Stores.get_eq_none_iff (h : map.Stores) : map.get key = none ↔
    ∀ node ∈ map.nodes (map.bucketN key), node.key ≠ key := by
  constructor
  · intro hnone node hnode hkey
    have := (h.get_eq_some_iff hcmp).mpr ⟨node, hnode, hkey, rfl⟩
    rw [hnone] at this
    cases this
  · intro hne
    rw [Option.eq_none_iff_forall_ne_some]
    intro data hdata
    obtain ⟨node, hnode, hkey, -⟩ := (h.get_eq_some_iff hcmp).mp hdata
    exact hne node hnode hkey

theorem Stores.get_congr {map' : Hashmap κ δ} (h : map.Stores) (h' : map'.Stores)
    (hcmp' : ∀ a b, map'.compare a b = 0 ↔ a = b) (hmem : ∀ node, node.key = key →
      (node ∈ map'.nodes (map'.bucketN key) ↔ node ∈ map.nodes (map.bucketN key))) :
    map'.get key = map.get key := by
  ext data
  rw [h'.get_eq_some_iff hcmp', h.get_eq_some_iff hcmp]
  constructor
  · rintro ⟨node, hnode, hkey, hdata⟩
    exact ⟨node, (hmem node hkey).mp hnode, hkey, hdata⟩
  · rintro ⟨node, hnode, hkey, hdata⟩
    exact ⟨node, (hmem node hkey).mpr hnode, hkey, hdata⟩

theorem Stores.set (h : map.Stores) (hnone : map.get key = none) : (map.set key data).Stores := by
  have hb : (map.bucketFor key).Holds (map.nodes (map.bucketN key)) := by
    unfold bucketFor
    cases hg : map.buckets.get (map.bucketN key) with
    | none =>
      rw [nodes, hg]
      exact .create (by decide)
    | some bucket => exact h.holds _ _ hg
  rw [set_eq h.ok]
  refine h.setBucket (h.ok.bucketN_lt key) hb.push (fun node hnode => ?_) ?_
  · rcases List.mem_append.mp hnode with hnode | hnode
    · exact h.home _ node hnode
    · rw [List.mem_singleton.mp hnode]
      exact ⟨rfl, rfl⟩
  · rw [List.map_append, List.map_singleton, List.nodup_append]
    refine ⟨h.nodup _, List.nodup_singleton _, ?_⟩
    intro a ha b hb
    obtain ⟨node, hnode, rfl⟩ := List.mem_map.mp ha
    rw [List.mem_singleton.mp hb]
    exact (h.get_eq_none_iff hcmp).mp hnone node hnode

theorem Stores.get_delete [DecidableEq κ] (h : map.Stores) (k : κ) :
    (map.delete key).1.get k = if k = key then none else map.get k := by
  rcases h.delete_cases key with ⟨hget, hdel⟩ | ⟨node, l, bucket, hget, hkey, hperm, hb, hdel⟩
  · rw [hdel]
    split
    · subst k
      exact hget
    · rfl
  · have hstores := @Stores.delete _ _ map key h
    rw [hdel] at hstores ⊢
    rw [hcmp] at hkey
    subst hkey
    have hcmp' : ∀ a b, (map.setBucket (map.bucketN node.key) bucket).compare a b = 0 ↔ a = b := hcmp
    have hnodes := @nodes_setBucket _ _ map _ (map.bucketN k) bucket l (h.ok.bucketN_lt node.key) hb
    split
    · next hk =>
      subst hk
      refine (hstores.get_eq_none_iff hcmp').mpr (fun node' hnode' heq => ?_)
      rw [setBucket_bucketN, hnodes, if_pos rfl] at hnode'
      have hnodup := ((hperm.map (·.key)).nodup_iff).mpr (h.nodup _)
      exact (List.nodup_cons.mp hnodup).1 (List.mem_map.mpr ⟨node', hnode', heq⟩)
    · next hk =>
      have hmem : ∀ node', node'.key = k → (node' ∈ (map.setBucket (map.bucketN node.key) bucket).nodes
          (map.bucketN k) ↔ node' ∈ map.nodes (map.bucketN k)) := by
        rintro node' rfl
        rw [hnodes]
        split
        · next hn =>
          have hne : node' ≠ node := fun h => hk (congrArg HashmapNode.key h)
          rw [hn, ← hperm.mem_iff, List.mem_cons, or_iff_right hne]
        · rfl
      exact h.get_congr hcmp hstores hcmp' hmem

theorem Stores.get_set [DecidableEq κ] (h : map.Stores) (hnone : map.get key = none) (k : κ) :
    (map.set key data).get k = if k = key then some data else map.get k := by
  rw [Hashmap.get_set h.ok]
  by_cases hk : k = key
  · subst hk
    rw [hnone, if_pos rfl, if_pos ⟨rfl, (hcmp k k).mpr rfl⟩, Option.none_or]
  · rw [if_neg hk, if_neg (fun h => hk ((hcmp key k).mp h.2).symm), Option.or_none]

end

def listed (map : Hashmap κ δ) : List (HashmapNode κ δ) :=
  (List.range' 0 map.buckets.stop).flatMap map.nodes

def visit {σ : Type w} (traverseCb : σ → HashmapNode κ δ → σ × Int) :
    List (HashmapNode κ δ) → σ → σ × Int
  | [], s => (s, 0)
  | node :: l, s =>
    if (traverseCb s node).2 ≠ 0 then traverseCb s node else visit traverseCb l (traverseCb s node).1

section
variable {σ : Type w} {traverseCb : σ → HashmapNode κ δ → σ × Int}

theorem visit_append (l m : List (HashmapNode κ δ)) (s : σ) :
    visit traverseCb (l ++ m) s = if (visit traverseCb l s).2 ≠ 0 then visit traverseCb l s
      else visit traverseCb m (visit traverseCb l s).1 := by
  induction l generalizing s with
  | nil => rfl
  | cons node l ih =>
    rw [List.cons_append, visit, visit]
    split
    · rfl
    · exact ih _

theorem traverseBucket_eq_visit (bucket : DArray (HashmapNode κ δ)) (m j : Nat) (s : σ) :
    traverseBucket traverseCb bucket m j s =
      visit traverseCb ((List.range' j m).filterMap bucket.get) s := by
  induction m generalizing j s with
  | zero => rfl
  | succ m ih =>
    rw [traverseBucket, List.range'_succ]
    cases hg : bucket.get j with
    | none => rw [List.filterMap_cons_none hg, ih]
    | some node =>
      rw [List.filterMap_cons_some hg, visit]
      dsimp only
      rw [ih]

theorem traverseLoop_eq_visit (m i : Nat) (s : σ) :
    traverseLoop traverseCb map m i s =
      visit traverseCb ((List.range' i m).flatMap map.nodes) s := by
  induction m generalizing i s with
  | zero => rfl
  | succ m ih =>
    rw [traverseLoop, List.range'_succ, List.flatMap_cons, visit_append, nodes]
    cases hg : map.buckets.get i with
    | none => exact ih ..
    | some bucket =>
      dsimp only
      rw [traverseBucket_eq_visit, ih]
      rfl

theorem traverse_eq_visit (s : σ) : map.traverse traverseCb s = visit traverseCb map.listed s :=
  traverseLoop_eq_visit ..

end

theorem Stores.mem_listed {node : HashmapNode κ δ} (h : map.Stores) :
    node ∈ map.listed ↔ node ∈ map.nodes (map.bucketN node.key) := by
  rw [listed, List.mem_flatMap]
  constructor
  · rintro ⟨n, -, hnode⟩
    rwa [(h.home n node hnode).1]
  · intro hnode
    refine ⟨_, ?_, hnode⟩
    rw [h.ok.full]
    simpa using h.ok.bucketN_lt node.key

theorem Stores.nodup_listed (h : map.Stores) : (map.listed.map (·.key)).Nodup := by
  rw [listed, List.map_flatMap, List.nodup_flatMap]
  refine ⟨fun n _ => h.nodup n, List.Pairwise.imp (fun hne => ?_) (List.nodup_range' ..)⟩
  apply List.disjoint_left.mpr
  intro k hk hk'
  obtain ⟨node, hnode, rfl⟩ := List.mem_map.mp hk
  obtain ⟨node', hnode', heq⟩ := List.mem_map.mp hk'
  apply hne
  rw [← (h.home _ node hnode).1, ← (h.home _ node' hnode').1, heq]

end Hashmap

inductive MapOp (κ : Type u) (δ : Type v)
  | set (key : κ) (data : δ)
  | get (key : κ)
  | delete (key : κ)

namespace MapOp

variable {κ : Type u} {δ : Type v}

def next (map : Hashmap κ δ) : MapOp κ δ → Hashmap κ δ
  | .set key data => map.set key data
  | .get _ => map
  | .delete key => (map.delete key).1

/-- A key is set only where a get returns NULL. -/
def Careful (map : Hashmap κ δ) : MapOp κ δ → Prop
  | .set key _ => map.get key = none
  | .get _ => True
  | .delete _ => True

structure Refines (map : Hashmap κ δ) (m : κ → Option δ) : Prop where
  stores : map.Stores
  compare : ∀ a b, map.compare a b = 0 ↔ a = b
  get : ∀ k, map.get k = m k

variable {map : Hashmap κ δ} {m : κ → Option δ} {op : MapOp κ δ}

theorem Refines.listed_iff {k : κ} {data : δ} (h : Refines map m) :
    (∃ node ∈ map.listed, node.key = k ∧ node.data = data) ↔ m k = some data := by
  rw [← h.get, h.stores.get_eq_some_iff h.compare]
  constructor
  · rintro ⟨node, hnode, rfl, hdata⟩
    exact ⟨node, h.stores.mem_listed.mp hnode, rfl, hdata⟩
  · rintro ⟨node, hnode, rfl, hdata⟩
    exact ⟨node, h.stores.mem_listed.mpr hnode, rfl, hdata⟩

variable [DecidableEq κ]

def act (m : κ → Option δ) : MapOp κ δ → κ → Option δ
  | .set key data => Function.update m key (some data)
  | .get _ => m
  | .delete key => Function.update m key none

def last (ops : List (MapOp κ δ)) : κ → Option δ := ops.foldl act (fun _ => none)

theorem Refines.next (h : Refines map m) (op : MapOp κ δ) (hop : Careful map op) : Refines (next map op) (act m op) := by
  obtain ⟨hstores, hcmp, hget⟩ := h
  cases op with
  | get key => exact ⟨hstores, hcmp, hget⟩
  | set key data =>
    refine ⟨hstores.set hcmp hop, ?_, fun k => ?_⟩
    · rwa [MapOp.next, Hashmap.set_compare hstores.ok]
    · rw [MapOp.next, hstores.get_set hcmp hop, act, Function.update_apply, hget]
  | delete key =>
    refine ⟨hstores.delete, ?_, fun k => ?_⟩
    · rwa [MapOp.next, Hashmap.delete_compare hstores]
    · rw [MapOp.next, hstores.get_delete hcmp, act, Function.update_apply, hget]

end MapOp

end Wspack.Pack
