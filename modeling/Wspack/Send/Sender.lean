import Wspack.KernelHash.Jenkins
import Wspack.Chunk.Tiling

/-! The sender of `send_module`: the fingerprint table, the replacement of known chunks in a
packet, and the layout walk of `replace_skb`.  Allocations other than that of a table item
succeed. -/

namespace Wspack.Send

open KernelHash (Digest bkt wrapInt)
open Chunk (getPartition)

def sha1Size : Nat := 20
def shaLen : Nat := 20
def itemCiteAdd : Int := 6
def itemCiteFind : Int := 6

structure HashinfoItem where
  refcnt : Int
  len : Nat
  sha1 : Digest
  deriving DecidableEq

/-- The table and the statistics; `allocs` counts the calls of `kmem_cache_zalloc` for
items. -/
structure Table where
  hashTab : Nat → List HashinfoItem
  hashCount : Int
  allocs : Nat
  sumNum : Int
  saveNum : Int

/-- What the sender takes from outside: the crypto layer behind `tcp_v4_sha1_hash_data`,
which may fail, the limit on the table, and which item allocations succeed. -/
structure Env where
  sha1HashData : List UInt8 → Option Digest
  hashMaxCount : Int
  zalloc : Nat → Bool

structure ReplaceItem where
  start : Nat
  stop : Nat
  sha1 : Digest
  deriving DecidableEq

def hitFirst (info : Digest) : List HashinfoItem → Option (List HashinfoItem)
  | [] => none
  | cp :: l =>
    if cp.sha1 = info then some ({ cp with refcnt := wrapInt (cp.refcnt + itemCiteFind) } :: l)
    else (hitFirst info l).map (cp :: ·)

def getHashItem (t : Table) (info : Digest) : Option Table :=
  (hitFirst info (t.hashTab (bkt info))).map (fun l =>
    { t with hashTab := Function.update t.hashTab (bkt info) l })

/-- `add_hash_info`; a failure is only logged by the caller. -/
def addHashInfo (env : Env) (t : Table) (info : Digest) (len : Nat) : Table :=
  if t.hashCount > env.hashMaxCount then t
  else if !env.zalloc t.allocs then { t with allocs := t.allocs + 1 }
  else { t with
    hashTab := Function.update t.hashTab (bkt info)
      (⟨itemCiteAdd, len, info⟩ :: t.hashTab (bkt info))
    hashCount := t.hashCount + 1
    allocs := t.allocs + 1 }

structure Sender where
  table : Table
  head : List ReplaceItem
  newLen : Nat

def handHash (env : Env) (s : Sender) (len : Nat) (dst : Digest) : Sender × Bool :=
  match getHashItem s.table dst with
  | none =>
    let t := addHashInfo env s.table dst len
    ({ s with table := { t with sumNum := t.sumNum + len } }, false)
  | some t =>
    ({ s with
        table := { t with
          sumNum := t.sumNum + len
          saveNum := t.saveNum + (len - (shaLen + 2)) }
        newLen := s.newLen - (len - (shaLen + 2)) }, true)

def buildHash (env : Env) (src : List UInt8) (s : Sender) (start length : Nat) : Sender :=
  if length ≤ shaLen + 2 then s
  else match env.sha1HashData ((src.drop start).take length) with
    | none => s
    | some dst =>
      let (s, found) := handHash env s length dst
      if found then { s with head := s.head ++ [⟨start, start + length - 1, dst⟩] } else s

/-- The list walk of `replace_skb` with `last` and `index`; `none` is its `BUG()`. -/
def replaceLoop : List ReplaceItem → (last index : Nat) → Option (Nat × Nat)
  | [], last, index => some (last, index)
  | cp :: head, last, index =>
    if last < cp.start then replaceLoop head (cp.stop + 1) (index + (cp.start - last) + sha1Size)
    else if cp.start = last then replaceLoop head (cp.stop + 1) (index + sha1Size)
    else none

def replaceSkb (head : List ReplaceItem) (oldLen : Nat) : Option Nat :=
  (replaceLoop head 0 0).map (fun (last, index) =>
    if last ≠ oldLen then index + (oldLen - last) else index)

def nfOut (env : Env) (t : Table) (data : List UInt8) : Sender :=
  getPartition (buildHash env data)
    { table := t, head := [], newLen := data.length } data

end Wspack.Send
