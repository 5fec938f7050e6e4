import Wspack.KernelHash.Item

namespace Wspack.KernelHash

def hashTabSize : UInt32 := (1 : UInt32) <<< 20

def hashJenMix (a b c : UInt32) : UInt32 × UInt32 × UInt32 :=
  let a := (a - b - c) ^^^ (c >>> 13)
  let b := (b - c - a) ^^^ (a <<< 8)
  let c := (c - a - b) ^^^ (b >>> 13)
  let a := (a - b - c) ^^^ (c >>> 12)
  let b := (b - c - a) ^^^ (a <<< 16)
  let c := (c - a - b) ^^^ (b >>> 5)
  let a := (a - b - c) ^^^ (c >>> 3)
  let b := (b - c - a) ^^^ (a <<< 10)
  let c := (c - a - b) ^^^ (b >>> 15)
  (a, b, c)

def hashJenWord (k0 k1 k2 k3 : UInt8) : UInt32 :=
  k0.toUInt32 + (k1.toUInt32 <<< 8) + (k2.toUInt32 <<< 16) + (k3.toUInt32 <<< 24)

/-- The loop over blocks of twelve bytes and the fall-through switch over the rest, where
a byte the rest does not have adds nothing. -/
def hashJenLoop (keylen : UInt32) : List UInt8 → UInt32 → UInt32 → UInt32 → UInt32
  | k0 :: k1 :: k2 :: k3 :: k4 :: k5 :: k6 :: k7 :: k8 :: k9 :: k10 :: k11 :: key, i, j, hashv =>
    let (i, j, hashv) := hashJenMix (i + hashJenWord k0 k1 k2 k3) (j + hashJenWord k4 k5 k6 k7)
      (hashv + hashJenWord k8 k9 k10 k11)
    hashJenLoop keylen key i j hashv
  | key, i, j, hashv =>
    let k := fun n => key.getD n 0
    (hashJenMix (i + hashJenWord (k 0) (k 1) (k 2) (k 3)) (j + hashJenWord (k 4) (k 5) (k 6) (k 7))
      (hashv + keylen + hashJenWord 0 (k 8) (k 9) (k 10))).2.2

def hashJen (key : List UInt8) : UInt32 :=
  hashJenLoop key.length.toUInt32 key 0x9e3779b9 0x9e3779b9 0xfeedbeef

def bkt (info : Digest) : Nat := (hashJen info.toList &&& (hashTabSize - 1)).toNat

theorem bkt_lt (info : Digest) : bkt info < hashTabSize.toNat := by
  have h : (hashJen info.toList &&& (hashTabSize - 1)).toNat ≤ (hashTabSize - 1).toNat := by
    rw [UInt32.toNat_and]
    exact Nat.and_le_right
  exact lt_of_le_of_lt h (by decide)

end Wspack.KernelHash
