import Mathlib.Data.List.Basic
import Mathlib.Algebra.Order.Ring.Nat

namespace Wspack.Lib

def wordBytes (n : Nat) : List UInt8 :=
  [UInt8.ofNat n, UInt8.ofNat (n / 256), UInt8.ofNat (n / 65536), UInt8.ofNat (n / 16777216)]

def readWord : List UInt8 → Nat
  | a :: b :: c :: d :: _ => a.toNat + 256 * b.toNat + 65536 * c.toNat + 16777216 * d.toNat
  | _ => 0

@[simp] theorem length_wordBytes (n : Nat) : (wordBytes n).length = 4 := rfl

theorem readWord_wordBytes {n : Nat} (h : n < 2 ^ 32) (rest : List UInt8) : readWord (wordBytes n ++ rest) = n := by
  simp only [wordBytes, List.cons_append, readWord, UInt8.toNat_ofNat']
  omega

end Wspack.Lib
