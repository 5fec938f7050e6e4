import Mathlib.Data.List.Basic
import Mathlib.Algebra.Order.Ring.Nat

universe u

namespace Wspack.Lib

section Buffer

variable {α : Type u} {rest bs mem : List α}

/-- A write that does not fit the buffer has no result. -/
def writeAt (mem : List α) (off : ℕ) (bs : List α) : Option (List α) :=
  if off + bs.length ≤ mem.length then some (mem.take off ++ bs ++ mem.drop (off + bs.length))
  else none

theorem writeAt_append (pre : List α) (h : bs.length ≤ rest.length) :
    writeAt (pre ++ rest) pre.length bs = some (pre ++ bs ++ rest.drop bs.length) := by
  have hfit : pre.length + bs.length ≤ (pre ++ rest).length := by simpa using h
  rw [writeAt, if_pos hfit, List.take_left, List.drop_length_add_append]

theorem writeAt_zero (h : bs.length ≤ mem.length) :
    writeAt mem 0 bs = some (bs ++ mem.drop bs.length) :=
  writeAt_append [] h

variable [DecidableEq α] {nul : α} {s : List α}

def strlen (nul : α) (mem : List α) : ℕ := (mem.takeWhile (· ≠ nul)).length

theorem strlen_append (h : nul ∉ s) : strlen nul (s ++ nul :: rest) = s.length := by
  have hs : ∀ c ∈ s, decide (c ≠ nul) = true := by
    intro c hc
    exact decide_eq_true (fun e => h (e ▸ hc))
  rw [strlen, List.takeWhile_append_of_pos hs, List.takeWhile_cons_of_neg (by simp), List.append_nil]

end Buffer

section Numeral

def hexPair (b : UInt8) : List Char := [Nat.digitChar (b.toNat / 16), Nat.digitChar (b.toNat % 16)]

def hexValue (c : Char) : Option ℕ :=
  if '0' ≤ c ∧ c ≤ '9' then some (c.toNat - 48)
  else if 'a' ≤ c ∧ c ≤ 'f' then some (c.toNat - 87)
  else none

theorem hexValue_digitChar {n : ℕ} (h : n < 16) : hexValue (Nat.digitChar n) = some n := by
  have hall : ∀ n : Fin 16, hexValue (Nat.digitChar n) = some n.val := by decide
  exact hall ⟨n, h⟩

def hexText (sep : Char) (bs : List UInt8) : List Char := bs.flatMap fun b => hexPair b ++ [sep]

theorem length_hexText (sep : Char) (bs : List UInt8) : (hexText sep bs).length = 3 * bs.length := by
  induction bs with
  | nil => rfl
  | cons b bs ih =>
    rw [hexText, List.flatMap_cons, List.length_append, ← hexText, ih, List.length_cons]
    simp [hexPair]
    omega

def unhex (sep : Char) : List Char → Option (List UInt8)
  | [] => some []
  | a :: b :: c :: s =>
    if c = sep then do
      return UInt8.ofNat (16 * (← hexValue a) + (← hexValue b)) :: (← unhex sep s)
    else none
  | _ => none

theorem unhex_hexText (sep : Char) (bs : List UInt8) : unhex sep (hexText sep bs) = some bs := by
  induction bs with
  | nil => rfl
  | cons b bs ih =>
    have hb := b.toNat_lt
    have hhigh := hexValue_digitChar (show b.toNat / 16 < 16 by omega)
    have hlow := hexValue_digitChar (show b.toNat % 16 < 16 by omega)
    have hbyte : 16 * (b.toNat / 16) + b.toNat % 16 = b.toNat := by omega
    change unhex sep (_ :: _ :: sep :: hexText sep bs) = _
    rw [unhex, if_pos rfl, hhigh, hlow, ih]
    simp only [Option.bind_eq_bind, Option.bind_some, hbyte, UInt8.ofNat_toNat]
    rfl

def isHex (c : Char) : Bool := (hexValue c).isSome

theorem isHex_of_mem_hexText {sep c : Char} {bs : List UInt8} (h : c ∈ hexText sep bs) :
    isHex c = true ∨ c = sep := by
  obtain ⟨b, -, hc⟩ := List.mem_flatMap.mp h
  have hb := b.toNat_lt
  simp only [hexPair, List.cons_append, List.nil_append, List.mem_cons, List.not_mem_nil, or_false] at hc
  rcases hc with rfl | rfl | rfl
  · exact .inl (by rw [isHex, hexValue_digitChar (by omega)]; rfl)
  · exact .inl (by rw [isHex, hexValue_digitChar (by omega)]; rfl)
  · exact .inr rfl

def ofDecimal (s : List Char) : Option ℕ :=
  if s ≠ [] ∧ s.all Char.isDigit then some (Nat.ofDigitChars 10 s 0) else none

theorem ofDecimal_toDigits (n : ℕ) : ofDecimal (Nat.toDigits 10 n) = some n := by
  have hdigits : (Nat.toDigits 10 n).all Char.isDigit = true :=
    List.all_eq_true.mpr fun _ hc => Nat.isDigit_of_mem_toDigits (by decide) (by decide) hc
  rw [ofDecimal, if_pos ⟨Nat.toDigits_ne_nil, hdigits⟩, Nat.ofDigitChars_toDigits (by decide) (by decide)]

end Numeral

section Lines

variable {α : Type u} {p : α → Bool} {w u s : List α} {c : α}

def splitWords (p : α → Bool) (w : List α) : List α → List (List α)
  | [] => if w.isEmpty then [] else [w]
  | c :: s =>
    if p c then (if w.isEmpty then splitWords p [] s else w :: splitWords p [] s)
    else splitWords p (w ++ [c]) s

theorem splitWords_append (h : ∀ c ∈ u, p c = false) :
    splitWords p w (u ++ s) = splitWords p (w ++ u) s := by
  induction u generalizing w with
  | nil => simp
  | cons c u ih =>
    obtain ⟨hc, hu⟩ := List.forall_mem_cons.mp h
    rw [List.cons_append, splitWords, hc, if_neg (by decide), ih hu, List.append_assoc, List.singleton_append]

theorem splitWords_cons (hw : w ≠ []) (hc : p c = true) :
    splitWords p w (c :: s) = w :: splitWords p [] s := by
  rw [splitWords, if_pos hc, if_neg (by simpa using hw)]

theorem splitWords_last (hw : w ≠ []) : splitWords p w [] = [w] := by
  rw [splitWords, if_neg (by simpa using hw)]

variable [DecidableEq α] {nl : α}

def lines (nl : α) : List α → List (List α)
  | [] => []
  | c :: s =>
    if c = nl then [c] :: lines nl s
    else match lines nl s with
      | [] => [[c]]
      | l :: ls => (c :: l) :: ls

theorem lines_append (h : nl ∉ w) : lines nl (w ++ nl :: s) = (w ++ [nl]) :: lines nl s := by
  induction w with
  | nil => simp [lines]
  | cons c w ih =>
    obtain ⟨hc, hw⟩ := not_or.mp (List.mem_cons.not.mp h)
    rw [List.cons_append, lines, if_neg (Ne.symm hc), ih hw]
    rfl

theorem lines_flatten {ls : List (List α)} (h : ∀ l ∈ ls, nl ∉ l) :
    lines nl (ls.flatMap (· ++ [nl])) = ls.map (· ++ [nl]) := by
  induction ls with
  | nil => rfl
  | cons l ls ih =>
    obtain ⟨hl, hls⟩ := List.forall_mem_cons.mp h
    rw [List.flatMap_cons, List.append_assoc, List.singleton_append, lines_append hl, ih hls, List.map_cons]

end Lines

end Wspack.Lib
