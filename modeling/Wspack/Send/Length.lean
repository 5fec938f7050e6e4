import Wspack.Send.Sender

namespace Wspack.Send

open Chunk

def nothingKnown (env : Env) (data : List UInt8) : Table → List (Nat × Nat) → Bool
  | _, [] => true
  | t, (start, length) :: l =>
    if length ≤ shaLen + 2 then nothingKnown env data t l
    else match env.sha1HashData ((data.drop start).take length) with
      | none => nothingKnown env data t l
      | some dst => match getHashItem t dst with
        | none => nothingKnown env data
            { addHashInfo env t dst length with
              sumNum := (addHashInfo env t dst length).sumNum + length } l
        | some _ => false

def replacedBytes (head : List ReplaceItem) : Nat :=
  (head.map (fun cp => cp.stop + 1 - cp.start)).sum

variable {env : Env} {data : List UInt8} {s : Sender} {start length pos n : Nat} {dst : KernelHash.Digest}

theorem buildHash_cases (env : Env) (data : List UInt8) (s : Sender) (start length : Nat) :
    ((buildHash env data s start length).head = s.head ∧
      (buildHash env data s start length).newLen = s.newLen ∧
      ∀ l, nothingKnown env data s.table ((start, length) :: l) =
        nothingKnown env data (buildHash env data s start length).table l) ∨
    (shaLen + 2 < length ∧
      (∃ dst, (buildHash env data s start length).head =
        s.head ++ [⟨start, start + length - 1, dst⟩]) ∧
      (buildHash env data s start length).newLen = s.newLen - (length - (shaLen + 2)) ∧
      ∀ l, nothingKnown env data s.table ((start, length) :: l) = false) := by
  by_cases hlen : length ≤ shaLen + 2
  · simp [buildHash, nothingKnown, hlen]
  · cases hd : env.sha1HashData ((data.drop start).take length) with
    | none => simp [buildHash, nothingKnown, hlen, hd]
    | some dst =>
      cases hg : getHashItem s.table dst with
      | none => simp [buildHash, nothingKnown, handHash, hlen, hd, hg]
      | some t =>
        refine .inr ⟨by omega, ⟨dst, ?_⟩, ?_, fun l => ?_⟩ <;>
          simp [buildHash, nothingKnown, handHash, hlen, hd, hg]

theorem replaceLoop_append (head : List ReplaceItem) (cp : ReplaceItem) (last index : Nat) :
    replaceLoop (head ++ [cp]) last index =
      (replaceLoop head last index).bind (fun p => replaceLoop [cp] p.1 p.2) := by
  induction head generalizing last index with
  | nil => rfl
  | cons cp' head ih =>
    simp only [List.cons_append, replaceLoop, ih]
    split
    · rfl
    · split <;> rfl

/-- The lengths of a packet of `n` bytes when the chunks before `pos` are done.  The walk
pays 20 bytes for a replaced chunk and `new_len` is charged 22. -/
structure Laid (n pos : Nat) (s : Sender) : Prop where
  walk : ∃ last index, replaceLoop s.head 0 0 = some (last, index) ∧ last ≤ pos ∧
    replacedBytes s.head ≤ last ∧ index + replacedBytes s.head = last + sha1Size * s.head.length
  charged : s.newLen + replacedBytes s.head = n + (shaLen + 2) * s.head.length

theorem Laid.chunk (h : Laid n pos s) (hlen : 0 < length) (hle : pos + length ≤ n) :
    Laid n (pos + length) (buildHash env data s pos length) := by
  obtain ⟨⟨last, index, hwalk, hlast, hbytes, hindex⟩, hcharged⟩ := h
  rcases buildHash_cases env data s pos length with
    ⟨hhead, hnew, _⟩ | ⟨hlong, ⟨dst, hhead⟩, hnew, _⟩
  · refine ⟨?_, by rw [hhead, hnew, hcharged]⟩
    rw [hhead]
    exact ⟨last, index, hwalk, by omega, hbytes, hindex⟩
  · have hbytes' : replacedBytes (buildHash env data s pos length).head =
        replacedBytes s.head + length := by
      simp only [hhead, replacedBytes, List.map_append, List.sum_append, List.map_cons, List.map_nil,
        List.sum_cons, List.sum_nil]
      omega
    have hcount : (buildHash env data s pos length).head.length = s.head.length + 1 := by
      rw [hhead, List.length_append, List.length_singleton]
    refine ⟨?_, ?_⟩
    · rw [hbytes', hcount, hhead, replaceLoop_append, hwalk, Option.bind_some]
      have hstop : pos + length - 1 + 1 = pos + length := by omega
      simp only [replaceLoop, hstop, sha1Size] at hindex ⊢
      rcases lt_or_eq_of_le hlast with hlt | rfl
      · rw [if_pos hlt]
        exact ⟨_, _, rfl, le_rfl, by omega, by omega⟩
      · rw [if_neg (lt_irrefl _), if_pos rfl]
        exact ⟨_, _, rfl, le_rfl, by omega, by omega⟩
    · rw [hbytes', hcount, hnew]
      simp only [shaLen] at hcharged hlong ⊢
      omega

theorem Laid.chunks {l : List (Nat × Nat)} (ht : Tiles pos l n) (h : Laid n pos s) :
    Laid n n (l.foldl (fun s r => buildHash env data s r.1 r.2) s) := by
  induction ht generalizing s with
  | nil => exact h
  | cons hlen ht ih => exact ih (h.chunk hlen ht.le)

theorem laid_nfOut (env : Env) (t : Table) (data : List UInt8) :
    Laid data.length data.length (nfOut env t data) := by
  have h0 : ∀ pos, Laid data.length pos { table := t, head := [], newLen := data.length } :=
    fun pos => ⟨⟨0, 0, rfl, Nat.zero_le _, le_rfl, rfl⟩, rfl⟩
  rw [nfOut, getPartition_eq]
  by_cases h : chunkNum < data.length
  · exact (h0 0).chunks (tiles_chunkRanges h)
  · rw [chunkRanges, if_neg h]
    exact h0 _

theorem replaceSkb_nfOut (env : Env) (t : Table) (data : List UInt8) :
    ∃ index, replaceSkb (nfOut env t data).head data.length = some index ∧
      index + 2 * (nfOut env t data).head.length = (nfOut env t data).newLen := by
  obtain ⟨⟨last, index, hwalk, hlast, hbytes, hindex⟩, hcharged⟩ := laid_nfOut env t data
  simp only [replaceSkb, hwalk, Option.map_some, Option.some.injEq, exists_eq_left']
  simp only [sha1Size, shaLen] at hindex hcharged
  split <;> omega

theorem foldl_head (l : List (Nat × Nat)) (s : Sender) :
    s.head.length ≤ (l.foldl (fun s r => buildHash env data s r.1 r.2) s).head.length ∧
      ((l.foldl (fun s r => buildHash env data s r.1 r.2) s).head.length = s.head.length ↔
        nothingKnown env data s.table l = true) := by
  induction l generalizing s with
  | nil => simp [nothingKnown]
  | cons r l ih =>
    obtain ⟨start, length⟩ := r
    obtain ⟨hle, hiff⟩ := ih (buildHash env data s start length)
    simp only [List.foldl_cons]
    rcases buildHash_cases env data s start length with
      ⟨hhead, _, hknown⟩ | ⟨_, ⟨dst, hhead⟩, _, hknown⟩
    · rw [hhead] at hle hiff
      rw [hknown]
      exact ⟨hle, hiff⟩
    · rw [hhead, List.length_append, List.length_singleton] at hle
      rw [hknown]
      exact ⟨by omega, by simp only [Bool.false_eq_true, iff_false]; omega⟩

theorem index_eq_newLen_iff (env : Env) (t : Table) (data : List UInt8) :
    ∃ index, replaceSkb (nfOut env t data).head data.length = some index ∧
      (index = (nfOut env t data).newLen ↔ nothingKnown env data t (chunkRanges data) = true) := by
  obtain ⟨index, hindex, hlen⟩ := replaceSkb_nfOut env t data
  have hiff := (@foldl_head env data (chunkRanges data)
    { table := t, head := [], newLen := data.length }).2
  rw [← getPartition_eq] at hiff
  refine ⟨index, hindex, ?_⟩
  rw [← hiff]
  simp only [List.length_nil, nfOut] at hlen ⊢
  omega

def sha1OfAs : KernelHash.Digest :=
  #v[104, 248, 74, 89, 163, 202, 45, 14, 92, 177, 100, 111, 187, 22, 77, 164, 9, 181, 216, 242]

def envOfAs : Env where
  sha1HashData c := if c = List.replicate 32 97 then some sha1OfAs else none
  hashMaxCount := 1000
  zalloc _ := true

def emptyTable : Table := { hashTab := fun _ => [], hashCount := 0, allocs := 0, sumNum := 0, saveNum := 0 }

theorem index_ne_newLen : ∃ index,
    replaceSkb (nfOut envOfAs (nfOut envOfAs emptyTable (List.replicate 40 97)).table
        (List.replicate 40 97)).head 40 = some index ∧
      index ≠ (nfOut envOfAs (nfOut envOfAs emptyTable (List.replicate 40 97)).table
        (List.replicate 40 97)).newLen :=
  ⟨28, by decide +kernel, by decide +kernel⟩

end Wspack.Send
