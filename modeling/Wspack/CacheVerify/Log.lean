import Wspack.CacheVerify.Table
import Wspack.Lib.Text

namespace Wspack.CacheVerify

open Lib
open KernelHash (Digest chunkStep)

def nul : Char := '\x00'

/-- The locals of the second pass of `wr_file`, with sizes in ℕ. -/
structure Format where
  copyMem : List Char
  memIndex : Nat
  tmpStr : List Char

/-- `sprintf(mem + off, "%02x:", b)` for one byte after the other, terminators included. -/
def sprintHex (mem : List Char) (off : Nat) : List UInt8 → Option (List Char)
  | [] => some mem
  | b :: bs => do sprintHex (← writeAt mem off (hexPair b ++ [':', nul])) (off + 3) bs

def formatDigest (tmpStr : List Char) (sha1 : Digest) : Option (List Char) := do
  let tmpStr ← writeAt tmpStr 0 (List.replicate chunkStep nul)
  let tmpStr ← writeAt tmpStr (strlen nul tmpStr) [' ', nul]
  sprintHex tmpStr (strlen nul tmpStr) sha1.toList

def formatTail (tmpStr : List Char) (cp : HashinfoItem) : Option (List Char) := do
  let tmpStr ← formatDigest tmpStr cp.sha1
  writeAt tmpStr (strlen nul tmpStr) (' ' :: Nat.toDigits 10 cp.len ++ ['\n', nul])

def formatRecord (cp : HashinfoItem) (f : Format) : Option Format := do
  let copyMem ← sprintHex f.copyMem f.memIndex cp.data.bytes
  let memIndex := f.memIndex + 3 * cp.len
  let tmpStr ← formatTail f.tmpStr cp
  let copyMem ← writeAt copyMem memIndex (tmpStr.take (strlen nul tmpStr))
  return ⟨copyMem, memIndex + strlen nul tmpStr, tmpStr⟩

def formatItem (cp : HashinfoItem) (f : Format) : Option (HashinfoItem × Format) :=
  if itemDiskLimit ≤ cp.dataRefcnt then do
    formatItem { cp with dataRefcnt := cp.dataRefcnt - 1 } (← formatRecord cp f)
  else some (cp, f)
termination_by (cp.dataRefcnt - itemDiskLimit + 1).toNat

def formatList : List HashinfoItem → Format → Option (List HashinfoItem × Format)
  | [], f => some ([], f)
  | cp :: l, f => do
    let (cp, f) ← formatItem cp f
    let (l, f) ← formatList l f
    return (cp :: l, f)

def sumItem (len : Nat) (dataRefcnt : Int) (allSize stAllSize : Nat) : Nat × Nat :=
  if itemDiskLimit ≤ dataRefcnt then
    sumItem len (dataRefcnt - 1) (allSize + (len + chunkStep) * 3) (stAllSize + len)
  else (allSize, stAllSize)
termination_by (dataRefcnt - itemDiskLimit + 1).toNat

def sumList : List HashinfoItem → Nat → Nat → Nat × Nat
  | [], allSize, stAllSize => (allSize, stAllSize)
  | cp :: l, allSize, stAllSize =>
    let (allSize, stAllSize) := sumItem cp.len cp.dataRefcnt allSize stAllSize
    sumList l allSize stAllSize

/-- What `wr_file` meets: whether `kzalloc` and `kernel_write` succeed, and what the stack
holds where `tmp_str` is put. -/
structure Env where
  copyMem : Bool
  kernelWrite : Bool
  tmpStr : Vector Char (3 * chunkStep)

/-- `wr_file` on the bucket `data`, and the bytes that it hands to `kernel_write` at the
position `loff_file` of the CPU. -/
def Table.wrFile (t : Table) (data cpu : Nat) (env : Env) : Except Fault (Table × List Char) :=
  let t := { t with pending := Function.update t.pending data false }
  let (allSize, stAllSize) := sumList (t.hashTab data) 0 0
  if allSize = 0 then .ok (t, [])
  else if env.copyMem = false then .error .copyMem
  else match formatList (t.hashTab data) ⟨List.replicate allSize nul, 0, env.tmpStr.toList⟩ with
    | none => .error .overflow
    | some (l, f) =>
      if env.kernelWrite = false then .error .kernelWrite
      else .ok ({ t with
          hashTab := Function.update t.hashTab data l
          mmw := t.mmw + stAllSize
          loffFile := Function.update t.loffFile cpu (t.loffFile cpu + f.memIndex) },
        f.copyMem.take f.memIndex)

def isSpace (c : Char) : Bool :=
  c = ' ' || c = '\t' || c = '\n' || c = '\r' || c = '\x0b' || c = '\x0c'

/-- A line as `statistics.py` takes it apart, with the three fields decoded. -/
def parseLine (line : List Char) : Option (List UInt8 × List UInt8 × Nat) :=
  match splitWords isSpace [] line.dropLast with
  | [value, sha, valueLen] => do
    return (← unhex ':' value, ← unhex ':' sha, ← ofDecimal valueLen)
  | _ => none

/-- How often `wr_file` writes the item: `max(0, data_refcnt - ITEM_DISK_LIMIT + 1)`. -/
def HashinfoItem.copies (cp : HashinfoItem) : Nat := (cp.dataRefcnt - itemDiskLimit + 1).toNat

theorem nul_not_mem_hexText (bs : List UInt8) : nul ∉ hexText ':' bs := by
  intro h
  rcases isHex_of_mem_hexText h with h | h
  · exact absurd h (by decide)
  · exact absurd h (by decide)

theorem nul_not_mem_toDigits (n : Nat) : nul ∉ Nat.toDigits 10 n := by
  intro h
  exact absurd (Nat.isDigit_of_mem_toDigits (by decide) (by decide) h) (by decide)

theorem sprintHex_append (pre : List Char) {rest : List Char} {bs : List UInt8} (hbs : bs ≠ [])
    (h : 3 * bs.length < rest.length) :
    sprintHex (pre ++ rest) pre.length bs =
      some (pre ++ hexText ':' bs ++ nul :: rest.drop (3 * bs.length + 1)) := by
  induction bs generalizing pre rest with
  | nil => exact absurd rfl hbs
  | cons b bs ih =>
    have hlen : (hexPair b ++ [':', nul]).length = 4 := rfl
    have hpre : (pre ++ hexPair b ++ [':']).length = pre.length + 3 := by simp [hexPair]
    rw [List.length_cons] at h
    rw [sprintHex, writeAt_append _ (by rw [hlen]; omega), hlen]
    change sprintHex _ _ bs = _
    have hsplit : pre ++ (hexPair b ++ [':', nul]) ++ rest.drop 4 =
        (pre ++ hexPair b ++ [':']) ++ nul :: rest.drop 4 := by simp
    rw [hsplit, ← hpre]
    cases bs with
    | nil => simp [sprintHex, hexText]
    | cons c bs =>
      have hroom : 3 * (c :: bs).length < (nul :: rest.drop 4).length := by
        simp only [List.length_cons, List.length_drop] at h ⊢; omega
      have hdrop : 4 + 3 * (c :: bs).length = 3 * (b :: c :: bs).length + 1 := by
        simp only [List.length_cons]; omega
      rw [ih _ (by simp) hroom, List.drop_succ_cons, List.drop_drop, hdrop]
      simp [hexText]

def tailText (cp : HashinfoItem) : List Char :=
  ' ' :: hexText ':' cp.sha1.toList ++ ' ' :: Nat.toDigits 10 cp.len ++ ['\n']

theorem length_toDigits_len (cp : HashinfoItem) : (Nat.toDigits 10 cp.len).length ≤ 5 := by
  rw [Nat.length_toDigits_le_iff (by decide) (by decide)]
  have := cp.data.fits
  rw [HashinfoItem.len]
  omega

theorem length_tailText (cp : HashinfoItem) : (tailText cp).length ≤ 68 := by
  have hlen := length_toDigits_len cp
  have hsha := length_hexText ':' cp.sha1.toList
  rw [Vector.length_toList] at hsha
  simp only [tailText, List.length_append, List.length_cons, List.length_nil]
  omega

theorem nul_not_mem_tailText (cp : HashinfoItem) : nul ∉ tailText cp := by
  have hsp : nul ≠ ' ' := by decide
  have hnl : nul ≠ '\n' := by decide
  simp [tailText, nul_not_mem_hexText, nul_not_mem_toDigits, hsp, hnl]

theorem length_hexText_digest (sha1 : Digest) : (hexText ':' sha1.toList).length = 60 := by
  rw [length_hexText, Vector.length_toList]

theorem formatDigest_eq {tmpStr : List Char} (sha1 : Digest) (h : tmpStr.length = 3 * chunkStep) :
    ∃ rest, formatDigest tmpStr sha1 = some (' ' :: hexText ':' sha1.toList ++ nul :: rest) ∧
      rest.length = 34 := by
  have hne : sha1.toList ≠ [] := by
    apply List.ne_nil_of_length_pos
    rw [Vector.length_toList]
    decide
  let cleared := List.replicate chunkStep nul ++ tmpStr.drop chunkStep
  have hcleared : cleared.length = 96 := by
    simp [cleared, h, chunkStep]
  have hmemset : writeAt tmpStr 0 (List.replicate chunkStep nul) = some cleared := by
    rw [writeAt_zero (by simp [h]; omega), List.length_replicate]
  have hzero : strlen nul cleared = 0 := strlen_append (s := []) (by simp)
  have hstrcat : writeAt cleared 0 [' ', nul] = some ([' '] ++ nul :: cleared.drop 2) :=
    writeAt_zero (by simp [hcleared])
  have hone : strlen nul ([' '] ++ nul :: cleared.drop 2) = 1 := strlen_append (by decide)
  have hroom : 3 * sha1.toList.length < (nul :: cleared.drop 2).length := by
    simp [hcleared]
  have hdigest := sprintHex_append [' '] hne hroom
  refine ⟨(nul :: cleared.drop 2).drop (3 * sha1.toList.length + 1), ?_, ?_⟩
  · simp only [formatDigest, Option.bind_eq_bind, Option.bind_some, hmemset, hzero, hstrcat, hone]
    exact hdigest
  · simp [hcleared]

theorem formatTail_eq {tmpStr : List Char} (cp : HashinfoItem) (h : tmpStr.length = 3 * chunkStep) :
    ∃ rest, formatTail tmpStr cp = some (tailText cp ++ nul :: rest) ∧
      (tailText cp ++ nul :: rest).length = 3 * chunkStep := by
  obtain ⟨rest, hdigest, hrest⟩ := formatDigest_eq cp.sha1 h
  have hsha := length_hexText_digest cp.sha1
  have hlen := length_toDigits_len cp
  let digest := ' ' :: hexText ':' cp.sha1.toList
  let number := ' ' :: Nat.toDigits 10 cp.len ++ ['\n', nul]
  have hnumber : number.length ≤ 8 := by
    simp [number]; omega
  have hstrlen : strlen nul (digest ++ nul :: rest) = digest.length :=
    strlen_append (by simp [digest, nul_not_mem_hexText, show nul ≠ ' ' by decide])
  have hwrite : writeAt (digest ++ nul :: rest) digest.length number =
      some (digest ++ number ++ (nul :: rest).drop number.length) :=
    writeAt_append _ (by rw [List.length_cons, hrest]; omega)
  have htext : digest ++ number ++ (nul :: rest).drop number.length =
      tailText cp ++ nul :: (nul :: rest).drop number.length := by
    simp [digest, number, tailText]
  refine ⟨(nul :: rest).drop number.length, ?_, ?_⟩
  · rw [formatTail, hdigest, Option.bind_eq_bind, Option.bind_some, hstrlen, hwrite, htext]
  · rw [← htext]
    simp [digest, hsha, hrest, chunkStep]
    omega

def lineText (cp : HashinfoItem) : List Char :=
  hexText ':' cp.data.bytes ++ ' ' :: hexText ':' cp.sha1.toList ++ ' ' :: Nat.toDigits 10 cp.len

theorem lineText_append (cp : HashinfoItem) :
    hexText ':' cp.data.bytes ++ tailText cp = lineText cp ++ ['\n'] := by
  simp [tailText, lineText]

structure Filled (f : Format) (text : List Char) (room : Nat) : Prop where
  mem : ∃ rest, f.copyMem = text ++ rest ∧ room ≤ rest.length
  index : f.memIndex = text.length
  tmp : f.tmpStr.length = 3 * chunkStep

theorem formatRecord_filled {cp : HashinfoItem} {f : Format} {text : List Char} {room : Nat}
    (h : Filled f text (room + (cp.len + chunkStep) * 3)) :
    ∃ f', formatRecord cp f = some f' ∧ Filled f' (text ++ (lineText cp ++ ['\n'])) room := by
  obtain ⟨rest, hmem, hroom⟩ := h.mem
  obtain ⟨left, htail, hleft⟩ := formatTail_eq cp h.tmp
  have hlong := cp.data.long
  have hlen := length_tailText cp
  have hdata := length_hexText ':' cp.data.bytes
  rw [HashinfoItem.len, chunkStep] at hroom
  have hfits : 3 * cp.data.bytes.length < rest.length := by omega
  have hsprint := sprintHex_append text (List.ne_nil_of_length_pos (by omega)) hfits
  let behind := nul :: rest.drop (3 * cp.data.bytes.length + 1)
  have hbehind : behind.length = rest.length - 3 * cp.data.bytes.length := by
    simp only [behind, List.length_cons, List.length_drop]
    omega
  have hindex : text.length + 3 * cp.len = (text ++ hexText ':' cp.data.bytes).length := by
    rw [List.length_append, hdata, HashinfoItem.len]
  have hstrlen : strlen nul (tailText cp ++ nul :: left) = (tailText cp).length :=
    strlen_append (nul_not_mem_tailText cp)
  have hleft' : (tailText cp).length ≤ behind.length := by omega
  have hcopy := writeAt_append (text ++ hexText ':' cp.data.bytes) hleft'
  have hline : text ++ hexText ':' cp.data.bytes ++ tailText cp = text ++ (lineText cp ++ ['\n']) := by
    rw [List.append_assoc, lineText_append]
  refine ⟨⟨text ++ (lineText cp ++ ['\n']) ++ behind.drop (tailText cp).length,
    (text ++ (lineText cp ++ ['\n'])).length, tailText cp ++ nul :: left⟩, ?_, ?_, rfl, hleft⟩
  · simp only [formatRecord, Option.bind_eq_bind, hmem, h.index, hsprint, htail, Option.bind_some,
      hstrlen, List.take_left, hindex]
    rw [hcopy, ← List.length_append, hline]
    rfl
  · refine ⟨_, rfl, ?_⟩
    rw [List.length_drop]
    omega

def HashinfoItem.settle (cp : HashinfoItem) : HashinfoItem :=
  { cp with dataRefcnt := min cp.dataRefcnt (itemDiskLimit - 1) }

def HashinfoItem.lineTexts (cp : HashinfoItem) : List (List Char) :=
  List.replicate cp.copies (lineText cp)

def logText (ls : List (List Char)) : List Char := ls.flatMap (· ++ ['\n'])

def HashinfoItem.recordSize (cp : HashinfoItem) : Nat := cp.copies * ((cp.len + chunkStep) * 3)

theorem formatItem_filled {cp : HashinfoItem} {f : Format} {text : List Char} {room : Nat}
    (h : Filled f text (room + cp.recordSize)) :
    ∃ f', formatItem cp f = some (cp.settle, f') ∧ Filled f' (text ++ logText cp.lineTexts) room := by
  generalize hn : cp.copies = n
  induction n generalizing cp f text with
  | zero =>
    have hlow : cp.dataRefcnt < itemDiskLimit := by
      rw [HashinfoItem.copies] at hn; omega
    refine ⟨f, ?_, ?_⟩
    · rw [formatItem, if_neg (by omega), HashinfoItem.settle, min_eq_left (by omega)]
    · simpa [HashinfoItem.recordSize, HashinfoItem.lineTexts, logText, hn] using h
  | succ n ih =>
    have hlow : itemDiskLimit ≤ cp.dataRefcnt := by
      rw [HashinfoItem.copies] at hn; omega
    let cp' := { cp with dataRefcnt := cp.dataRefcnt - 1 }
    have hn' : cp'.copies = n := by
      rw [HashinfoItem.copies] at hn ⊢
      change (cp.dataRefcnt - 1 - itemDiskLimit + 1).toNat = n
      omega
    have hsize : cp.recordSize = cp'.recordSize + (cp.len + chunkStep) * 3 := by
      rw [HashinfoItem.recordSize, HashinfoItem.recordSize, hn, hn', Nat.succ_mul]
      rfl
    rw [hsize, ← add_assoc] at h
    obtain ⟨f₁, hrecord, h₁⟩ := formatRecord_filled h
    obtain ⟨f₂, hitem, h₂⟩ := ih h₁ hn'
    refine ⟨f₂, ?_, ?_⟩
    · rw [formatItem, if_pos hlow, hrecord]
      change formatItem cp' f₁ = _
      rw [hitem, HashinfoItem.settle, HashinfoItem.settle]
      change some ({ cp with dataRefcnt := min (cp.dataRefcnt - 1) (itemDiskLimit - 1) }, f₂) = _
      rw [min_eq_right (by omega), min_eq_right (by omega)]
    · have htexts : cp.lineTexts = lineText cp :: cp'.lineTexts := by
        rw [HashinfoItem.lineTexts, hn, List.replicate_succ, HashinfoItem.lineTexts, hn']
        rfl
      rw [htexts, logText, List.flatMap_cons, ← List.append_assoc]
      exact h₂

theorem formatList_filled {l : List HashinfoItem} {f : Format} {text : List Char} {room : Nat}
    (h : Filled f text (room + (l.map HashinfoItem.recordSize).sum)) :
    ∃ f', formatList l f = some (l.map HashinfoItem.settle, f') ∧
      Filled f' (text ++ logText (l.flatMap HashinfoItem.lineTexts)) room := by
  induction l generalizing f text with
  | nil =>
    refine ⟨f, rfl, ?_⟩
    simpa [logText] using h
  | cons cp l ih =>
    rw [List.map_cons, List.sum_cons, add_comm cp.recordSize, ← add_assoc] at h
    obtain ⟨f₁, hitem, h₁⟩ := formatItem_filled h
    obtain ⟨f₂, hlist, h₂⟩ := ih h₁
    refine ⟨f₂, ?_, ?_⟩
    · simp only [formatList, hitem, hlist, Option.bind_eq_bind, Option.bind_some]
      rfl
    · rw [List.append_assoc] at h₂
      simpa [logText] using h₂

theorem sumItem_eq {n len allSize stAllSize : Nat} {d : Int} (h : (d - itemDiskLimit + 1).toNat = n) :
    sumItem len d allSize stAllSize = (allSize + n * ((len + chunkStep) * 3), stAllSize + n * len) := by
  induction n generalizing d allSize stAllSize with
  | zero =>
    rw [sumItem, if_neg (by omega), Nat.zero_mul, Nat.zero_mul]
    rfl
  | succ n ih =>
    rw [sumItem, if_pos (by omega), ih (by omega), Nat.succ_mul, Nat.succ_mul]
    congr 1 <;> omega

theorem sumList_eq (l : List HashinfoItem) (allSize stAllSize : Nat) :
    sumList l allSize stAllSize = (allSize + (l.map HashinfoItem.recordSize).sum,
      stAllSize + (l.map fun cp => cp.copies * cp.len).sum) := by
  induction l generalizing allSize stAllSize with
  | nil => rfl
  | cons cp l ih =>
    rw [sumList, sumItem_eq rfl]
    change sumList l _ _ = _
    rw [ih, List.map_cons, List.sum_cons, List.map_cons, List.sum_cons, ← add_assoc, ← add_assoc]
    rfl

theorem isSpace_hexText {bs : List UInt8} : ∀ c ∈ hexText ':' bs, isSpace c = false := by
  intro c hc
  by_contra hs
  rw [Bool.not_eq_false] at hs
  simp only [isSpace, Bool.or_eq_true, decide_eq_true_eq] at hs
  rcases isHex_of_mem_hexText hc with h | h <;> rcases hs with ((((rfl | rfl) | rfl) | rfl) | rfl) | rfl <;>
    exact absurd h (by decide)

theorem isSpace_toDigits {n : Nat} : ∀ c ∈ Nat.toDigits 10 n, isSpace c = false := by
  intro c hc
  have h := Nat.isDigit_of_mem_toDigits (by decide) (by decide) hc
  by_contra hs
  rw [Bool.not_eq_false] at hs
  simp only [isSpace, Bool.or_eq_true, decide_eq_true_eq] at hs
  rcases hs with ((((rfl | rfl) | rfl) | rfl) | rfl) | rfl <;> exact absurd h (by decide)

theorem hexText_ne_nil {bs : List UInt8} (h : 0 < bs.length) : hexText ':' bs ≠ [] := by
  apply List.ne_nil_of_length_pos
  rw [length_hexText]
  omega

theorem splitWords_lineText (cp : HashinfoItem) : splitWords isSpace [] (lineText cp) =
    [hexText ':' cp.data.bytes, hexText ':' cp.sha1.toList, Nat.toDigits 10 cp.len] := by
  have hdata : hexText ':' cp.data.bytes ≠ [] := hexText_ne_nil (by have := cp.data.long; omega)
  have hsha : hexText ':' cp.sha1.toList ≠ [] := hexText_ne_nil (by rw [Vector.length_toList]; decide)
  rw [lineText, List.append_assoc, List.cons_append, splitWords_append isSpace_hexText, List.nil_append,
    splitWords_cons hdata rfl, splitWords_append isSpace_hexText, List.nil_append,
    splitWords_cons hsha rfl]
  have hlen := splitWords_append (p := isSpace) (w := []) (s := []) (isSpace_toDigits (n := cp.len))
  rw [List.append_nil, List.nil_append] at hlen
  rw [hlen, splitWords_last Nat.toDigits_ne_nil]

theorem parseLine_lineText (cp : HashinfoItem) :
    parseLine (lineText cp ++ ['\n']) = some (cp.data.bytes, cp.sha1.toList, cp.len) := by
  rw [parseLine, List.dropLast_concat, splitWords_lineText]
  simp only [unhex_hexText, ofDecimal_toDigits]
  rfl

theorem newline_not_mem_lineText (cp : HashinfoItem) : '\n' ∉ lineText cp := by
  intro h
  simp only [lineText, List.mem_append, List.mem_cons] at h
  rcases h with (h | h | h) | h | h
  · exact absurd (isSpace_hexText _ h) (by decide)
  · exact absurd h (by decide)
  · exact absurd (isSpace_hexText _ h) (by decide)
  · exact absurd h (by decide)
  · exact absurd (isSpace_toDigits _ h) (by decide)

theorem parse_logText (l : List HashinfoItem) :
    (lines '\n' (logText (l.flatMap HashinfoItem.lineTexts))).map parseLine =
      l.flatMap fun cp => List.replicate cp.copies (some (cp.data.bytes, cp.sha1.toList, cp.len)) := by
  have hlines : ∀ w ∈ l.flatMap HashinfoItem.lineTexts, '\n' ∉ w := by
    intro w hw
    obtain ⟨cp, -, hw⟩ := List.mem_flatMap.mp hw
    rw [List.eq_of_mem_replicate hw]
    exact newline_not_mem_lineText cp
  rw [logText, lines_flatten hlines, List.map_map, List.map_flatMap]
  congr 1
  funext cp
  rw [HashinfoItem.lineTexts, List.map_replicate]
  change List.replicate _ (parseLine (lineText cp ++ ['\n'])) = _
  rw [parseLine_lineText]

def Table.logOf (t : Table) (data : Nat) : List Char :=
  logText ((t.hashTab data).flatMap HashinfoItem.lineTexts)

def Table.logged (t : Table) (data cpu : Nat) : Table :=
  { t with
    pending := Function.update t.pending data false
    hashTab := Function.update t.hashTab data ((t.hashTab data).map HashinfoItem.settle)
    mmw := t.mmw + ((t.hashTab data).map fun cp => cp.copies * cp.len).sum
    loffFile := Function.update t.loffFile cpu (t.loffFile cpu + (t.logOf data).length) }

theorem copies_eq_zero {l : List HashinfoItem} (h : (l.map HashinfoItem.recordSize).sum = 0) :
    ∀ cp ∈ l, cp.copies = 0 := by
  intro cp hcp
  rw [List.sum_eq_zero_iff] at h
  have hsize := h _ (List.mem_map_of_mem hcp)
  rw [HashinfoItem.recordSize, chunkStep] at hsize
  exact (Nat.mul_eq_zero.mp hsize).resolve_right (by omega)

theorem settle_eq_self {cp : HashinfoItem} (h : cp.copies = 0) : cp.settle = cp := by
  rw [HashinfoItem.copies] at h
  rw [HashinfoItem.settle, min_eq_left (by omega)]

theorem logged_eq_self {t : Table} {data : Nat} (cpu : Nat) (h : ∀ cp ∈ t.hashTab data, cp.copies = 0) :
    t.logged data cpu = { t with pending := Function.update t.pending data false } ∧
      t.logOf data = [] := by
  have hlog : t.logOf data = [] := by
    have hnone : (t.hashTab data).flatMap HashinfoItem.lineTexts = [] := by
      rw [List.flatMap_eq_nil_iff]
      intro cp hcp
      rw [HashinfoItem.lineTexts, h cp hcp, List.replicate_zero]
    rw [Table.logOf, hnone]
    rfl
  have hsettle : (t.hashTab data).map HashinfoItem.settle = t.hashTab data := by
    apply (List.map_congr_left fun cp hcp => settle_eq_self (h cp hcp)).trans
    exact List.map_id _
  have hsum : ((t.hashTab data).map fun cp => cp.copies * cp.len).sum = 0 := by
    apply List.sum_eq_zero
    intro x hx
    obtain ⟨cp, hcp, rfl⟩ := List.mem_map.mp hx
    rw [h cp hcp, Nat.zero_mul]
  refine ⟨?_, hlog⟩
  rw [Table.logged, hlog, hsettle, hsum]
  simp

theorem wrFile_cases (t : Table) (data cpu : Nat) (env : Env) :
    t.wrFile data cpu env = .ok (t.logged data cpu, t.logOf data) ∨
    env.copyMem = false ∧ t.wrFile data cpu env = .error .copyMem ∨
    env.kernelWrite = false ∧ t.wrFile data cpu env = .error .kernelWrite := by
  have hsum := sumList_eq (t.hashTab data) 0 0
  rw [Nat.zero_add, Nat.zero_add] at hsum
  by_cases hzero : ((t.hashTab data).map HashinfoItem.recordSize).sum = 0
  · have hself := logged_eq_self cpu (copies_eq_zero hzero)
    left
    simp only [Table.wrFile, hsum, hzero, hself, if_true]
  · cases hmem : env.copyMem with
    | false =>
      right; left
      simp only [Table.wrFile, hsum, hzero, hmem, if_true, if_false, and_self]
    | true =>
      have hstart : Filled ⟨List.replicate ((t.hashTab data).map HashinfoItem.recordSize).sum nul, 0,
          env.tmpStr.toList⟩ [] (0 + ((t.hashTab data).map HashinfoItem.recordSize).sum) :=
        ⟨⟨_, rfl, by simp⟩, rfl, by simp⟩
      obtain ⟨f, hlist, hfilled⟩ := formatList_filled hstart
      obtain ⟨rest, hcopy, -⟩ := hfilled.mem
      have hindex : f.memIndex = (t.logOf data).length := by
        rw [hfilled.index, List.nil_append, Table.logOf]
      have htake : f.copyMem.take (t.logOf data).length = t.logOf data := by
        rw [hcopy, List.nil_append, ← Table.logOf, List.take_left]
      cases hwrite : env.kernelWrite with
      | false =>
        right; right
        simp [Table.wrFile, hsum, hzero, hmem, hlist, hwrite]
      | true =>
        left
        simp only [Table.wrFile, hsum, hzero, hmem, hlist, hwrite, hindex, htake, if_false, Bool.true_eq_false]
        rfl

/-- `wr_file` stays within `copy_mem` and `tmp_str`, and what it writes is read back by
`statistics.py` as its items, each as often as it is to be written. -/
theorem log_round_trip (t : Table) (data cpu : Nat) (env : Env) :
    t.wrFile data cpu env ≠ .error .overflow ∧
    (env.copyMem = true → env.kernelWrite = true →
      ∃ t' text, t.wrFile data cpu env = .ok (t', text) ∧
        (lines '\n' text).map parseLine = (t.hashTab data).flatMap (fun cp =>
          List.replicate cp.copies (some (cp.data.bytes, cp.sha1.toList, cp.len))) ∧
        t'.loffFile = Function.update t.loffFile cpu (t.loffFile cpu + text.length)) := by
  rcases wrFile_cases t data cpu env with h | ⟨hm, h⟩ | ⟨hw, h⟩
  · refine ⟨by rw [h]; simp, fun _ _ => ⟨_, _, h, ?_, rfl⟩⟩
    exact parse_logText (t.hashTab data)
  · refine ⟨by rw [h]; simp, fun hm' => ?_⟩
    rw [hm] at hm'
    cases hm'
  · refine ⟨by rw [h]; simp, fun _ hw' => ?_⟩
    rw [hw] at hw'
    cases hw'

def sampleItem : HashinfoItem where
  sha1 := Vector.replicate 20 0xab
  refcnt := 7
  dataRefcnt := 1001
  cpuid := -1
  data := ⟨List.replicate 23 0x0f, by decide, by decide⟩
  buffer := 0
  memStyle := .slab1

theorem log_round_trip_sample :
    ∃ t' text, { Table.init with hashTab := fun _ => [sampleItem] }.wrFile 5 0
        ⟨true, true, Vector.replicate 96 'x'⟩ = .ok (t', text) ∧
      (lines '\n' text).map parseLine =
        List.replicate 2 (some (List.replicate 23 0x0f, List.replicate 20 0xab, 23)) ∧
      t'.loffFile = Function.update (fun _ => 0) 0 text.length := by
  obtain ⟨t', text, h, hlines, hloff⟩ :=
    (log_round_trip { Table.init with hashTab := fun _ => [sampleItem] } 5 0
      ⟨true, true, Vector.replicate 96 'x'⟩).2 rfl rfl
  refine ⟨t', text, h, hlines.trans ?_, hloff.trans ?_⟩
  · decide
  · simp [Table.init]

end Wspack.CacheVerify
