import Mathlib.Algebra.Order.Ring.Nat
import Mathlib.Algebra.BigOperators.Group.List.Basic

/-! `writen` and `readline` on a connection.  The kernel may take any part of what it is given to
write, hand over what has come in any pieces, and interrupt either call. -/

namespace Wspack.Sock

def newline : UInt8 := 10

/-- What a call of `write` returns; the kernel takes at least one byte of what it was given. -/
inductive Wrote
  | eintr
  | fail
  | some (nwritten : Nat)

def writen : List Wrote → (left : List UInt8) → List UInt8 × Option Bool
  | _, [] => ([], some true)
  | [], _ :: _ => ([], none)
  | .eintr :: ws, b :: left => writen ws (b :: left)
  | .fail :: _, _ :: _ => ([], some false)
  | .some 0 :: _, _ :: _ => ([], some false)
  | .some (k + 1) :: ws, b :: left =>
    let r := writen ws (left.drop k)
    (b :: left.take k ++ r.1, r.2)

inductive Got
  | eintr
  | fail
  | some (c : UInt8) (bs : List UInt8)

/-- The bytes of `read_buf` from `read_ptr` on, and the calls of `read` to come.  When they are used
up the peer has closed the connection, and `read` returns 0 for good. -/
structure Reader where
  buf : List UInt8
  calls : List Got

inductive MyRead
  | byte (c : UInt8) (r : Reader)
  | eof (r : Reader)
  | fail (r : Reader)

def again : List Got → MyRead
  | [] => .eof ⟨[], []⟩
  | .eintr :: cs => again cs
  | .fail :: cs => .fail ⟨[], cs⟩
  | .some c bs :: cs => .byte c ⟨bs, cs⟩

def myRead (r : Reader) : MyRead :=
  match r.buf with
  | [] => again r.calls
  | c :: bs => .byte c ⟨bs, r.calls⟩

structure Line where
  ret : Int
  stored : List UInt8

def readlineLoop : (rounds n : Nat) → List UInt8 → Reader → Line × Reader
  | 0, n, acc, r => (⟨n, acc⟩, r)
  | rounds + 1, n, acc, r => match myRead r with
    | .byte c r => if c = newline then (⟨n, acc ++ [c]⟩, r) else readlineLoop rounds (n + 1) (acc ++ [c]) r
    | .eof r => (⟨n - 1, acc⟩, r)
    | .fail r => (⟨-1, acc⟩, r)

def readline (maxlen : Nat) (r : Reader) : Line × Reader := readlineLoop (maxlen - 1) 1 [] r

def readlines (maxlen : Nat) : Nat → Reader → Option (List Line)
  | 0, _ => none
  | n + 1, r =>
    let (line, r) := readline maxlen r
    if line.ret < 0 then none
    else if line.ret = 0 then some []
    else (readlines maxlen n r).map (line :: ·)

def Reader.Clean (r : Reader) : Prop := ∀ g ∈ r.calls, g ≠ .fail

def Got.bytes : Got → List UInt8
  | .some c bs => c :: bs
  | _ => []

def Reader.stream (r : Reader) : List UInt8 := r.buf ++ r.calls.flatMap Got.bytes

def cutLine : Nat → List UInt8 → List UInt8
  | 0, _ => []
  | _ + 1, [] => []
  | k + 1, c :: s => if c = newline then [c] else c :: cutLine k s

theorem cutLine_front (k : Nat) (s : List UInt8) : cutLine k s <+: s := by
  induction k generalizing s with
  | zero => exact List.nil_prefix
  | succ k ih =>
    cases s with
    | nil => exact List.nil_prefix
    | cons c s =>
      rw [cutLine]
      split
      · exact List.prefix_append [c] s
      · exact List.cons_prefix_cons.mpr ⟨rfl, ih s⟩

def retOf : Nat → List UInt8 → Nat
  | 0, _ => 1
  | _ + 1, [] => 0
  | k + 1, c :: s => if c = newline then 1 else retOf k s + 1

def cutLines (k : Nat) : Nat → List UInt8 → List Line
  | 0, _ => []
  | n + 1, s => if s = [] then []
    else ⟨retOf k s, cutLine k s⟩ :: cutLines k n (s.drop (cutLine k s).length)

variable {r : Reader} {k n : Nat} {s w : List UInt8} {c : UInt8}

theorem again_nil {cs : List Got} (h : ∀ g ∈ cs, g ≠ .fail) (hs : cs.flatMap Got.bytes = []) :
    again cs = .eof ⟨[], []⟩ := by
  induction cs with
  | nil => rfl
  | cons g cs ih =>
    obtain ⟨hg, hcs⟩ := List.forall_mem_cons.mp h
    rw [List.flatMap_cons, List.append_eq_nil_iff] at hs
    cases g with
    | eintr => exact ih hcs hs.2
    | fail => exact absurd rfl hg
    | some c bs => cases hs.1

theorem again_cons {cs : List Got} (h : ∀ g ∈ cs, g ≠ .fail) (hs : cs.flatMap Got.bytes = c :: s) :
    ∃ r' : Reader, again cs = .byte c r' ∧ r'.Clean ∧ r'.stream = s := by
  induction cs with
  | nil => cases hs
  | cons g cs ih =>
    obtain ⟨hg, hcs⟩ := List.forall_mem_cons.mp h
    cases g with
    | eintr => exact ih hcs hs
    | fail => exact absurd rfl hg
    | some c' bs =>
      cases hs
      exact ⟨⟨bs, cs⟩, rfl, hcs, rfl⟩

theorem myRead_nil (hr : r.Clean) (hs : r.stream = []) : myRead r = .eof ⟨[], []⟩ := by
  obtain ⟨hbuf, hcalls⟩ := List.append_eq_nil_iff.mp hs
  rw [myRead, hbuf]
  exact again_nil hr hcalls

theorem myRead_cons (hr : r.Clean) (hs : r.stream = c :: s) :
    ∃ r' : Reader, myRead r = .byte c r' ∧ r'.Clean ∧ r'.stream = s := by
  rw [Reader.stream] at hs
  rw [myRead]
  cases hbuf : r.buf with
  | nil =>
    rw [hbuf] at hs
    exact again_cons hr hs
  | cons c' bs =>
    rw [hbuf] at hs
    cases hs
    exact ⟨⟨bs, r.calls⟩, rfl, hr, rfl⟩

theorem readlineLoop_spec (acc : List UInt8) (hr : r.Clean) :
    ∃ r' : Reader, readlineLoop k (n + 1) acc r = (⟨(n + retOf k r.stream : Nat), acc ++ cutLine k r.stream⟩, r') ∧
      r'.Clean ∧ r'.stream = r.stream.drop (cutLine k r.stream).length := by
  induction k generalizing n acc r with
  | zero => exact ⟨r, by simp [readlineLoop, retOf, cutLine], hr, rfl⟩
  | succ k ih =>
    rw [readlineLoop]
    cases hs : r.stream with
    | nil =>
      refine ⟨⟨[], []⟩, ?_, nofun, rfl⟩
      rw [myRead_nil hr hs]
      simp [retOf, cutLine]
    | cons c s =>
      obtain ⟨r₁, hmy, hr₁, rfl⟩ := myRead_cons hr hs
      rw [hmy, cutLine, retOf]
      by_cases hc : c = newline
      · refine ⟨r₁, ?_, hr₁, ?_⟩
        · simp [hc]
        · simp [hc]
      · obtain ⟨r', he, hr', hs'⟩ := ih (n := n + 1) (acc ++ [c]) hr₁
        refine ⟨r', ?_, hr', ?_⟩
        · simp only [if_neg hc, he]
          simp [Nat.add_assoc, Nat.add_comm]
        · simp [hc, hs']

theorem readline_spec (hr : r.Clean) (maxlen : Nat) :
    ∃ r' : Reader, readline maxlen r = (⟨retOf (maxlen - 1) r.stream, cutLine (maxlen - 1) r.stream⟩, r') ∧
      r'.Clean ∧ r'.stream = r.stream.drop (cutLine (maxlen - 1) r.stream).length := by
  obtain ⟨r', he, hrest⟩ := readlineLoop_spec (k := maxlen - 1) (n := 0) [] hr
  refine ⟨r', ?_, hrest⟩
  rw [readline, he, Nat.zero_add, List.nil_append]

theorem retOf_eq_zero_iff (hk : k ≠ 0) : retOf k s = 0 ↔ s = [] := by
  obtain ⟨k, rfl⟩ := Nat.exists_eq_succ_of_ne_zero hk
  cases s with
  | nil => exact iff_of_true rfl rfl
  | cons c s =>
    refine iff_of_false ?_ (List.cons_ne_nil c s)
    rw [retOf]
    split <;> omega

theorem length_cutLine_pos (hk : k ≠ 0) (hs : s ≠ []) : 0 < (cutLine k s).length := by
  obtain ⟨k, rfl⟩ := Nat.exists_eq_succ_of_ne_zero hk
  obtain ⟨c, s, rfl⟩ := List.exists_cons_of_ne_nil hs
  rw [cutLine]
  split <;> simp

theorem readlines_eq {maxlen : Nat} (hmax : 2 ≤ maxlen) (hr : r.Clean) (hn : r.stream.length < n) :
    readlines maxlen n r = some (cutLines (maxlen - 1) n r.stream) := by
  have hk : maxlen - 1 ≠ 0 := by omega
  induction n generalizing r with
  | zero => cases hn
  | succ n ih =>
    obtain ⟨r', he, hr', hs'⟩ := readline_spec hr maxlen
    rw [readlines, he, cutLines]
    dsimp only
    rw [if_neg (by omega)]
    by_cases hs : r.stream = []
    · rw [if_pos hs, if_pos (by rw [(retOf_eq_zero_iff hk).mpr hs]; rfl)]
    · have hret := mt (retOf_eq_zero_iff hk).mp hs
      have hpos := length_cutLine_pos hk hs
      have hlen := List.length_pos_iff.mpr hs
      rw [if_neg hs, if_neg (by omega), ih hr' (by rw [hs', List.length_drop]; omega), hs', Option.map_some]

theorem flatten_cutLines (hk : k ≠ 0) (hn : s.length < n) : ((cutLines k n s).map Line.stored).flatten = s := by
  induction n generalizing s with
  | zero => cases hn
  | succ n ih =>
    rw [cutLines]
    split
    case isTrue hs => exact hs.symm
    case isFalse hs =>
      have hpos := length_cutLine_pos hk hs
      have hlen := List.length_pos_iff.mpr hs
      rw [List.map_cons, List.flatten_cons, ih (by rw [List.length_drop]; omega)]
      exact List.prefix_iff_eq_append.mp (cutLine_front k s)

theorem length_cutLine_le (k : Nat) (s : List UInt8) : (cutLine k s).length ≤ k := by
  induction k generalizing s with
  | zero => exact Nat.le_refl 0
  | succ k ih =>
    cases s with
    | nil => exact Nat.zero_le _
    | cons c s =>
      rw [cutLine]
      split
      · simp
      · exact Nat.succ_le_succ (ih s)

theorem cutLine_cases (k : Nat) (s : List UInt8) :
    (∃ w, newline ∉ w ∧ cutLine k s = w ++ [newline] ∧ retOf k s = (cutLine k s).length) ∨
      (newline ∉ cutLine k s ∧ (cutLine k s).length = k ∧ retOf k s = k + 1) ∨
      (newline ∉ cutLine k s ∧ cutLine k s = s ∧ retOf k s = (cutLine k s).length) := by
  induction k generalizing s with
  | zero => exact .inr (.inl ⟨List.not_mem_nil, rfl, rfl⟩)
  | succ k ih =>
    cases s with
    | nil => exact .inr (.inr ⟨List.not_mem_nil, rfl, rfl⟩)
    | cons c s =>
      rw [cutLine, retOf]
      by_cases hc : c = newline
      · rw [if_pos hc, if_pos hc, hc]
        exact .inl ⟨[], List.not_mem_nil, rfl, rfl⟩
      · rw [if_neg hc, if_neg hc]
        have hcons : ∀ {w : List UInt8}, newline ∉ w → newline ∉ c :: w :=
          fun hw h => (List.mem_cons.mp h).elim (fun he => hc he.symm) hw
        rcases ih s with ⟨w, hw, he, hret⟩ | ⟨hw, hlen, hret⟩ | ⟨hw, he, hret⟩
        · exact .inl ⟨c :: w, hcons hw, by rw [he, List.cons_append], by rw [hret, List.length_cons]⟩
        · exact .inr (.inl ⟨hcons hw, by rw [List.length_cons, hlen], by rw [hret]⟩)
        · exact .inr (.inr ⟨hcons hw, by rw [he], by rw [hret, List.length_cons]⟩)

theorem cutLine_line (hw : newline ∉ w) (hk : w.length < k) :
    cutLine k (w ++ newline :: s) = w ++ [newline] ∧ retOf k (w ++ newline :: s) = w.length + 1 := by
  induction w generalizing k with
  | nil =>
    obtain ⟨k, rfl⟩ := Nat.exists_eq_succ_of_ne_zero (Nat.ne_zero_of_lt hk)
    simp [cutLine, retOf]
  | cons c w ih =>
    obtain ⟨k, rfl⟩ := Nat.exists_eq_succ_of_ne_zero (Nat.ne_zero_of_lt hk)
    obtain ⟨hc, hw⟩ := not_or.mp (mt List.mem_cons.mpr hw)
    obtain ⟨hcut, hret⟩ := ih hw (Nat.lt_of_succ_lt_succ hk)
    rw [List.cons_append, cutLine, retOf, if_neg (Ne.symm hc), if_neg (Ne.symm hc), hcut, hret]
    exact ⟨rfl, rfl⟩

theorem cutLines_lines {ls : List (List UInt8)} (hls : ∀ w ∈ ls, newline ∉ w ∧ w.length < k) (hn : ls.length < n) :
    cutLines k n (ls.flatMap (· ++ [newline])) = ls.map fun w => ⟨(w.length + 1 : Nat), w ++ [newline]⟩ := by
  induction ls generalizing n with
  | nil => cases n <;> simp [cutLines]
  | cons w ls ih =>
    obtain ⟨n, rfl⟩ := Nat.exists_eq_succ_of_ne_zero (Nat.ne_zero_of_lt hn)
    obtain ⟨⟨hw, hk⟩, hls⟩ := List.forall_mem_cons.mp hls
    have hcons : (w :: ls).flatMap (· ++ [newline]) = w ++ newline :: ls.flatMap (· ++ [newline]) := by simp
    obtain ⟨hcut, hret⟩ := cutLine_line (s := ls.flatMap (· ++ [newline])) hw hk
    rw [hcons, cutLines, if_neg (by simp), hcut, hret]
    have hdrop : (w ++ newline :: ls.flatMap (· ++ [newline])).drop (w ++ [newline]).length =
        ls.flatMap (· ++ [newline]) := by
      rw [List.append_cons w newline (ls.flatMap _)]
      exact List.drop_left
    rw [hdrop, ih hls (Nat.lt_of_succ_lt_succ hn), List.map_cons]

theorem writen_spec (ws : List Wrote) (left : List UInt8) :
    (writen ws left).1 <+: left ∧ ((writen ws left).2 = some true ↔ (writen ws left).1 = left) := by
  fun_induction writen ws left with
  | case1 => exact ⟨List.nil_prefix, by simp⟩
  | case2 => exact ⟨List.nil_prefix, by simp⟩
  | case3 ws b left ih => exact ih
  | case4 => exact ⟨List.nil_prefix, by simp⟩
  | case5 => exact ⟨List.nil_prefix, by simp⟩
  | case6 k ws b left r ih =>
    obtain ⟨hpre, hiff⟩ := ih
    have hall : b :: left = (b :: left.take k) ++ left.drop k := by simp
    constructor
    · rw [hall]
      exact (List.prefix_append_right_inj _).mpr hpre
    · rw [hiff, hall]
      exact (List.append_right_inj _).symm

theorem mem_cutLines {line : Line} (h : line ∈ cutLines k n s) :
    ∃ s', line = ⟨retOf k s', cutLine k s'⟩ ∧ s' <:+ s := by
  induction n generalizing s with
  | zero => cases h
  | succ n ih =>
    rw [cutLines] at h
    split at h
    · cases h
    · rcases List.mem_cons.mp h with rfl | h
      · exact ⟨s, rfl, List.suffix_refl s⟩
      · obtain ⟨s', he, hs'⟩ := ih h
        exact ⟨s', he, hs'.trans (List.drop_suffix _ s)⟩

/-- In whatever pieces the bytes come and wherever the reads are interrupted, the calls of `readline`
end, they store the bytes of the connection one after the other, and their results depend on these
alone.  Each stores a line with its newline and returns its length, or the rest behind the last
newline; a line that does not fit is cut off, and `maxlen` is returned for the `maxlen - 1` bytes. -/
theorem readlines_any_pieces (maxlen : Nat) (hmax : 2 ≤ maxlen) (r : Reader) (hr : r.Clean) (n : Nat)
    (hn : r.stream.length < n) :
    ∃ out, readlines maxlen n r = some out ∧ (out.map Line.stored).flatten = r.stream ∧
      (∀ r' : Reader, r'.Clean → r'.stream = r.stream → readlines maxlen n r' = some out) ∧
      ∀ line ∈ out, line.stored.length < maxlen ∧
        ((∃ w, newline ∉ w ∧ line.stored = w ++ [newline] ∧ line.ret = line.stored.length) ∨
          (newline ∉ line.stored ∧ line.stored.length = maxlen - 1 ∧ line.ret = maxlen) ∨
          (newline ∉ line.stored ∧ line.stored <:+ r.stream ∧ line.ret = line.stored.length)) := by
  refine ⟨_, readlines_eq hmax hr hn, flatten_cutLines (by omega) hn, fun r' hr' hs => ?_, fun line hmem => ?_⟩
  · rw [← hs]
    exact readlines_eq hmax hr' (hs ▸ hn)
  · obtain ⟨s', rfl, hsuffix⟩ := mem_cutLines hmem
    have hle := length_cutLine_le (maxlen - 1) s'
    refine ⟨by dsimp only; omega, ?_⟩
    rcases cutLine_cases (maxlen - 1) s' with ⟨w, hw, he, hret⟩ | ⟨hw, hlen, hret⟩ | ⟨hw, he, hret⟩
    · exact .inl ⟨w, hw, he, by dsimp only; rw [hret]⟩
    · exact .inr (.inl ⟨hw, hlen, by dsimp only; omega⟩)
    · exact .inr (.inr ⟨hw, by dsimp only; rwa [he], by dsimp only; rw [hret]⟩)

def samplePieces : Reader := ⟨[97], [.eintr, .some 98 [99], .some 100 [10], .eintr, .some 101 []]⟩

theorem readlines_any_pieces_sample : ∃ out, readlines 4 9 samplePieces = some out ∧
    (out.map Line.stored).flatten = [97, 98, 99, 100, 10, 101] := by
  obtain ⟨out, he, hflat, -⟩ := readlines_any_pieces 4 (by decide) samplePieces (by simp [samplePieces, Reader.Clean])
    9 (by decide)
  exact ⟨out, he, hflat⟩

/-- Lines without a newline inside, each of which fits with its newline in `maxlen - 1` bytes, that are written
with `writen` on one side, whatever parts the kernel takes at a time, come out of `readline` on the other side one
by one, whatever pieces it hands over. -/
theorem lines_through_connection (maxlen : Nat) (hmax : 2 ≤ maxlen) (ls : List (List UInt8))
    (hls : ∀ w ∈ ls, newline ∉ w ∧ w.length + 1 < maxlen) (wss : List (List Wrote))
    (hws : List.Forall₂ (fun ws w => (writen ws (w ++ [newline])).2 = some true) wss ls) (r : Reader)
    (hr : r.Clean)
    (hs : r.stream = (List.zipWith (fun ws w => (writen ws (w ++ [newline])).1) wss ls).flatten) (n : Nat)
    (hn : r.stream.length < n) :
    readlines maxlen n r = some (ls.map fun w => ⟨(w.length + 1 : Nat), w ++ [newline]⟩) := by
  have hwire : r.stream = ls.flatMap (· ++ [newline]) := by
    rw [hs]
    clear hs hls
    induction hws with
    | nil => rfl
    | @cons ws w wss ls hw _ ih =>
      rw [List.zipWith_cons_cons, List.flatten_cons, ih, List.flatMap_cons, ((writen_spec ws _).2).mp hw]
  have hlen : ls.length ≤ (ls.flatMap (· ++ [newline])).length := by simp [List.length_flatMap]
  have hshort : ∀ w ∈ ls, newline ∉ w ∧ w.length < maxlen - 1 :=
    fun w hw => ⟨(hls w hw).1, Nat.lt_sub_of_add_lt (hls w hw).2⟩
  rw [readlines_eq hmax hr hn, hwire, cutLines_lines hshort]
  rw [hwire] at hn
  omega

theorem lines_through_connection_sample :
    readlines 8 9 ⟨[], [.some 97 [98], .eintr, .some 10 [99, 10]]⟩ = some [⟨3, [97, 98, 10]⟩, ⟨2, [99, 10]⟩] :=
  lines_through_connection 8 (by decide) [[97, 98], [99]] (by decide)
    [[.some 1, .eintr, .some 2], [.some 2]] (.cons rfl (.cons rfl .nil)) _ (by simp [Reader.Clean]) rfl 9
    (by decide)

end Wspack.Sock
