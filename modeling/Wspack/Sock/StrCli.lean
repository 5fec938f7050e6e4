import Mathlib.Algebra.Order.Ring.Nat
import Wspack.Lib.Run

namespace Wspack.Sock.StrCli

open Lib

def maxline : Nat := 4096

structure Buf where
  data : List UInt8
  iptr : Nat
  optr : Nat
  length_data : data.length = maxline
  optr_le : optr ≤ iptr
  iptr_le : iptr ≤ maxline
  /-- The output pointer catches up with the input pointer at the beginning only. -/
  back : optr = iptr → iptr = 0

def Buf.empty : Buf where
  data := List.replicate maxline 0
  iptr := 0
  optr := 0
  length_data := List.length_replicate
  optr_le := le_rfl
  iptr_le := Nat.zero_le _
  back _ := rfl

def Buf.pending (b : Buf) : List UInt8 := (b.data.take b.iptr).drop b.optr

def Buf.read (b : Buf) (bs : List UInt8) (hpos : 0 < bs.length) (hroom : b.iptr + bs.length ≤ maxline) : Buf where
  data := b.data.take b.iptr ++ bs ++ b.data.drop (b.iptr + bs.length)
  iptr := b.iptr + bs.length
  optr := b.optr
  length_data := by
    have hlen := b.length_data
    simp only [List.length_append, List.length_take, List.length_drop]
    omega
  optr_le := b.optr_le.trans (Nat.le_add_right _ _)
  iptr_le := hroom
  back h := by
    have hle := b.optr_le
    omega

def Buf.write (b : Buf) (n : Nat) (hn : b.optr + n ≤ b.iptr) : Buf :=
  if h : b.optr + n = b.iptr then
    { b with
      iptr := 0
      optr := 0
      optr_le := le_rfl
      iptr_le := Nat.zero_le _
      back := fun _ => rfl }
  else { b with
    optr := b.optr + n
    optr_le := hn
    back := fun h' => absurd h' h }

theorem Buf.length_pending (b : Buf) : b.pending.length = b.iptr - b.optr := by
  have hlen := b.length_data
  have hle := b.iptr_le
  rw [Buf.pending, List.length_drop, List.length_take]
  omega

theorem Buf.pending_eq_nil_iff (b : Buf) : b.pending = [] ↔ b.optr = b.iptr := by
  have hle := b.optr_le
  rw [← List.length_eq_zero_iff, b.length_pending]
  omega

@[simp] theorem Buf.pending_empty : Buf.empty.pending = [] := Buf.empty.pending_eq_nil_iff.mpr rfl

theorem Buf.pending_read {b : Buf} {bs : List UInt8} (hpos : 0 < bs.length)
    (hroom : b.iptr + bs.length ≤ maxline) : (b.read bs hpos hroom).pending = b.pending ++ bs := by
  have hlen := b.length_data
  have hle := b.optr_le
  have hfront : (b.data.take b.iptr ++ bs).length = b.iptr + bs.length := by
    rw [List.length_append, List.length_take]
    omega
  rw [Buf.pending, Buf.pending, Buf.read]
  dsimp only
  rw [List.take_left' hfront, List.drop_append_of_le_length]
  rw [List.length_take]
  omega

theorem Buf.pending_write {b : Buf} {n : Nat} (hn : b.optr + n ≤ b.iptr) :
    b.pending = b.pending.take n ++ (b.write n hn).pending := by
  have hrest : (b.write n hn).pending = b.pending.drop n := by
    rw [Buf.write]
    split_ifs with hall
    · have hnil : b.pending.drop n = [] := by
        rw [List.drop_eq_nil_iff, b.length_pending]
        omega
      rw [hnil]
      rfl
    · exact (List.drop_drop ..).symm
  rw [hrest, List.take_append_drop]

theorem Buf.write_optr_eq_iff {b : Buf} {n : Nat} (hn : b.optr + n ≤ b.iptr) :
    (b.write n hn).optr = (b.write n hn).iptr ↔ b.optr + n = b.iptr := by
  rw [Buf.write]
  split_ifs with hall
  · simp [hall]
  · simp [hall]

inductive Got
  | wouldblock
  | fail
  | bytes (bs : List UInt8)

inductive Wrote
  | wouldblock
  | fail
  | some (nwritten : Nat)

/-- What the calls of one round return: what `select` finds ready, with the result of the `read`, and the
results of the `write`s if they are made. -/
structure Round where
  stdin : Option Got
  sock : Option Got
  stdoutReady : Bool
  sockReady : Bool
  stdout : Wrote
  sockOut : Wrote

/-- `typed`, `sent`, `got` and `shown` are what has passed the four ends so far, `shutdowns` the calls
of `Shutdown`. -/
structure Cli where
  toBuf : Buf
  frBuf : Buf
  stdineof : Bool
  shutdowns : Nat
  typed : List UInt8
  sent : List UInt8
  got : List UInt8
  shown : List UInt8

def Cli.start : Cli := ⟨.empty, .empty, false, 0, [], [], [], []⟩

inductive Exit
  | returns (s : Cli)
  | errQuit (msg : String)
  | errSys (msg : String)
  | kernel

def Cli.asks (s : Cli) (r : Round) : Bool :=
  (r.stdin.isNone || (!s.stdineof && decide (s.toBuf.iptr < maxline))) &&
    (r.sock.isNone || decide (s.frBuf.iptr < maxline)) &&
    (!r.sockReady || decide (s.toBuf.optr ≠ s.toBuf.iptr)) && (!r.stdoutReady || decide (s.frBuf.optr ≠ s.frBuf.iptr))

def readStdin (s : Cli) : Option Got → Except Exit (Cli × Bool)
  | none => .ok (s, false)
  | some .wouldblock => .ok (s, false)
  | some .fail => .error (.errSys "read error on stdin")
  | some (.bytes []) =>
    .ok ({ s with
      stdineof := true
      shutdowns := if s.toBuf.optr = s.toBuf.iptr then s.shutdowns + 1 else s.shutdowns }, false)
  | some (.bytes (b :: bs)) =>
    if h : s.toBuf.iptr + (b :: bs).length ≤ maxline then
      .ok ({ s with toBuf := s.toBuf.read (b :: bs) (Nat.succ_pos _) h, typed := s.typed ++ b :: bs }, true)
    else .error .kernel

def readSock (s : Cli) : Option Got → Except Exit (Cli × Bool)
  | none => .ok (s, false)
  | some .wouldblock => .ok (s, false)
  | some .fail => .error (.errSys "read error on socket")
  | some (.bytes []) =>
    if s.stdineof then .error (.returns s)
    else .error (.errQuit "str_cli: server terminated prematurely")
  | some (.bytes (b :: bs)) =>
    if h : s.frBuf.iptr + (b :: bs).length ≤ maxline then
      .ok ({ s with frBuf := s.frBuf.read (b :: bs) (Nat.succ_pos _) h, got := s.got ++ b :: bs }, true)
    else .error .kernel

def writeStdout (s : Cli) (isset : Bool) (g : Wrote) : Except Exit Cli :=
  if isset = true ∧ 0 < s.frBuf.iptr - s.frBuf.optr then match g with
    | .wouldblock => .ok s
    | .fail => .error (.errSys "write error to stdout")
    | .some nwritten =>
      if h : s.frBuf.optr + nwritten ≤ s.frBuf.iptr then
        .ok { s with frBuf := s.frBuf.write nwritten h, shown := s.shown ++ s.frBuf.pending.take nwritten }
      else .error .kernel
  else .ok s

def writeSock (s : Cli) (isset : Bool) (g : Wrote) : Except Exit Cli :=
  if isset = true ∧ 0 < s.toBuf.iptr - s.toBuf.optr then match g with
    | .wouldblock => .ok s
    | .fail => .error (.errSys "write error to socket")
    | .some nwritten =>
      if h : s.toBuf.optr + nwritten ≤ s.toBuf.iptr then
        .ok { s with
          toBuf := s.toBuf.write nwritten h
          sent := s.sent ++ s.toBuf.pending.take nwritten
          shutdowns :=
            if s.toBuf.optr + nwritten = s.toBuf.iptr ∧ s.stdineof = true then s.shutdowns + 1 else s.shutdowns }
      else .error .kernel
  else .ok s

def step (s : Cli) (r : Round) : Except Exit Cli :=
  if s.asks r then do
    let (s, wsetSock) ← readStdin s r.stdin
    let (s, wsetStdout) ← readSock s r.sock
    let s ← writeStdout s (r.stdoutReady || wsetStdout) r.stdout
    writeSock s (r.sockReady || wsetSock) r.sockOut
  else .error .kernel

variable {s t : Cli} {r : Round} {rs : List Round} {w : Bool}

structure Cli.Conserves (s : Cli) : Prop where
  out : s.typed = s.sent ++ s.toBuf.pending
  back : s.got = s.shown ++ s.frBuf.pending
  fin : s.shutdowns = if s.stdineof = true ∧ s.toBuf.optr = s.toBuf.iptr then 1 else 0

theorem readStdin_conserves {g : Option Got} (hs : s.Conserves) (heof : g.isSome = true → s.stdineof = false)
    (h : readStdin s g = .ok (t, w)) : t.Conserves := by
  revert h
  fun_cases readStdin s g with
  | case1 => rintro ⟨⟩; exact hs
  | case2 => rintro ⟨⟩; exact hs
  | case3 => intro h; cases h
  | case4 =>
    rintro ⟨⟩
    have hfin := hs.fin
    rw [heof rfl] at hfin
    exact ⟨hs.out, hs.back, by simp [hfin]⟩
  | case5 b bs hroom =>
    rintro ⟨⟩
    have hfin := hs.fin
    rw [heof rfl] at hfin
    refine ⟨?_, hs.back, by simpa [heof rfl] using hfin⟩
    dsimp only
    rw [hs.out, Buf.pending_read, List.append_assoc]
  | case6 => intro h; cases h

theorem readSock_conserves {g : Option Got} (hs : s.Conserves) (h : readSock s g = .ok (t, w)) : t.Conserves := by
  revert h
  fun_cases readSock s g with
  | case1 => rintro ⟨⟩; exact hs
  | case2 => rintro ⟨⟩; exact hs
  | case6 b bs hroom =>
    rintro ⟨⟩
    refine ⟨hs.out, ?_, hs.fin⟩
    dsimp only
    rw [hs.back, Buf.pending_read, List.append_assoc]
  | _ => intro h; cases h

theorem writeStdout_conserves {g : Wrote} (hs : s.Conserves) (h : writeStdout s w g = .ok t) : t.Conserves := by
  revert h
  fun_cases writeStdout s w g with
  | case1 => rintro ⟨⟩; exact hs
  | case3 _ n hn =>
    rintro ⟨⟩
    refine ⟨hs.out, ?_, hs.fin⟩
    dsimp only
    rw [List.append_assoc, ← Buf.pending_write, hs.back]
  | case5 => rintro ⟨⟩; exact hs
  | _ => intro h; cases h

theorem writeSock_conserves {g : Wrote} (hs : s.Conserves) (h : writeSock s w g = .ok t) : t.Conserves := by
  revert h
  fun_cases writeSock s w g with
  | case1 => rintro ⟨⟩; exact hs
  | case3 hset n hn =>
    rintro ⟨⟩
    have hfin := hs.fin
    rw [if_neg (by omega)] at hfin
    refine ⟨?_, hs.back, by simp [hfin, Buf.write_optr_eq_iff, and_comm]⟩
    dsimp only
    rw [List.append_assoc, ← Buf.pending_write, hs.out]
  | case5 => rintro ⟨⟩; exact hs
  | _ => intro h; cases h

theorem bind_eq_ok {α β : Type} {x : Except Exit α} {f : α → Except Exit β} {b : β} (h : x >>= f = .ok b) :
    ∃ a, x = .ok a ∧ f a = .ok b := by
  cases x with
  | error e => cases h
  | ok a => exact ⟨a, rfl, h⟩

structure Parts (s : Cli) (r : Round) (u v x t : Cli) : Prop where
  asked : s.asks r = true
  stdin : ∃ w, readStdin s r.stdin = .ok (u, w)
  sock : ∃ w, readSock u r.sock = .ok (v, w)
  stdout : ∃ w, writeStdout v w r.stdout = .ok x
  sockOut : ∃ w, writeSock x w r.sockOut = .ok t

theorem parts_of_step (h : step s r = .ok t) : ∃ u v x, Parts s r u v x t := by
  rw [step] at h
  split_ifs at h with hasks
  obtain ⟨⟨u, w⟩, hu, h⟩ := bind_eq_ok h
  obtain ⟨⟨v, w'⟩, hv, h⟩ := bind_eq_ok h
  obtain ⟨x, hx, h⟩ := bind_eq_ok h
  exact ⟨u, v, x, hasks, ⟨w, hu⟩, ⟨w', hv⟩, ⟨_, hx⟩, ⟨_, h⟩⟩

theorem eof_of_asks (h : s.asks r = true) (hr : r.stdin.isSome = true) : s.stdineof = false := by
  simp only [Cli.asks, Bool.and_eq_true, Bool.or_eq_true] at h
  obtain ⟨⟨⟨hin | ⟨heof, -⟩, -⟩, -⟩, -⟩ := h
  · simp [Option.isNone_iff_eq_none.mp hin] at hr
  · simpa using heof

theorem step_conserves (hs : s.Conserves) (h : step s r = .ok t) : t.Conserves := by
  obtain ⟨u, v, x, hasks, ⟨_, hu⟩, ⟨_, hv⟩, ⟨_, hx⟩, ⟨_, ht⟩⟩ := parts_of_step h
  have hcu := readStdin_conserves hs (eof_of_asks hasks) hu
  exact writeSock_conserves (writeStdout_conserves (readSock_conserves hcu hv) hx) ht

theorem bind_eq_error {α β : Type} {x : Except Exit α} {f : α → Except Exit β} {e : Exit}
    (h : x >>= f = .error e) : x = .error e ∨ ∃ a, x = .ok a ∧ f a = .error e := by
  cases x with
  | error e' => exact .inl (congrArg Except.error (Except.error.inj h))
  | ok a => exact .inr ⟨a, rfl, h⟩

theorem readSock_returns {g : Option Got} (h : readSock s g = .error (.returns t)) :
    t = s ∧ s.stdineof = true := by
  revert h
  fun_cases readSock s g with
  | case4 heof => rintro ⟨⟩; exact ⟨rfl, heof⟩
  | _ => intro h; cases h

theorem returned_of_step (hs : s.Conserves) (h : step s r = .error (.returns t)) :
    t.Conserves ∧ t.stdineof = true := by
  rw [step] at h
  split_ifs at h with hasks
  · rcases bind_eq_error h with hu | ⟨⟨u, w⟩, hu, h⟩
    · revert hu
      fun_cases readStdin s r.stdin <;> intro hu <;> cases hu
    have hcu := readStdin_conserves hs (eof_of_asks hasks) hu
    rcases bind_eq_error h with hv | ⟨⟨v, w'⟩, hv, h⟩
    · obtain ⟨rfl, heof⟩ := readSock_returns hv
      exact ⟨hcu, heof⟩
    -- the other calls do not return from the function
    rcases bind_eq_error h with hx | ⟨x, hx, h⟩
    · revert hx
      fun_cases writeStdout v (r.stdoutReady || w') r.stdout <;> intro hx <;> cases hx
    · revert h
      fun_cases writeSock x (r.sockReady || w) r.sockOut <;> intro h <;> cases h
  · cases h

theorem readSock_frame {g : Option Got} (h : readSock s g = .ok (t, w)) :
    t = { s with frBuf := t.frBuf, got := t.got } := by
  revert h
  fun_cases readSock s g with
  | case1 => rintro ⟨⟩; rfl
  | case2 => rintro ⟨⟩; rfl
  | case6 => rintro ⟨⟩; rfl
  | _ => intro h; cases h

theorem writeStdout_frame {g : Wrote} (h : writeStdout s w g = .ok t) :
    t = { s with frBuf := t.frBuf, shown := t.shown } := by
  revert h
  fun_cases writeStdout s w g with
  | case1 => rintro ⟨⟩; rfl
  | case3 => rintro ⟨⟩; rfl
  | case5 => rintro ⟨⟩; rfl
  | _ => intro h; cases h

def Cli.Shut (s : Cli) : Prop := s.stdineof = true ∧ s.toBuf.optr = s.toBuf.iptr

theorem step_shut (hs : s.Shut) (h : step s r = .ok t) : t.Shut ∧ t.sent = s.sent ∧ t.shutdowns = s.shutdowns := by
  obtain ⟨heof, hdrained⟩ := hs
  obtain ⟨u, v, x, hasks, ⟨_, hu⟩, ⟨_, hv⟩, ⟨_, hx⟩, ⟨w, ht⟩⟩ := parts_of_step h
  have hnone : r.stdin = none := by
    cases hr : r.stdin with
    | none => rfl
    | some g => simp [eof_of_asks hasks (by rw [hr]; rfl)] at heof
  rw [hnone] at hu
  cases hu
  have hframe := readSock_frame hv
  have hframe' := writeStdout_frame hx
  rw [hframe] at hframe'
  have hto : x.toBuf = s.toBuf := by rw [hframe']
  have hskip : writeSock x w r.sockOut = .ok x := if_neg (by rw [hto, hdrained]; omega)
  cases hskip.symm.trans ht
  rw [hframe']
  exact ⟨⟨heof, hdrained⟩, rfl, rfl⟩

theorem run_shut {C : Cli → Round → Prop} (h : Run step C s rs t) (hs : s.Shut) :
    t.sent = s.sent ∧ t.shutdowns = s.shutdowns := by
  induction h with
  | nil => exact ⟨rfl, rfl⟩
  | cons _ he _ ih =>
    obtain ⟨hshut, hsent, hdowns⟩ := step_shut hs he
    obtain ⟨hsent', hdowns'⟩ := ih hshut
    exact ⟨hsent'.trans hsent, hdowns'.trans hdowns⟩

theorem Cli.start_conserves : Cli.start.Conserves := ⟨by simp [Cli.start], by simp [Cli.start], rfl⟩

/-- Whatever parts the calls take and give: what was typed is what was sent and what waits in `to`, what was
got is what was shown and what waits in `fr`; the socket is shut down once, when the
terminal's input has ended and all of it is sent, and after that nothing is sent; `select` always has
something to wait for; and where `str_cli` returns, all that is not passed on is what still lies in
the buffers. -/
theorem str_cli_passes_on (rs : List Round) (s : Cli) (h : Run step (fun _ _ => True) Cli.start rs s) :
    s.typed = s.sent ++ s.toBuf.pending ∧ s.got = s.shown ++ s.frBuf.pending ∧
    s.shutdowns = (if s.stdineof = true ∧ s.sent = s.typed then 1 else 0) ∧
    (s.shutdowns = 1 → ∀ rs' t, Run step (fun _ _ => True) s rs' t → t.sent = s.sent ∧ t.shutdowns = 1) ∧
    (s.frBuf.iptr < maxline ∨ s.frBuf.optr ≠ s.frBuf.iptr) ∧
    ∀ r t, step s r = .error (.returns t) →
      t.stdineof = true ∧ t.typed = t.sent ++ t.toBuf.pending ∧ t.got = t.shown ++ t.frBuf.pending := by
  have hs : s.Conserves := h.invariant (fun _ _ _ _ he hs => step_conserves hs he) Cli.start_conserves
  have hsent : s.sent = s.typed ↔ s.toBuf.optr = s.toBuf.iptr := by
    rw [hs.out, List.self_eq_append_right, Buf.pending_eq_nil_iff]
  refine ⟨hs.out, hs.back, by simp only [hs.fin, hsent], fun hone rs' t hr => ?_, ?_, fun r t hret => ?_⟩
  · have hshut : s.Shut := by
      by_contra hnot
      rw [hs.fin, if_neg (show ¬(s.stdineof = true ∧ s.toBuf.optr = s.toBuf.iptr) from hnot)] at hone
      cases hone
    obtain ⟨hsent', hdowns⟩ := run_shut hr hshut
    exact ⟨hsent', hdowns.trans hone⟩
  · by_cases hback : s.frBuf.optr = s.frBuf.iptr
    · exact .inl (by rw [s.frBuf.back hback]; decide)
    · exact .inr hback
  · obtain ⟨ht, heof⟩ := returned_of_step hs hret
    exact ⟨heof, ht.out, ht.back⟩

def sampleRounds : List Round :=
  [⟨some (.bytes [97, 98, 10]), none, false, false, .wouldblock, .some 2⟩,
    ⟨some (.bytes []), none, false, true, .wouldblock, .some 1⟩,
    ⟨none, some (.bytes [98, 10]), false, false, .some 1, .wouldblock⟩]

theorem str_cli_passes_on_sample : ∃ s t, Run step (fun _ _ => True) Cli.start sampleRounds s ∧
    s.shutdowns = 1 ∧ step s ⟨none, some (.bytes []), true, false, .wouldblock, .wouldblock⟩ = .error (.returns t) ∧
    t.got = t.shown ++ t.frBuf.pending ∧ t.shown = [98] ∧ t.frBuf.pending = [10] := by
  have hr : Run step (fun _ _ => True) Cli.start sampleRounds _ :=
    run_final_any (g := fun _ _ => true) (by decide +kernel)
  obtain ⟨-, -, -, -, -, hret⟩ := str_cli_passes_on sampleRounds _ hr
  have hstep : step (final step (fun _ _ => true) Cli.start sampleRounds)
      ⟨none, some (.bytes []), true, false, .wouldblock, .wouldblock⟩ = .error (.returns _) := rfl
  exact ⟨_, _, hr, rfl, hstep, (hret _ _ hstep).2.2, by decide +kernel, by decide +kernel⟩

end Wspack.Sock.StrCli
