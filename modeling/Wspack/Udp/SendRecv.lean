import Mathlib.Algebra.Order.Ring.Nat
import Mathlib.Data.List.Basic
import Wspack.Lib.Run
import Wspack.Lib.Words

/-! The request and reply of `dg_send_recv` over a network that loses, repeats and reorders the
datagrams between the client and `dg_echo`.  The estimates of `rtt.c` only say when the alarm
fires, which may be at any time here; what is modelled of them is the count of retransmissions. -/

namespace Wspack.Udp

open Lib

abbrev Datagram := List UInt8

def hdrSize : Nat := 8

def maxline : Nat := 4096

def rttMaxnrexmt : Nat := 3

/-- The longest payload of a UDP datagram over IPv4; `Sendmsg` ends the program beyond it. -/
def maxDatagram : Nat := 65507

def message (seq ts : UInt32) (outbuff : List UInt8) : Datagram :=
  wordBytes seq.toNat ++ wordBytes ts.toNat ++ outbuff

/-- A call that waits for its reply: `nrexmt` is `rtt_nrexmt` and `sends` counts the calls of
`Sendmsg`. -/
structure Wait where
  outbuff : List UInt8
  inbytes : Nat
  nrexmt : Nat
  sends : Nat

structure Outcome where
  outbuff : List UInt8
  inbytes : Nat
  sends : Nat
  reply : Option (List UInt8)

/-- `seq` is `sendhdr.seq`; the datagrams on their way are in no order. -/
structure Net where
  seq : UInt32
  wait : Option Wait
  toServer : List Datagram
  toClient : List Datagram
  results : List Outcome

def Net.init : Net := ⟨0, none, [], [], []⟩

def Net.requests (s : Net) : List (List UInt8) :=
  s.results.map Outcome.outbuff ++ s.wait.toList.map Wait.outbuff

def rttTimeout (nrexmt : Nat) : Option Nat := if rttMaxnrexmt < nrexmt + 1 then none else some (nrexmt + 1)

def dgEcho (mesg : Datagram) : Datagram := mesg.take maxline

/-- What `Recvmsg` leaves in `inbuff`, and whether the loop ends. -/
def recvmsg (seq : UInt32) (inbytes : Nat) (d : Datagram) : Option (List UInt8) :=
  let got := d.take (hdrSize + inbytes)
  if got.length < hdrSize ∨ readWord got ≠ seq.toNat then none else some (got.drop hdrSize)

inductive Act
  | call (outbuff : List UInt8) (inbytes : Nat) (ts : UInt32)
  | alarm (ts : UInt32)
  | recv (i : Nat)
  | echo (i : Nat)
  | loseRequest (i : Nat)
  | loseReply (i : Nat)
  | repeatRequest (i : Nat)
  | repeatReply (i : Nat)

def step (s : Net) : Act → Except Unit Net
  | .call outbuff inbytes ts =>
    if s.wait.isSome ∨ maxDatagram < hdrSize + outbuff.length then .error ()
    else .ok { s with
      seq := s.seq + 1
      wait := some ⟨outbuff, inbytes, 0, 1⟩
      toServer := s.toServer ++ [message (s.seq + 1) ts outbuff] }
  | .alarm ts => match s.wait with
    | none => .error ()
    | some w => match rttTimeout w.nrexmt with
      | none => .ok { s with
          wait := none
          results := s.results ++ [⟨w.outbuff, w.inbytes, w.sends, none⟩] }
      | some n => .ok { s with
          wait := some { w with nrexmt := n, sends := w.sends + 1 }
          toServer := s.toServer ++ [message s.seq ts w.outbuff] }
  | .recv i => match s.wait, s.toClient[i]? with
    | some w, some d => match recvmsg s.seq w.inbytes d with
      | none => .ok { s with toClient := s.toClient.eraseIdx i }
      | some data => .ok { s with
          wait := none
          toClient := s.toClient.eraseIdx i
          results := s.results ++ [⟨w.outbuff, w.inbytes, w.sends, some data⟩] }
    | _, _ => .error ()
  | .echo i => match s.toServer[i]? with
    | none => .error ()
    | some d => .ok { s with toServer := s.toServer.eraseIdx i, toClient := s.toClient ++ [dgEcho d] }
  | .loseRequest i => .ok { s with toServer := s.toServer.eraseIdx i }
  | .loseReply i => .ok { s with toClient := s.toClient.eraseIdx i }
  | .repeatRequest i => .ok { s with toServer := s.toServer ++ s.toServer[i]?.toList }
  | .repeatReply i => .ok { s with toClient := s.toClient ++ s.toClient[i]?.toList }

def echoed (outbuff : List UInt8) (inbytes : Nat) : List UInt8 := (outbuff.take (maxline - hdrSize)).take inbytes

theorem take_message (seq ts : UInt32) (outbuff : List UInt8) (n : Nat) :
    (message seq ts outbuff).take (hdrSize + n) = message seq ts (outbuff.take n) :=
  @List.take_length_add_append _ (wordBytes seq.toNat ++ wordBytes ts.toNat) outbuff n

theorem recvmsg_dgEcho {seq n ts : UInt32} {p data : List UInt8} {inbytes : Nat}
    (h : recvmsg seq inbytes (dgEcho (message n ts p)) = some data) : n = seq ∧ data = echoed p inbytes := by
  have hecho : dgEcho (message n ts p) = message n ts (p.take (maxline - hdrSize)) :=
    take_message n ts p (maxline - hdrSize)
  rw [recvmsg, hecho, take_message] at h
  have hword : readWord (message n ts ((p.take (maxline - hdrSize)).take inbytes)) = n.toNat := by
    rw [message, List.append_assoc, readWord_wordBytes n.toNat_lt]
  rw [hword] at h
  split at h
  · cases h
  case isFalse hne =>
    obtain ⟨-, hseq⟩ := not_or.mp hne
    exact ⟨UInt32.toNat_inj.mp (not_not.mp hseq), (Option.some.inj h).symm⟩

variable {s t : Net} {a : Act} {rs rs' : List (List UInt8)} {d : Datagram}

def Sent (rs : List (List UInt8)) (d : Datagram) : Prop :=
  ∃ j ts p, rs[j]? = some p ∧ d = message (UInt32.ofNat (j + 1)) ts p

theorem Sent.append (h : Sent rs d) : Sent (rs ++ rs') d := by
  obtain ⟨j, ts, p, hj, rfl⟩ := h
  obtain ⟨hlt, -⟩ := List.getElem?_eq_some_iff.mp hj
  exact ⟨j, ts, p, by rwa [List.getElem?_append_left hlt], rfl⟩

structure Answers (rs : List (List UInt8)) (i : Nat) (o : Outcome) : Prop where
  sends : o.sends ≤ rttMaxnrexmt + 1
  gaveUp : o.reply = none → o.sends = rttMaxnrexmt + 1
  reply : ∀ data, o.reply = some data →
    ∃ j p, j ≤ i ∧ j % 2 ^ 32 = i % 2 ^ 32 ∧ rs[j]? = some p ∧ data = echoed p o.inbytes

theorem Answers.append {i : Nat} {o : Outcome} (h : Answers rs i o) : Answers (rs ++ rs') i o := by
  refine ⟨h.sends, h.gaveUp, fun data hd => ?_⟩
  obtain ⟨j, p, hj, hmod, hp, he⟩ := h.reply data hd
  obtain ⟨hlt, -⟩ := List.getElem?_eq_some_iff.mp hp
  exact ⟨j, p, hj, hmod, by rwa [List.getElem?_append_left hlt], he⟩

structure Ok (s : Net) : Prop where
  seq : s.seq = UInt32.ofNat s.requests.length
  toServer : ∀ d ∈ s.toServer, Sent s.requests d
  toClient : ∀ d ∈ s.toClient, ∃ d', Sent s.requests d' ∧ d = dgEcho d'
  wait : ∀ w, s.wait = some w → w.nrexmt ≤ rttMaxnrexmt ∧ w.sends = w.nrexmt + 1
  results : ∀ i o, s.results[i]? = some o → Answers s.requests i o

theorem init_ok : Ok Net.init := ⟨rfl, nofun, nofun, nofun, nofun⟩

theorem sent_request {rs : List (List UInt8)} (p : List UInt8) (ts : UInt32) :
    Sent (rs ++ [p]) (message (UInt32.ofNat (rs ++ [p]).length) ts p) := by
  refine ⟨rs.length, ts, p, by simp, ?_⟩
  rw [List.length_append, List.length_singleton]

theorem requests_of_wait {w : Wait} (hw : s.wait = some w) :
    s.requests = s.results.map Outcome.outbuff ++ [w.outbuff] := by
  rw [Net.requests, hw]
  rfl

theorem Ok.returns (hs : Ok s) {w : Wait} (hw : s.wait = some w) {reply : Option (List UInt8)}
    {toClient : List Datagram} (hsub : toClient ⊆ s.toClient)
    (ho : Answers s.requests s.results.length ⟨w.outbuff, w.inbytes, w.sends, reply⟩) :
    Ok { s with
      wait := none
      toClient := toClient
      results := s.results ++ [⟨w.outbuff, w.inbytes, w.sends, reply⟩] } := by
  have hreq : Net.requests { s with
      wait := none
      toClient := toClient
      results := s.results ++ [⟨w.outbuff, w.inbytes, w.sends, reply⟩] } = s.requests := by
    rw [requests_of_wait hw]
    simp [Net.requests]
  refine ⟨?_, ?_, ?_, nofun, ?_⟩
  · rw [hreq]
    exact hs.seq
  · rw [hreq]
    exact hs.toServer
  · rw [hreq]
    exact fun d hd => hs.toClient d (hsub hd)
  · rw [hreq]
    intro i o hi
    rcases Nat.lt_trichotomy i s.results.length with hlt | rfl | hgt
    · exact hs.results i o (by rwa [List.getElem?_append_left hlt] at hi)
    · rw [List.getElem?_concat_length] at hi
      cases hi
      exact ho
    · rw [List.getElem?_eq_none (by simpa using Nat.succ_le_of_lt hgt)] at hi
      cases hi

theorem Ok.carry (hs : Ok s) {toServer toClient : List Datagram} (hserver : toServer ⊆ s.toServer)
    (hclient : ∀ d ∈ toClient, d ∈ s.toClient ∨ ∃ d' ∈ s.toServer, d = dgEcho d') :
    Ok { s with toServer := toServer, toClient := toClient } where
  seq := hs.seq
  toServer d hd := hs.toServer d (hserver hd)
  toClient d hd := (hclient d hd).elim (hs.toClient d) fun ⟨d', hd', he⟩ => ⟨d', hs.toServer d' hd', he⟩
  wait := hs.wait
  results := hs.results

theorem subset_repeat (l : List Datagram) (i : Nat) : l ++ l[i]?.toList ⊆ l := by
  refine List.append_subset.mpr ⟨List.Subset.refl l, fun d hd => ?_⟩
  exact List.mem_of_getElem? (Option.mem_toList.mp hd)

theorem call_ok (hs : Ok s) (hw : s.wait = none) (outbuff : List UInt8) (inbytes : Nat) (ts : UInt32) :
    Ok { s with
      seq := s.seq + 1
      wait := some ⟨outbuff, inbytes, 0, 1⟩
      toServer := s.toServer ++ [message (s.seq + 1) ts outbuff] } := by
  have hold : s.requests = s.results.map Outcome.outbuff := by
    rw [Net.requests, hw]
    exact List.append_nil _
  have hreq : Net.requests { s with
      seq := s.seq + 1
      wait := some ⟨outbuff, inbytes, 0, 1⟩
      toServer := s.toServer ++ [message (s.seq + 1) ts outbuff] } = s.requests ++ [outbuff] := by
    rw [hold]
    rfl
  have hseq : s.seq + 1 = UInt32.ofNat (s.requests ++ [outbuff]).length := by
    rw [hs.seq, List.length_append, List.length_singleton, UInt32.ofNat_add]
    rfl
  refine ⟨?_, ?_, ?_, ?_, ?_⟩
  · rw [hreq]
    exact hseq
  · rw [hreq, hseq]
    refine List.forall_mem_append.mpr ⟨fun d hd => (hs.toServer d hd).append, ?_⟩
    exact List.forall_mem_singleton.mpr (sent_request outbuff ts)
  · rw [hreq]
    intro d hd
    obtain ⟨d', hd', he⟩ := hs.toClient d hd
    exact ⟨d', hd'.append, he⟩
  · rintro w ⟨⟩
    exact ⟨Nat.zero_le _, rfl⟩
  · rw [hreq]
    exact fun i o hi => (hs.results i o hi).append

theorem rttTimeout_eq_some {n n' : Nat} (h : rttTimeout n = some n') : n' = n + 1 ∧ n + 1 ≤ rttMaxnrexmt := by
  rw [rttTimeout] at h
  split at h
  · cases h
  · exact ⟨(Option.some.inj h).symm, by omega⟩

theorem alarm_ok (hs : Ok s) {w : Wait} (hw : s.wait = some w) {n : Nat} (hn : rttTimeout w.nrexmt = some n)
    (ts : UInt32) :
    Ok { s with
      wait := some { w with nrexmt := n, sends := w.sends + 1 }
      toServer := s.toServer ++ [message s.seq ts w.outbuff] } := by
  obtain ⟨rfl, hle⟩ := rttTimeout_eq_some hn
  have hreq : Net.requests { s with
      wait := some { w with nrexmt := w.nrexmt + 1, sends := w.sends + 1 }
      toServer := s.toServer ++ [message s.seq ts w.outbuff] } = s.requests := by
    rw [requests_of_wait hw]
    rfl
  refine ⟨?_, ?_, ?_, ?_, ?_⟩
  · rw [hreq]
    exact hs.seq
  · rw [hreq]
    refine List.forall_mem_append.mpr ⟨hs.toServer, List.forall_mem_singleton.mpr ?_⟩
    rw [hs.seq, requests_of_wait hw]
    exact sent_request w.outbuff ts
  · rw [hreq]
    exact hs.toClient
  · rintro w' ⟨⟩
    exact ⟨hle, by rw [(hs.wait w hw).2]⟩
  · rw [hreq]
    exact hs.results

theorem answers_gaveUp (hs : Ok s) {w : Wait} (hw : s.wait = some w) (hn : rttTimeout w.nrexmt = none) :
    Answers s.requests s.results.length ⟨w.outbuff, w.inbytes, w.sends, none⟩ := by
  obtain ⟨hle, hsends⟩ := hs.wait w hw
  rw [rttTimeout] at hn
  split at hn
  · have hlast : w.sends = rttMaxnrexmt + 1 := by omega
    exact ⟨hlast.le, fun _ => hlast, nofun⟩
  · cases hn

theorem answers_reply (hs : Ok s) {w : Wait} (hw : s.wait = some w) {data : List UInt8} (hd : d ∈ s.toClient)
    (hr : recvmsg s.seq w.inbytes d = some data) :
    Answers s.requests s.results.length ⟨w.outbuff, w.inbytes, w.sends, some data⟩ := by
  obtain ⟨hle, hsends⟩ := hs.wait w hw
  refine ⟨by rw [hsends]; exact Nat.succ_le_succ hle, nofun, ?_⟩
  rintro _ ⟨⟩
  obtain ⟨-, ⟨j, ts, p, hp, rfl⟩, rfl⟩ := hs.toClient d hd
  obtain ⟨hseq, hdata⟩ := recvmsg_dgEcho hr
  obtain ⟨hlt, -⟩ := List.getElem?_eq_some_iff.mp hp
  have hlen : s.requests.length = s.results.length + 1 := by simp [requests_of_wait hw]
  rw [hs.seq, hlen] at hseq
  have hmod : (j + 1) % 2 ^ 32 = (s.results.length + 1) % 2 ^ 32 := by
    simpa using congrArg UInt32.toNat hseq
  exact ⟨j, p, by omega, by omega, hp, hdata⟩

theorem step_ok (h : step s a = .ok t) (hs : Ok s) : Ok t := by
  revert h
  fun_cases step s a with
  | case2 outbuff inbytes ts hok =>
    rintro ⟨⟩
    refine call_ok hs ?_ outbuff inbytes ts
    simpa using (not_or.mp hok).1
  | case4 ts w hw hn =>
    rintro ⟨⟩
    exact hs.returns hw (List.Subset.refl _) (answers_gaveUp hs hw hn)
  | case5 ts w hw n hn =>
    rintro ⟨⟩
    exact alarm_ok hs hw hn ts
  | case6 =>
    rintro ⟨⟩
    exact hs.carry (List.Subset.refl _) fun d hd => .inl (List.mem_of_mem_eraseIdx hd)
  | case7 i w d hd hw data hr =>
    rintro ⟨⟩
    exact hs.returns hw List.eraseIdx_subset (answers_reply hs hw (List.mem_of_getElem? hd) hr)
  | case10 i d hd =>
    rintro ⟨⟩
    refine hs.carry List.eraseIdx_subset (List.forall_mem_append.mpr ⟨fun d hd => .inl hd, ?_⟩)
    exact List.forall_mem_singleton.mpr (.inr ⟨d, List.mem_of_getElem? hd, rfl⟩)
  | case11 i =>
    rintro ⟨⟩
    exact hs.carry List.eraseIdx_subset fun d hd => .inl hd
  | case12 i =>
    rintro ⟨⟩
    exact hs.carry (List.Subset.refl _) fun d hd => .inl (List.mem_of_mem_eraseIdx hd)
  | case13 i =>
    rintro ⟨⟩
    exact hs.carry (subset_repeat _ i) fun d hd => .inl hd
  | case14 i =>
    rintro ⟨⟩
    exact hs.carry (List.Subset.refl _) fun d hd => .inl (subset_repeat _ i hd)
  | _ => intro h; cases h

/-- However the network loses, repeats and reorders datagrams and whenever the alarm fires, a call sends
at most four times and gives up only after the fourth, and a reply it accepts is the echo of a request
whose number is the same 32-bit number: its own, for the first `2 ^ 32` calls. -/
theorem replies_match_requests (as : List Act) (s : Net) (h : Run step (fun _ _ => True) Net.init as s)
    (i : Nat) (o : Outcome) (ho : s.results[i]? = some o) :
    o.sends ≤ 4 ∧ (o.reply = none → o.sends = 4) ∧
      ∀ data, o.reply = some data →
        (∃ j q, j ≤ i ∧ j % 2 ^ 32 = i % 2 ^ 32 ∧ s.results[j]? = some q ∧
          data = (q.outbuff.take 4088).take o.inbytes) ∧
        (i < 2 ^ 32 → data = (o.outbuff.take 4088).take o.inbytes) := by
  have hok := h.invariant (P := Ok) (fun _ _ _ _ he hs => step_ok he hs) init_ok
  obtain ⟨hsends, hgave, hreply⟩ := hok.results i o ho
  refine ⟨hsends, hgave, fun data hd => ?_⟩
  obtain ⟨j, p, hj, hmod, hp, rfl⟩ := hreply data hd
  obtain ⟨hlt, -⟩ := List.getElem?_eq_some_iff.mp ho
  have hq : (s.results.map Outcome.outbuff)[j]? = some p := by
    rw [Net.requests, List.getElem?_append_left (by rw [List.length_map]; omega)] at hp
    exact hp
  rw [List.getElem?_map, Option.map_eq_some_iff] at hq
  obtain ⟨q, hq, rfl⟩ := hq
  refine ⟨⟨j, q, hj, hmod, hq, rfl⟩, fun hi => ?_⟩
  have hji : j = i := by omega
  subst hji
  cases ho.symm.trans hq
  rfl

def sampleRun : List Act :=
  [.call [1, 2] 8 0, .loseRequest 0, .alarm 3, .echo 0, .repeatReply 0, .alarm 9, .recv 0,
    .call [3] 8 12, .recv 0, .echo 1, .recv 0]

theorem replies_match_requests_sample : ∃ s o, Run step (fun _ _ => True) Net.init sampleRun s ∧
    s.results[1]? = some o ∧ ∀ data, o.reply = some data → data = (o.outbuff.take 4088).take o.inbytes := by
  have hr : Run step (fun _ _ => True) Net.init sampleRun _ := run_final_any (g := fun _ _ => true) rfl
  refine ⟨_, ⟨[3], 8, 1, some [3]⟩, hr, rfl, fun data hd => ?_⟩
  exact ((replies_match_requests sampleRun _ hr 1 ⟨[3], 8, 1, some [3]⟩ rfl).2.2 data hd).2 (by decide)

end Wspack.Udp
