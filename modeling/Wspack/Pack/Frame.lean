import Wspack.Lib.Text

namespace Wspack.Pack.Frame

open Lib

def maxEthFrame : Nat := 36000
def packetLen : Nat := 36000
def chunkNum : Nat := 32

def ethhdrSize : Nat := 14

def iphdrSize : Nat := 20

def ntohs (data : Nat → UInt8) (i : Nat) : Nat := (data i).toNat * 256 + (data (i + 1)).toNat

def ihl (data : Nat → UInt8) : Nat := (data ethhdrSize).toNat % 16

def totLen (data : Nat → UInt8) : Nat := ntohs data (ethhdrSize + 2)

def protocol (data : Nat → UInt8) : UInt8 := data (ethhdrSize + 9)

def doff (data : Nat → UInt8) (tcph : Nat) : Nat := (data (tcph + 12)).toNat / 16

def syn (data : Nat → UInt8) (tcph : Nat) : Bool := (data (tcph + 13)).toNat / 2 % 2 == 1

def port80 (data : Nat → UInt8) (tcph : Nat) : Bool := ntohs data tcph == 80 || ntohs data (tcph + 2) == 80

def bytes (data : Nat → UInt8) (start len : Nat) : List UInt8 := (List.range len).map fun i => data (start + i)

/-- What becomes of a frame: a copy beyond `play_data`, nothing passed on, or the bytes that
`pack_calculate_part` and `pack_SHA` are given. -/
inductive Outcome
  | overflow
  | skipped
  | passed (playData : List UInt8)
  deriving DecidableEq

def printPcap (data : Nat → UInt8) : Outcome :=
  if ntohs data 12 = 0x0800 then
    if protocol data = 6 then
      let tcph := ethhdrSize + iphdrSize
      if syn data tcph = false ∧ port80 data tcph = true then
        let len : Int := totLen data - ihl data * 4 - doff data tcph * 4
        if 0 < len then
          match writeAt (List.replicate packetLen 0) 0 (bytes data (tcph + doff data tcph * 4) len.toNat) with
          | none => .overflow
          | some playData => if (chunkNum : Int) ≤ len then .passed (playData.take len.toNat) else .skipped
        else .skipped
      else .skipped
    else .skipped
  else .skipped

def tcpStart (data : Nat → UInt8) : Nat := ethhdrSize + ihl data * 4

/-- A captured frame of an established TCP connection with port 80 on either side, in the buffer
that `main` has cleared. -/
structure WellFormed (data : Nat → UInt8) (captureLen : Nat) : Prop where
  fits : captureLen ≤ maxEthFrame
  ip : ntohs data 12 = 0x0800
  tcp : protocol data = 6
  ihl : 5 ≤ ihl data
  doff : 5 ≤ doff data (tcpStart data)
  headers : Frame.ihl data * 4 + Frame.doff data (tcpStart data) * 4 ≤ totLen data
  captured : ethhdrSize + totLen data ≤ captureLen
  port : port80 data (tcpStart data) = true
  established : syn data (tcpStart data) = false

def payload (data : Nat → UInt8) : List UInt8 :=
  bytes data (tcpStart data + doff data (tcpStart data) * 4)
    (totLen data - ihl data * 4 - doff data (tcpStart data) * 4)

def expected (data : Nat → UInt8) : Outcome :=
  if chunkNum ≤ (payload data).length then .passed (payload data) else .skipped

/-- The bytes behind the first twenty of the IP header, read as a TCP header, are those of a
segment that is passed on. -/
def taken (data : Nat → UInt8) : Prop :=
  syn data 34 = false ∧ port80 data 34 = true ∧ ihl data * 4 + doff data 34 * 4 + chunkNum ≤ totLen data

instance (data : Nat → UInt8) : Decidable (taken data) := inferInstanceAs (Decidable (_ ∧ _ ∧ _))

/-- What is read at that place comes to the same as what is in the TCP header. -/
def Misleading (data : Nat → UInt8) : Prop :=
  (payload data).length < chunkNum ∧ ¬taken data ∨
  chunkNum ≤ (payload data).length ∧ taken data ∧ doff data 34 = doff data (tcpStart data) ∧
    ∀ i < (payload data).length,
      data (34 + doff data 34 * 4 + i) = data (tcpStart data + doff data (tcpStart data) * 4 + i)

theorem length_bytes (data : Nat → UInt8) (start len : Nat) : (bytes data start len).length = len := by
  rw [bytes, List.length_map, List.length_range]

theorem bytes_inj {data : Nat → UInt8} {start start' len len' : Nat} :
    bytes data start len = bytes data start' len' ↔
      len = len' ∧ ∀ i < len, data (start + i) = data (start' + i) := by
  constructor
  · intro h
    have hlen := congrArg List.length h
    rw [length_bytes, length_bytes] at hlen
    subst hlen
    refine ⟨rfl, fun i hi => ?_⟩
    exact List.map_inj_left.mp h i (List.mem_range.mpr hi)
  · rintro ⟨rfl, h⟩
    exact List.map_inj_left.mpr fun i hi => h i (List.mem_range.mp hi)

theorem length_payload (data : Nat → UInt8) :
    (payload data).length = totLen data - ihl data * 4 - doff data (tcpStart data) * 4 :=
  length_bytes _ _ _

theorem printPcap_eq {data : Nat → UInt8} {captureLen : Nat} (h : WellFormed data captureLen) :
    printPcap data = if taken data then
      .passed (bytes data (34 + doff data 34 * 4) (totLen data - ihl data * 4 - doff data 34 * 4))
    else .skipped := by
  have hfits := h.fits
  have hcaptured := h.captured
  rw [maxEthFrame] at hfits
  rw [ethhdrSize] at hcaptured
  rw [printPcap, if_pos h.ip, if_pos h.tcp]
  change (if syn data 34 = false ∧ port80 data 34 = true then _ else _) = _
  by_cases hhead : syn data 34 = false ∧ port80 data 34 = true
  · rw [if_pos hhead]
    let len : Int := totLen data - ihl data * 4 - doff data 34 * 4
    change (if 0 < len then _ else _) = _
    by_cases hpos : 0 < len
    · have hnat : len.toNat = totLen data - ihl data * 4 - doff data 34 * 4 := by omega
      have hcopy : (bytes data (34 + doff data 34 * 4) len.toNat).length ≤
          (List.replicate packetLen (0 : UInt8)).length := by
        rw [length_bytes, List.length_replicate, packetLen]
        omega
      have htake : (bytes data (34 + doff data 34 * 4) len.toNat ++ (List.replicate packetLen 0).drop
          (bytes data (34 + doff data 34 * 4) len.toNat).length).take len.toNat =
          bytes data (34 + doff data 34 * 4) len.toNat :=
        List.take_left' (length_bytes _ _ _)
      have htaken : (chunkNum : Int) ≤ len ↔ taken data := by
        rw [taken, and_iff_right hhead.1, and_iff_right hhead.2]
        omega
      rw [if_pos hpos]
      change (match writeAt (List.replicate packetLen 0) 0 (bytes data (34 + doff data 34 * 4) len.toNat) with
        | none => _
        | some playData => if (chunkNum : Int) ≤ len then Outcome.passed (playData.take len.toNat) else _) = _
      rw [writeAt_zero hcopy]
      simp only [htake, htaken]
      rw [hnat]
    · have hnot : ¬taken data := by
        rintro ⟨-, -, hlen⟩
        rw [chunkNum] at hlen
        omega
      rw [if_neg hpos, if_neg hnot]
  · have hnot : ¬taken data := fun ht => hhead ⟨ht.1, ht.2.1⟩
    rw [if_neg hhead, if_neg hnot]

theorem tcpStart_plain {data : Nat → UInt8} (h5 : ihl data = 5) : tcpStart data = 34 := by
  rw [tcpStart, h5, ethhdrSize]

theorem WellFormed.taken_iff {data : Nat → UInt8} {captureLen : Nat} (h : WellFormed data captureLen)
    (h5 : Frame.ihl data = 5) : taken data ↔ chunkNum ≤ (payload data).length := by
  have hlen := length_payload data
  have hheaders := h.headers
  have hsyn := h.established
  have hport := h.port
  rw [tcpStart_plain h5] at hsyn hport hlen hheaders
  refine ⟨fun ht => ?_, fun hp => ⟨hsyn, hport, ?_⟩⟩
  · obtain ⟨-, -, ht⟩ := ht
    omega
  · rw [chunkNum] at hp ⊢
    omega

theorem WellFormed.bytes_eq_payload {data : Nat → UInt8} {captureLen : Nat}
    (h : WellFormed data captureLen) (ht : taken data) :
    bytes data (34 + Frame.doff data 34 * 4)
        (totLen data - Frame.ihl data * 4 - Frame.doff data 34 * 4) = payload data ↔
      Frame.doff data 34 = Frame.doff data (tcpStart data) ∧ ∀ i < (payload data).length,
        data (34 + Frame.doff data 34 * 4 + i) =
          data (tcpStart data + Frame.doff data (tcpStart data) * 4 + i) := by
  have hheaders := h.headers
  obtain ⟨-, -, htot⟩ := ht
  rw [payload, bytes_inj, ← payload, length_payload]
  constructor
  · rintro ⟨he, hb⟩
    exact ⟨by omega, he ▸ hb⟩
  · rintro ⟨he, hb⟩
    exact ⟨by rw [he], by rwa [he] at hb ⊢⟩

theorem payload_extraction_iff {data : Nat → UInt8} {captureLen : Nat} (h : WellFormed data captureLen) :
    printPcap data ≠ .overflow ∧ (printPcap data = expected data ↔ ihl data = 5 ∨ Misleading data) := by
  rw [printPcap_eq h, expected]
  by_cases ht : taken data
  · rw [if_pos ht]
    refine ⟨Outcome.noConfusion, ?_⟩
    by_cases hlong : chunkNum ≤ (payload data).length
    · rw [if_pos hlong, Outcome.passed.injEq, h.bytes_eq_payload ht]
      constructor
      · exact fun hb => .inr (.inr ⟨hlong, ht, hb⟩)
      · rintro (h5 | ⟨hshort, -⟩ | ⟨-, -, hb⟩)
        · rw [tcpStart_plain h5]
          exact ⟨rfl, fun _ _ => rfl⟩
        · omega
        · exact hb
    · rw [if_neg hlong]
      refine ⟨fun he => Outcome.noConfusion he, ?_⟩
      rintro (h5 | ⟨-, hnot⟩ | ⟨hl, -⟩)
      · exact absurd ((h.taken_iff h5).mp ht) hlong
      · exact absurd ht hnot
      · exact absurd hl hlong
  · rw [if_neg ht]
    refine ⟨Outcome.noConfusion, ?_⟩
    by_cases hlong : chunkNum ≤ (payload data).length
    · rw [if_pos hlong]
      refine ⟨fun he => Outcome.noConfusion he, ?_⟩
      rintro (h5 | ⟨hshort, -⟩ | ⟨-, htaken, -⟩)
      · exact absurd ((h.taken_iff h5).mpr hlong) ht
      · omega
      · exact absurd htaken ht
    · rw [if_neg hlong]
      exact ⟨fun _ => .inr (.inl ⟨by omega, ht⟩), fun _ => rfl⟩

def sampleFrame (options : List UInt8) : Nat → UInt8 := fun i =>
  (List.replicate 12 0 ++ [0x08, 0x00] ++
    [0x45 + (options.length / 4).toUInt8, 0, 0, 80 + options.length.toUInt8, 0, 0, 0, 0, 64, 6, 0, 0,
      10, 0, 0, 1, 10, 0, 0, 2] ++ options ++
    [0, 80, 0x1f, 0x90, 0, 0, 0, 0, 0, 0, 0, 0, 0x50, 0x10, 0, 0, 0, 0, 0, 0] ++
    List.replicate 40 7).getD i 0

theorem payload_extraction_plain :
    printPcap (sampleFrame []) ≠ .overflow ∧
      (printPcap (sampleFrame []) = expected (sampleFrame []) ↔
        ihl (sampleFrame []) = 5 ∨ Misleading (sampleFrame [])) := by
  have h : WellFormed (sampleFrame []) 94 :=
    ⟨by decide, by decide, by decide, by decide, by decide, by decide, by decide, by decide, by decide⟩
  exact payload_extraction_iff h

theorem payload_lost_behind_options :
    WellFormed (sampleFrame [1, 1, 1, 0]) 98 ∧ (payload (sampleFrame [1, 1, 1, 0])).length = 40 ∧
      printPcap (sampleFrame [1, 1, 1, 0]) = .skipped :=
  ⟨⟨by decide, by decide, by decide, by decide, by decide, by decide, by decide, by decide, by decide⟩,
    by decide, by decide⟩

end Wspack.Pack.Frame
