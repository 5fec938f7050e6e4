import Wspack.Pack.Conserve

namespace Wspack.Pack

open Lib
open KernelHash (Digest wrapInt)

variable {digest : List UInt8 → Digest} {fit : Prop} {s t : Packer} {base playload : List UInt8}
  {ps qs : List (List UInt8)} {C : Packer → List UInt8 → Prop} {delayTime : Nat}

def firstCut (delayTime : Nat) (playload : List UInt8) : Option Nat :=
  (List.range' (chunkNum - 1 + delayTime) (playload.length - (chunkNum - 1) - delayTime)).find?
    (cuts playload)

/-- The counters hold what they count: an `int` the length of the chunk that the first part
point completes, an `unsigned long` the bytes up to and with this packet. -/
def countersFit (s : Packer) (playload : List UInt8) : Bool :=
  (firstCut s.delayTime playload).all (fun pp => s.remainData.stop + (pp + 1) < 2 ^ 31) &&
    s.sumLen.toNat + playload.length < 2 ^ 64

theorem countersFit_iff : countersFit s playload = true ↔
    (∀ pp, firstCut s.delayTime playload = some pp → s.remainData.stop + (pp + 1) < 2 ^ 31) ∧
      s.sumLen.toNat + playload.length < 2 ^ 64 := by
  simp [countersFit, Option.all_eq_true]

theorem partPointsOk_partPoints :
    PartPointsOk playload (countPacket :: playload.length :: partPoints delayTime playload) where
  header := by simp
  increasing := partPoints_increasing
  bounds i hi := by
    have := mem_partPoints hi
    omega

theorem head?_partPoints : (partPoints delayTime playload).head? = firstCut delayTime playload :=
  head?_scan

theorem packSHA_two (h : s.part.length = 2) : packSHA digest playload s =
    .ok { s with
      remainData := chunkMerge s.remainData playload 0 (playload.length - 1)
      calls := s.calls ++ [.chunk (.merge 0 (Int64.ofNat (playload.length - 1)))] } := by
  rw [packSHA, h]
  rfl

theorem packSHA_loop {n : Nat} (h : s.part.length = n + 3) : packSHA digest playload s =
    .ok (storeRest (chunkLoop digest playload n 3 (firstChunk digest s playload (s.part.getD 2 0))) playload
      (s.part.getD (n + 2) 0)) := by
  cases n with
  | zero =>
    rw [packSHA, h]
    rfl
  | succ n =>
    rw [packSHA, h]
    set t := chunkLoop digest playload (n + 1) 3 (firstChunk digest s playload (s.part.getD 2 0))
    have hpart : t.part = s.part := congrArg Parting.part (Kept.firstChunk.trans Kept.chunkLoop).parting
    change Except.ok (storeRest t playload (t.part.getD (n + 3) 0)) = _
    rw [hpart]

theorem packSHA_hashing (h : Hashing digest fit base s) (hp : PartPointsOk playload s.part)
    (hlen : chunkNum ≤ playload.length) (hlen' : playload.length ≤ packetLen)
    (hfit : fit → ∀ pp, s.part[2]? = some pp → s.remainData.stop + (pp + 1) < 2 ^ 31)
    (hbound : fit → (base ++ playload).length < 2 ^ 64) :
    ∃ t, packSHA digest playload s = .ok t ∧ Hashing digest fit (base ++ playload) t ∧ Kept s t := by
  have hpos : 0 < playload.length := lt_of_lt_of_le (by decide) hlen
  have hfirst := fun hn : 2 < s.part.length => HashedTo.firstChunk h hp hn
    (fun hf => hfit hf _ (by rw [List.getD_eq_getElem _ _ hn, List.getElem?_eq_getElem hn])) hbound
  obtain hn | ⟨n, hn⟩ : s.part.length = 2 ∨ ∃ n, s.part.length = n + 3 := by
    have := hp.header
    rcases Nat.lt_or_ge s.part.length 3 with h3 | h3
    · omega
    · exact .inr ⟨_, (Nat.sub_add_cancel h3).symm⟩
  · refine ⟨_, packSHA_two hn, ⟨?_, h.table.keep rfl rfl, h.saved⟩, ⟨rfl, rfl, rfl⟩⟩
    dsimp only
    rw [bytes_chunkMerge (Nat.zero_le _) (by omega), ← List.append_assoc, h.stream, slice,
      List.drop_zero, List.take_of_length_le (by omega)]
  · have hloop := (hfirst (by omega)).chunkLoop (n := n) hp hlen' le_rfl (by omega) hbound
    refine ⟨_, packSHA_loop hn, ?_, Kept.firstChunk.trans (Kept.chunkLoop.trans Kept.storeRest)⟩
    rw [show s.part.length - 1 = n + 2 by omega] at hloop
    exact hloop.storeRest (hp.lt_length (by omega) (by omega))

theorem printPcap_eq {parting : Parting} (hlen : chunkNum ≤ playload.length)
    (hcalc : packCalculatePart playload ⟨[], s.delayTime⟩ = .ok parting)
    (hsha : packSHA digest playload
      { s with toParting := parting, partLog := s.partLog ++ [parting.part] } = .ok t) :
    printPcap digest s playload = .ok { t with sumLen := t.sumLen + playload.length.toUInt64 } := by
  rw [printPcap, if_pos hlen, hcalc]
  change packSHA digest playload _ >>= _ = _
  rw [hsha]
  rfl

structure Packed (digest : List UInt8 → Digest) (fit : Prop) (ps : List (List UInt8)) (s : Packer) :
    Prop where
  hashing : Hashing digest fit ps.flatten s
  parts : List.Forall₂ PartPointsOk ps s.partLog
  total : fit → s.sumLen.toNat = ps.flatten.length

theorem Packed.step (h : Packed digest fit ps s) (hlen : chunkNum ≤ playload.length)
    (hlen' : playload.length ≤ packetLen) (hfit : fit → countersFit s playload = true) :
    ∃ t, printPcap digest s playload = .ok t ∧ Packed digest fit (ps ++ [playload]) t := by
  obtain ⟨d, hcalc⟩ := packCalculatePart_eq hlen hlen' s.delayTime
  have hp := @partPointsOk_partPoints playload s.delayTime
  have hbound : fit → (ps.flatten ++ playload).length < 2 ^ 64 := fun hf => by
    rw [List.length_append, ← h.total hf]
    exact (countersFit_iff.mp (hfit hf)).2
  have hfirst : fit → ∀ pp, (partPoints s.delayTime playload)[0]? = some pp →
      s.remainData.stop + (pp + 1) < 2 ^ 31 := fun hf pp hpp => by
    rw [← List.head?_eq_getElem?, head?_partPoints] at hpp
    exact (countersFit_iff.mp (hfit hf)).1 pp hpp
  obtain ⟨t, hsha, ht, hkept⟩ := @packSHA_hashing digest fit
    { s with
      part := countPacket :: playload.length :: partPoints s.delayTime playload
      delayTime := d
      partLog := s.partLog ++ [countPacket :: playload.length :: partPoints s.delayTime playload] }
    ps.flatten playload ⟨h.hashing.stream, h.hashing.table.keep rfl rfl, h.hashing.saved⟩ hp hlen hlen'
    hfirst hbound
  refine ⟨_, printPcap_eq hlen hcalc hsha, ?_, ?_, ?_⟩
  · rw [List.flatten_append, List.flatten_singleton]
    exact ⟨ht.stream, ht.table.keep rfl rfl, ht.saved⟩
  · exact hkept.partLog ▸ List.rel_append h.parts (.cons hp .nil)
  · intro hf
    have hb := hbound hf
    have hsum : t.sumLen.toNat = ps.flatten.length := by rw [hkept.sumLen, ← h.total hf]
    rw [List.length_append] at hb
    simp only [UInt64.toNat_add, hsum, List.flatten_append, List.flatten_singleton,
      List.length_append, Nat.toUInt64_eq, UInt64.toNat_ofNat']
    omega

theorem Packed.run (hr : Run (printPcap digest) C s qs t)
    (hfit : fit → ∀ s p, C s p → countersFit s p = true) (h : Packed digest fit ps s)
    (hlen : ∀ p ∈ qs, chunkNum ≤ p.length ∧ p.length ≤ packetLen) : Packed digest fit (ps ++ qs) t := by
  induction hr generalizing ps with
  | nil => rwa [List.append_nil]
  | @cons s u t p qs hc he _ ih =>
    have hp := hlen p List.mem_cons_self
    obtain ⟨u', hu', hstep⟩ := h.step hp.1 hp.2 (fun hf => hfit hf _ _ hc)
    cases he.symm.trans hu'
    have := ih hstep (fun q hq => hlen q (List.mem_cons_of_mem _ hq))
    rwa [List.append_assoc] at this

theorem exists_run (h : Packed digest False ps s)
    (hlen : ∀ p ∈ qs, chunkNum ≤ p.length ∧ p.length ≤ packetLen) :
    ∃ t, Run (printPcap digest) (fun _ _ => True) s qs t := by
  induction qs generalizing ps s with
  | nil => exact ⟨s, .nil s⟩
  | cons p qs ih =>
    have hp := hlen p List.mem_cons_self
    obtain ⟨u, hu, hstep⟩ := h.step hp.1 hp.2 nofun
    obtain ⟨t, ht⟩ := ih hstep (fun q hq => hlen q (List.mem_cons_of_mem _ hq))
    exact ⟨t, .cons trivial hu ht⟩

theorem packed_start (remainData : Chunk) (delayTime : Nat) :
    Packed digest fit [] (start remainData delayTime) := by
  refine ⟨⟨rfl, ⟨Hashmap.Ok.create, rfl, rfl, fun d => ?_⟩, fun _ => rfl⟩, .nil, fun _ => rfl⟩
  rw [start, Hashmap.get_create]
  simp

def StreamConserved (ps : List (List UInt8)) (s : Packer) : Prop :=
  List.Forall₂ PartPointsOk ps s.partLog ∧ s.hashed.flatten ++ s.remainData.bytes = ps.flatten

def SavingsExact (digest : List UInt8 → Digest) (s : Packer) : Prop :=
  s.saveLen.toNat = savedBytes digest s.hashed ∧ s.saveLen ≤ s.sumLen

/-- The packer reads every capture to its end and loses nothing of it; while its counters
hold what they count, the savings are those of the repeated chunks. -/
theorem stream_conserved (digest : List UInt8 → Digest) (remainData : Chunk) (delayTime : Nat)
    (ps : List (List UInt8))
    (hlen : ∀ p ∈ ps, chunkNum ≤ p.length ∧ p.length ≤ packetLen) :
    (∃ s, Run (printPcap digest) (fun _ _ => True) (start remainData delayTime) ps s) ∧
      ∀ s, Run (printPcap digest) (fun _ _ => True) (start remainData delayTime) ps s →
        StreamConserved ps s ∧
          (Run (printPcap digest) (fun s p => countersFit s p = true) (start remainData delayTime)
            ps s → SavingsExact digest s) := by
  refine ⟨exists_run (packed_start remainData delayTime) hlen, fun s hr => ⟨?_, fun hfit => ?_⟩⟩
  · have h : Packed digest False ([] ++ ps) s :=
      Packed.run hr nofun (packed_start remainData delayTime) hlen
    exact ⟨h.parts, h.hashing.stream⟩
  · have h : Packed digest True ([] ++ ps) s :=
      Packed.run hfit (fun _ _ _ hc => hc) (packed_start remainData delayTime) hlen
    have hsaved := h.hashing.saved trivial
    have hhashed : s.hashed.flatten.length ≤ ([] ++ ps).flatten.length := by
      rw [← h.hashing.stream, List.length_append]
      exact Nat.le_add_right _ _
    refine ⟨hsaved, UInt64.le_iff_toNat_le.mpr ?_⟩
    rw [h.total trivial, hsaved]
    exact (savedBytes_le _).trans hhashed

def shaOfBs (c : List UInt8) : Digest :=
  let text := c.take (c.length % 2 ^ 32)
  if text = List.replicate 32 98 then
    #v[20, 46, 39, 202, 109, 23, 153, 112, 80, 127, 64, 118, 226, 172, 150, 254, 197, 131, 79, 130]
  else if text = List.replicate 33 98 then
    #v[116, 89, 112, 193, 193, 235, 41, 205, 137, 109, 206, 41, 75, 165, 23, 123, 125, 74, 207, 53]
  else if text = List.replicate 64 98 then
    #v[157, 104, 47, 249, 167, 1, 134, 3, 2, 49, 118, 184, 193, 41, 38, 198, 161, 85, 16, 238]
  else Vector.replicate 20 0

def twoPackets : List (List UInt8) := [List.replicate 100 98, List.replicate 100 98]

def packTwo : Packer :=
  final (printPcap shaOfBs) countersFit (start (chunkCreate (fun _ => 0)) 0) twoPackets

theorem stream_conserved_twoPackets :
    StreamConserved twoPackets packTwo ∧ SavingsExact shaOfBs packTwo ∧ packTwo.saveLen = 66 := by
  have hrun : Run (printPcap shaOfBs) (fun s p => countersFit s p = true)
      (start (chunkCreate (fun _ => 0)) 0) twoPackets packTwo := run_final (by decide +kernel)
  obtain ⟨hstream, hsaved⟩ := (stream_conserved shaOfBs (chunkCreate (fun _ => 0)) 0 twoPackets
    (by decide)).2 packTwo (hrun.mono (fun _ _ _ => trivial))
  exact ⟨hstream, hsaved hrun, by decide +kernel⟩

theorem packCalculatePart_short (h : playload.length = chunkNum) (delayTime : Nat) :
    packCalculatePart playload ⟨[], delayTime⟩ =
      partPoint playload (txthashAt playload 0) (chunkNum - 1) ⟨[countPacket, chunkNum], delayTime⟩ := by
  change (partPoint _ _ _ ⟨[countPacket, playload.length], delayTime⟩ >>= fun s =>
    calculateLoop playload (playload.length - chunkNum) chunkNum _ s) = _
  rw [h, Nat.sub_self]
  exact bind_pure _

theorem printPcap_pass (h : playload.length = chunkNum)
    (hc : s.delayTime = 0 → cuts playload (chunkNum - 1) = false) :
    ∃ t, printPcap digest s playload = .ok t ∧ t.delayTime = s.delayTime - 1 ∧ t.hashed = s.hashed ∧
      t.saveLen = s.saveLen := by
  have hcalc : packCalculatePart playload ⟨[], s.delayTime⟩ =
      .ok ⟨[countPacket, chunkNum], s.delayTime - 1⟩ := by
    rw [packCalculatePart_short h, partPoint]
    by_cases hd : s.delayTime = 0
    · have hn := hc hd
      rw [cuts, Nat.sub_self, Bool.or_eq_false_iff, beq_eq_false_iff_ne] at hn
      simp [hd, hn]
    · simp [hd]
  exact ⟨_, printPcap_eq h.ge hcalc (packSHA_two rfl), rfl, rfl, rfl⟩

theorem printPcap_cut (h : playload.length = chunkNum) (hd : s.delayTime = 0)
    (hc : cuts playload (chunkNum - 1) = true) :
    ∃ t, printPcap digest s playload = .ok t ∧ t.delayTime = step ∧
      t.hashed = s.hashed ++ [s.remainData.bytes ++ playload] ∧
      t.saveLen = if (s.map.get (digest (s.remainData.bytes ++ playload))).isSome then
        s.saveLen + UInt64.ofInt (wrapInt (s.remainData.bytes ++ playload).length) else s.saveLen := by
  have hcalc : packCalculatePart playload ⟨[], s.delayTime⟩ =
      .ok ⟨[countPacket, chunkNum, chunkNum - 1], step⟩ := by
    rw [cuts, Nat.sub_self, Bool.or_eq_true, beq_iff_eq] at hc
    rw [packCalculatePart_short h, partPoint, hd, if_pos rfl, if_pos hc]
    rfl
  have hbytes : (chunkMerge s.remainData playload 0 (chunkNum - 1)).bytes =
      s.remainData.bytes ++ playload := by
    rw [bytes_chunkMerge (Nat.zero_le _) (by rw [h]; decide), slice, List.drop_zero,
      List.take_of_length_le (by rw [h]; rfl)]
  refine ⟨_, printPcap_eq h.ge hcalc (packSHA_loop (n := 0) rfl), ?_⟩
  rw [chunkLoop, storeRest, if_neg (by rw [h]; simp)]
  refine ⟨?_, ?_, ?_⟩
  · exact congrArg Parting.delayTime Kept.firstChunk.parting
  · rw [firstChunk, hashChunk_hashed]
    change s.hashed ++ [(chunkMerge s.remainData playload 0 (chunkNum - 1)).bytes] = _
    rw [hbytes]
  · rw [firstChunk, hashChunk_saveLen]
    change (if (s.map.get (digest (chunkMerge s.remainData playload 0 (chunkNum - 1)).bytes)).isSome
      then s.saveLen + UInt64.ofInt (wrapInt (chunkMerge s.remainData playload 0 (chunkNum - 1)).stop)
      else s.saveLen) = _
    rw [← length_bytes, hbytes]

def letters : List UInt8 := List.replicate 32 98

def evens : List UInt8 := (List.range 32).map (fun i => if i % 2 = 0 then 98 else 100)

theorem cuts_letters : cuts letters (chunkNum - 1) = true := by decide +kernel

theorem cuts_evens : cuts evens (chunkNum - 1) = false := by decide +kernel

theorem printPcap_evens (digest : List UInt8 → Digest) (n : Nat) (s : Packer) :
    ∃ t, Run (printPcap digest) (fun _ _ => True) s (List.replicate n evens) t ∧
      t.delayTime = s.delayTime - n ∧ t.hashed = s.hashed ∧ t.saveLen = s.saveLen := by
  induction n generalizing s with
  | zero => exact ⟨s, .nil s, rfl, rfl, rfl⟩
  | succ n ih =>
    obtain ⟨u, hu, hud, huh, hus⟩ := @printPcap_pass digest s evens (by decide) (fun _ => cuts_evens)
    obtain ⟨t, ht, htd, hth, hts⟩ := ih u
    refine ⟨t, .cons trivial hu ht, ?_, hth.trans huh, hts.trans hus⟩
    rw [htd, hud]
    omega

def longChunk (n : Nat) : List (List UInt8) :=
  letters :: letters :: (List.replicate n evens ++ [letters])

theorem mem_longChunk {n : Nat} {p : List UInt8} (h : p ∈ longChunk n) : p = letters ∨ p = evens := by
  simp only [longChunk, List.mem_cons, List.mem_append, List.mem_replicate, List.not_mem_nil] at h
  tauto

def longBytes (n : Nat) : List UInt8 := letters ++ (List.replicate n evens).flatten ++ letters

theorem length_longBytes (n : Nat) : (longBytes n).length = 32 * n + 64 := by
  simp [longBytes, letters, evens]
  omega

theorem longChunk_rest (n : Nat) (hn : 31 ≤ n) :
    ∃ s, Run (printPcap shaOfBs) (fun _ _ => True) (start (chunkCreate (fun _ => 0)) 0)
        (letters :: letters :: List.replicate n evens) s ∧
      Packed shaOfBs False (letters :: letters :: List.replicate n evens) s ∧
      s.delayTime = 0 ∧ s.hashed = [letters] ∧ s.saveLen = 0 := by
  have h0 : Packed shaOfBs False [] (start (chunkCreate (fun _ => 0)) 0) := packed_start _ _
  obtain ⟨s₁, h₁, hd₁, hh₁, hs₁⟩ := @printPcap_cut shaOfBs (start (chunkCreate (fun _ => 0)) 0) letters
    (by decide) rfl cuts_letters
  obtain ⟨s₂, h₂, hd₂, hh₂, hs₂⟩ := @printPcap_pass shaOfBs s₁ letters (by decide)
    (fun h => absurd (hd₁.symm.trans h) (by decide))
  obtain ⟨s₃, h₃, hd₃, hh₃, hs₃⟩ := printPcap_evens shaOfBs n s₂
  have hrun : Run (printPcap shaOfBs) (fun _ _ => True) (start (chunkCreate (fun _ => 0)) 0)
      (letters :: letters :: List.replicate n evens) s₃ := .cons trivial h₁ (.cons trivial h₂ h₃)
  refine ⟨s₃, hrun, Packed.run hrun nofun h0 (by simp +decide [List.mem_replicate]), ?_, ?_, ?_⟩
  · rw [hd₃, hd₂, hd₁, step]
    omega
  · rw [hh₃, hh₂, hh₁]
    rfl
  · rw [hs₃, hs₂, hs₁]
    simp [start, Hashmap.get_create]

theorem longChunk_run (n : Nat) (hn : 31 ≤ n) :
    ∃ t, Run (printPcap shaOfBs) (fun _ _ => True) (start (chunkCreate (fun _ => 0)) 0) (longChunk n) t ∧
      t.hashed = [letters, longBytes n] ∧
      (shaOfBs (longBytes n) = shaOfBs letters →
        t.saveLen = UInt64.ofInt (wrapInt (longBytes n).length)) := by
  obtain ⟨s, hrun, hpacked, hdelay, hhashed, hsaved⟩ := longChunk_rest n hn
  obtain ⟨t, ht, -, hh, hs⟩ := @printPcap_cut shaOfBs s letters (by decide) hdelay cuts_letters
  have hrest : s.remainData.bytes = letters ++ (List.replicate n evens).flatten := by
    have hstream := hpacked.hashing.stream
    rw [hhashed] at hstream
    exact List.append_cancel_left (hstream.trans (by simp) : letters ++ _ = letters ++ _)
  rw [hrest] at hh hs
  refine ⟨t, hrun.append (.single trivial ht), by rw [hh, hhashed]; rfl, fun hsha => ?_⟩
  have hknown : (s.map.get (shaOfBs (longBytes n))).isSome = true :=
    (hpacked.hashing.table.known _).mpr (by rw [hsha, hhashed]; simp)
  rw [hs, hsaved]
  change (if (s.map.get (shaOfBs (longBytes n))).isSome = true then
    0 + UInt64.ofInt (wrapInt (longBytes n).length) else 0) = _
  rw [if_pos hknown, UInt64.zero_add]

theorem shaOfBs_longBytes (n : Nat) (hn : (32 * n + 64) % 2 ^ 32 = 32) :
    shaOfBs (longBytes n) = shaOfBs letters := by
  have htake : (longBytes n).take 32 = letters := by
    rw [longBytes, List.append_assoc]
    exact List.take_left' rfl
  have htext : letters.take (letters.length % 2 ^ 32) = letters := by decide
  simp only [shaOfBs, length_longBytes, hn, htake, htext]

theorem savings_not_exact : (∀ p ∈ longChunk (2 ^ 27 - 1), chunkNum ≤ p.length ∧ p.length ≤ packetLen) ∧
    ∃ s, Run (printPcap shaOfBs) (fun _ _ => True) (start (chunkCreate (fun _ => 0)) 0)
      (longChunk (2 ^ 27 - 1)) s ∧ ¬SavingsExact shaOfBs s := by
  generalize hn : 2 ^ 27 - 1 = n
  have hlen := length_longBytes n
  obtain ⟨t, ht, hhashed, hsave⟩ := longChunk_run n (by omega)
  have hsha := shaOfBs_longBytes n (by omega)
  refine ⟨fun p hp => ?_, t, ht, fun hexact => ?_⟩
  · rcases mem_longChunk hp with rfl | rfl <;> decide
  · have hsize : 32 * n + 64 = 4294967328 := by omega
    have hcount : (UInt64.ofInt (wrapInt (4294967328 : Nat))).toNat = 32 := by decide
    have hsaved := hexact.1
    rw [hhashed, ← List.singleton_append, savedBytes_concat, if_pos (by simp [hsha]), hsave hsha, hlen,
      hsize, hcount] at hsaved
    omega

end Wspack.Pack
