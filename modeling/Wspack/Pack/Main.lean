import Wspack.Lib.Words
import Wspack.Pack.Blocks
import Wspack.Pack.Frame

namespace Wspack.Pack

open Lib
open KernelHash (Digest)

def pcapHeaderSize : Nat := 16

def captureLen (ph : List UInt8) : Nat := readWord (ph.drop 8)

section
variable (digest : List UInt8 → Digest)

variable (heap : Nat → UInt8)

/-- The memory from `buff` on, with `heap` behind the buffer. -/
def buffer (frame : List UInt8) : Nat → UInt8 :=
  fun i => if i < Frame.maxEthFrame then frame.getD i 0 else heap i

variable (key : KeyValue)

end

structure Record where
  ts : List UInt8
  len : List UInt8
  frame : List UInt8
  ts_length : ts.length = 8
  len_length : len.length = 4
  frame_pos : 0 < frame.length
  frame_le : frame.length ≤ Frame.maxEthFrame

def Record.bytes (r : Record) : List UInt8 := r.ts ++ wordBytes r.frame.length ++ r.len ++ r.frame

def payload (heap : Nat → UInt8) (frame : List UInt8) : Option (List UInt8) :=
  match Frame.printPcap (buffer heap frame) with
  | .passed playData => some playData
  | _ => none

def payloads (heap : Nat → UInt8) (rs : List Record) : List (List UInt8) :=
  rs.filterMap fun r => payload heap r.frame

def Reads (digest : List UInt8 → Digest) (heap : Nat → UInt8) (s : Packer) (rs : List Record) (t : Packer) : Prop :=
  (∀ r ∈ rs, Frame.printPcap (buffer heap r.frame) ≠ .overflow) ∧
    Run (printPcap digest) (fun s p => ∀ t, printPcap digest s p = .ok t → payloadFault digest s t p = none)
      s (payloads heap rs) t

variable {digest : List UInt8 → Digest} {heap : Nat → UInt8} {key : KeyValue} {s t : Packer} {rs : List Record}
  {e playData : List UInt8} {ps : List (List UInt8)}

theorem Record.length_bytes (r : Record) : r.bytes.length = pcapHeaderSize + r.frame.length := by
  simp only [Record.bytes, List.length_append, r.ts_length, r.len_length, length_wordBytes, pcapHeaderSize]

theorem Reads.nil : Reads digest heap s [] s := ⟨by simp, .nil s⟩

theorem Reads.skipped {r : Record} (hf : Frame.printPcap (buffer heap r.frame) = .skipped)
    (h : Reads digest heap s rs t) : Reads digest heap s (r :: rs) t := by
  refine ⟨List.forall_mem_cons.mpr ⟨by simp [hf], h.1⟩, ?_⟩
  rw [payloads, List.filterMap_cons_none (by rw [payload, hf])]
  exact h.2

theorem Reads.passed {r : Record} {u : Packer} (hf : Frame.printPcap (buffer heap r.frame) = .passed playData)
    (hu : printPcap digest s playData = .ok u) (hnone : payloadFault digest s u playData = none)
    (h : Reads digest heap u rs t) : Reads digest heap s (r :: rs) t := by
  refine ⟨List.forall_mem_cons.mpr ⟨by simp [hf], h.1⟩, ?_⟩
  rw [payloads, List.filterMap_cons_some (by rw [payload, hf])]
  exact .cons (fun t ht => by rwa [← Except.ok.inj (hu.symm.trans ht)]) hu h.2

def Ends (e : List UInt8) : Prop :=
  e.length < pcapHeaderSize ∨ captureLen e = 0 ∨ e.length < pcapHeaderSize + captureLen e ∨
    Frame.maxEthFrame < captureLen e

end Wspack.Pack
