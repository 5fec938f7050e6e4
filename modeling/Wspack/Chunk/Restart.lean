import Wspack.Chunk.Partition

namespace Wspack.Chunk

open Lib

variable {d : List UInt8} {p : Nat}

theorem mem_cutPoints (h : chunkNum ≤ d.length) (hp : p ∈ cutPoints d) :
    chunkNum - 1 ≤ p ∧ p < d.length := by
  rw [cutPoints_eq_scan h] at hp
  have hm := mem_scan hp
  simp only [chunkNum] at h hm ⊢
  omega

theorem cutPoints_after (h : chunkNum ≤ d.length) (hp : p ∈ cutPoints d) :
    (cutPoints d).filter (p < ·) =
      scan (windowZero d) step 0 (p + 1 + (chunkNum - 1)) (d.length - (p + 1) - (chunkNum - 1)) := by
  have hlt := (mem_cutPoints h hp).2
  rw [cutPoints_eq_scan h] at hp ⊢
  rw [scan_after hp, scan_delay, show step = chunkNum - 1 from rfl]
  congr 2
  simp only [chunkNum] at h ⊢
  omega

theorem cutPoints_restart (h : chunkNum ≤ d.length) (hp : p ∈ cutPoints d)
    (hn : chunkNum ≤ d.length - (p + 1)) :
    (cutPoints d).filter (p < ·) = (cutPoints (d.drop (p + 1))).map (p + 1 + ·) := by
  have hwin : ∀ n, scan (fun j => windowZero d (p + 1 + j)) step 0 (chunkNum - 1) n =
      scan (windowZero (d.drop (p + 1))) step 0 (chunkNum - 1) n :=
    fun n => scan_congr (fun j hj _ => windowZero_drop hj)
  rw [cutPoints_after h hp, cutPoints_eq_scan (by simpa using hn), scan_shift, List.length_drop, hwin]

theorem cutPoints_end (h : chunkNum ≤ d.length) (hp : p ∈ cutPoints d)
    (hn : d.length - (p + 1) < chunkNum) : (cutPoints d).filter (p < ·) = [] := by
  rw [cutPoints_after h hp, show d.length - (p + 1) - (chunkNum - 1) = 0 by
    simp only [chunkNum] at hn ⊢; omega]
  rfl

def RestartsAt (d : List UInt8) (p : Nat) : Prop :=
  (chunkNum ≤ d.length - (p + 1) →
    (cutPoints d).filter (p < ·) = (cutPoints (d.drop (p + 1))).map (p + 1 + ·)) ∧
  (d.length - (p + 1) < chunkNum → (cutPoints d).filter (p < ·) = [])

theorem cutPoints_relative (h : chunkNum ≤ d.length) (hp : p ∈ cutPoints d) :
    ((cutPoints d).filter (p < ·)).map (· - (p + 1)) =
      if chunkNum ≤ (d.drop (p + 1)).length then cutPoints (d.drop (p + 1)) else [] := by
  rw [List.length_drop]
  split
  · rw [cutPoints_restart h hp ‹_›, List.map_map]
    simp [Function.comp_def]
  · rw [cutPoints_end h hp (by omega)]
    rfl

/-- The chunker restarts at each of its cut points, so that two payloads are chunked alike
over a suffix that follows a cut point in both. -/
theorem chunker_restarts (d : List UInt8) (h : chunkNum ≤ d.length) (p : Nat)
    (hp : p ∈ cutPoints d) :
    RestartsAt d p ∧ ∀ e : List UInt8, chunkNum ≤ e.length → ∀ q ∈ cutPoints e,
      d.drop (p + 1) = e.drop (q + 1) →
      ((cutPoints d).filter (p < ·)).map (· - (p + 1)) =
        ((cutPoints e).filter (q < ·)).map (· - (q + 1)) := by
  refine ⟨⟨cutPoints_restart h hp, cutPoints_end h hp⟩, fun e he q hq hsuf => ?_⟩
  rw [cutPoints_relative h hp, cutPoints_relative he hq, hsuf]

def sevensThenZeros : List UInt8 := List.replicate 8 7 ++ List.replicate 100 0

theorem chunker_restarts_sevensThenZeros :
    cutPoints sevensThenZeros = [39, 71, 103] ∧ RestartsAt sevensThenZeros 39 :=
  ⟨by decide +kernel, (chunker_restarts sevensThenZeros (by decide) 39 (by decide +kernel)).1⟩

end Wspack.Chunk
