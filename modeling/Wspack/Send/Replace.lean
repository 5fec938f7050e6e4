import Wspack.Send.Length

namespace Wspack.Send

open Chunk

/-- The values that `index` takes in `replace_skb`, in order; the list ends where `BUG()` would be
reached. -/
def skbIndices (oldLen : Nat) : List ReplaceItem → (last index : Nat) → List Nat
  | [], last, index => if last ≠ oldLen then [index, index + (oldLen - last)] else [index]
  | cp :: head, last, index =>
    index :: if last < cp.start then
      (index + (cp.start - last)) ::
        skbIndices oldLen head (cp.stop + 1) (index + (cp.start - last) + sha1Size)
    else if cp.start = last then skbIndices oldLen head (cp.stop + 1) (index + sha1Size)
    else []

structure Placed (pos : Nat) (head : List ReplaceItem) : Prop where
  inside : ∀ cp ∈ head, cp.start ≤ cp.stop ∧ cp.stop < pos
  ordered : head.Pairwise (fun a b => a.stop < b.start)

variable {env : Env} {data : List UInt8} {s : Sender} {start length pos n : Nat}
  {head : List ReplaceItem} {last index oldLen : Nat}

theorem Placed.chunk (h : Placed pos s.head) (hlen : 0 < length) :
    Placed (pos + length) (buildHash env data s pos length).head := by
  rcases buildHash_cases env data s pos length with ⟨hhead, _, _⟩ | ⟨_, ⟨dst, hhead⟩, _, _⟩
  · rw [hhead]
    refine ⟨fun cp hcp => ?_, h.ordered⟩
    have := h.inside cp hcp
    omega
  · rw [hhead]
    refine ⟨fun cp hcp => ?_, List.pairwise_append.mpr ⟨h.ordered, List.pairwise_singleton _ _, ?_⟩⟩
    · rcases List.mem_append.mp hcp with hcp | hcp
      · have := h.inside cp hcp
        omega
      · rw [List.mem_singleton.mp hcp]
        simp only
        omega
    · intro cp hcp cp' hcp'
      rw [List.mem_singleton.mp hcp']
      exact (h.inside cp hcp).2

theorem Placed.chunks {l : List (Nat × Nat)} (ht : Tiles pos l n) (h : Placed pos s.head) :
    Placed n (l.foldl (fun s r => buildHash env data s r.1 r.2) s).head := by
  induction ht generalizing s with
  | nil => exact h
  | cons hlen _ ih => exact ih (h.chunk hlen)

theorem placed_nfOut (env : Env) (t : Table) (data : List UInt8) :
    Placed data.length (nfOut env t data).head := by
  have h0 : ∀ pos, Placed pos [] := fun pos => ⟨by simp, .nil⟩
  rw [nfOut, getPartition_eq]
  by_cases h : chunkNum < data.length
  · exact Placed.chunks (tiles_chunkRanges h) (h0 0)
  · rw [chunkRanges, if_neg h]
    exact h0 _

structure Climbs (index n : Nat) (l : List Nat) : Prop where
  last : l.getLast? = some n
  between : ∀ x ∈ l, index ≤ x ∧ x ≤ n

theorem Climbs.single : Climbs n n [n] := ⟨rfl, by simp⟩

theorem Climbs.cons {l : List Nat} (h : Climbs last n l) (hle : index ≤ last) :
    Climbs index n (index :: l) := by
  have hn := h.between n (List.mem_of_getLast? h.last)
  refine ⟨?_, List.forall_mem_cons.mpr ⟨by omega, fun x hx => ?_⟩⟩
  · rw [List.getLast?_cons, h.last]
    rfl
  · have := h.between x hx
    omega

theorem climbs_skbIndices (h : (replaceLoop head last index).map (fun (last, index) =>
      if last ≠ oldLen then index + (oldLen - last) else index) = some n) :
    Climbs index n (skbIndices oldLen head last index) := by
  induction head generalizing last index with
  | nil =>
    simp only [replaceLoop, Option.map_some, Option.some.injEq] at h
    rw [skbIndices]
    split at h
    · rw [if_pos ‹_›, h]
      exact Climbs.single.cons (by omega)
    · rw [if_neg ‹_›, h]
      exact .single
  | cons cp head ih =>
    rw [replaceLoop] at h
    rw [skbIndices]
    split at h
    · rw [if_pos ‹_›]
      exact ((ih h).cons (Nat.le_add_right _ _)).cons (Nat.le_add_right _ _)
    · split at h
      · rw [if_neg ‹_›, if_pos ‹_›]
        exact (ih h).cons (Nat.le_add_right _ _)
      · cases h

theorem replacement_well_formed (env : Env) (t : Table) (data : List UInt8) :
    (nfOut env t data).head.Pairwise (fun a b => a.stop < b.start) ∧
    (∀ cp ∈ (nfOut env t data).head, cp.start ≤ cp.stop ∧ cp.stop < data.length) ∧
    ∃ index, replaceSkb (nfOut env t data).head data.length = some index ∧
      (skbIndices data.length (nfOut env t data).head 0 0).getLast? = some index ∧
      ∀ x ∈ skbIndices data.length (nfOut env t data).head 0 0, x ≤ (nfOut env t data).newLen := by
  have hplaced := placed_nfOut env t data
  obtain ⟨index, hindex, hlen⟩ := replaceSkb_nfOut env t data
  have hclimbs := climbs_skbIndices hindex
  refine ⟨hplaced.ordered, hplaced.inside, index, hindex, hclimbs.last, fun x hx => ?_⟩
  have := hclimbs.between x hx
  omega

end Wspack.Send
