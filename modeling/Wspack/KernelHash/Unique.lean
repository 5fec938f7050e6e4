import Wspack.KernelHash.Lifecycle

namespace Wspack.KernelHash

open Function (update)
open Lib

def DigestsDistinct (s : State) : Prop :=
  ∀ b b' id id' cp cp', id ∈ s.hashTab b → id' ∈ s.hashTab b' → s.items id = some cp →
    s.items id' = some cp' → cp.sha1 = cp'.sha1 → id = id'

def Hand.missedOn (dst : Digest) : Hand → Bool
  | .missed d _ => decide (d = dst)
  | _ => false

/-- A `get_hash_item` that misses does so while no other CPU has a miss on the same digest
pending. -/
def missesAlone (cfg : Config) (s : State) : Act → Bool
  | .getHashItem c _ dst => (lookup s dst).isSome ||
      (List.range cfg.ncpu).all (fun c' => c' == c || !(s.hand c').missedOn dst)
  | _ => true

structure DistinctOk (items : Nat → Option HashinfoItem) (hand : Nat → Hand) : Prop where
  distinct : ∀ id id' cp cp', items id = some cp → items id' = some cp' → cp.sha1 = cp'.sha1 → id = id'
  absent : ∀ c dst src, hand c = .missed dst src → ∀ id cp, items id = some cp → cp.sha1 ≠ dst
  alone : ∀ c c' dst src src', hand c = .missed dst src → hand c' = .missed dst src' → c = c'

section
variable {items : Nat → Option HashinfoItem} {hand : Nat → Hand} {c id : Nat} {cp cp' : HashinfoItem}

theorem DistinctOk.shrink {items' : Nat → Option HashinfoItem} (h : DistinctOk items hand)
    (hs : ∀ id cp', items' id = some cp' → ∃ cp, items id = some cp ∧ cp.sha1 = cp'.sha1) :
    DistinctOk items' hand where
  distinct i j ci cj hi hj he := by
    obtain ⟨di, hdi, hei⟩ := hs i ci hi
    obtain ⟨dj, hdj, hej⟩ := hs j cj hj
    exact h.distinct i j di dj hdi hdj (hei.trans (he.trans hej.symm))
  absent c dst src hc i ci hi := by
    obtain ⟨di, hdi, hei⟩ := hs i ci hi
    exact hei ▸ h.absent c dst src hc i di hdi
  alone := h.alone

theorem DistinctOk.touch (h : DistinctOk items hand) (hi : items id = some cp)
    (hs : cp'.sha1 = cp.sha1) : DistinctOk (update items id (some cp')) hand := by
  refine h.shrink (fun j cj hj => ?_)
  rcases update_eq_some hj with ⟨rfl, he⟩ | ⟨_, hj⟩
  · cases he
    exact ⟨cp, hi, hs.symm⟩
  · exact ⟨cj, hj, rfl⟩

theorem DistinctOk.delete (h : DistinctOk items hand) : DistinctOk (update items id none) hand := by
  refine h.shrink (fun j cj hj => ?_)
  exact ⟨cj, (of_update_none hj), rfl⟩

theorem DistinctOk.rehand {hd : Hand} (h : DistinctOk items hand)
    (hd' : ∀ dst src, hd ≠ .missed dst src) : DistinctOk items (update hand c hd) := by
  have hold : ∀ c' dst src, update hand c hd c' = .missed dst src → hand c' = .missed dst src := by
    intro c' dst src hc
    by_cases e : c' = c
    · subst e
      rw [Function.update_self] at hc
      exact absurd hc (hd' dst src)
    · rwa [Function.update_of_ne e] at hc
  exact ⟨h.distinct, fun c' dst src hc => h.absent c' dst src (hold c' dst src hc),
    fun c' c'' dst src src' hc hc' => h.alone c' c'' dst src src' (hold _ _ _ hc) (hold _ _ _ hc')⟩

theorem DistinctOk.miss {dst : Digest} {src : List UInt8} (h : DistinctOk items hand)
    (habs : ∀ id cp, items id = some cp → cp.sha1 ≠ dst)
    (halone : ∀ c' src', c' ≠ c → hand c' ≠ .missed dst src') :
    DistinctOk items (update hand c (.missed dst src)) where
  distinct := h.distinct
  absent c' d u hc := by
    by_cases e : c' = c
    · subst e
      rw [Function.update_self] at hc
      cases hc
      exact habs
    · rw [Function.update_of_ne e] at hc
      exact h.absent c' d u hc
  alone c₁ c₂ d u u' h₁ h₂ := by
    by_cases e₁ : c₁ = c <;> by_cases e₂ : c₂ = c
    · rw [e₁, e₂]
    · subst e₁
      rw [Function.update_self] at h₁
      rw [Function.update_of_ne e₂] at h₂
      cases h₁
      exact absurd h₂ (halone c₂ u' e₂)
    · subst e₂
      rw [Function.update_self] at h₂
      rw [Function.update_of_ne e₁] at h₁
      cases h₂
      exact absurd h₁ (halone c₁ u e₁)
    · rw [Function.update_of_ne e₁] at h₁
      rw [Function.update_of_ne e₂] at h₂
      exact h.alone c₁ c₂ d u u' h₁ h₂

theorem DistinctOk.insert {dst : Digest} {src : List UInt8} (h : DistinctOk items hand)
    (hh : hand c = .missed dst src) (hs : cp.sha1 = dst) :
    DistinctOk (update items id (some cp)) (update hand c .idle) where
  distinct i j ci cj hi hj he := by
    rcases update_eq_some hi with ⟨ei, hi⟩ | ⟨_, hi⟩
    · rcases update_eq_some hj with ⟨ej, _⟩ | ⟨_, hj⟩
      · exact ei.trans ej.symm
      · cases hi
        exact absurd (he.symm.trans hs) (h.absent c dst src hh j cj hj)
    · rcases update_eq_some hj with ⟨_, hj⟩ | ⟨_, hj⟩
      · cases hj
        exact absurd (he.trans hs) (h.absent c dst src hh i ci hi)
      · exact h.distinct i j ci cj hi hj he
  absent c' d u hc j cj hj := by
    have hne : c' ≠ c := by
      rintro rfl
      simp at hc
    rw [Function.update_of_ne hne] at hc
    rcases update_eq_some hj with ⟨_, hj⟩ | ⟨_, hj⟩
    · cases hj
      rintro rfl
      exact hne (h.alone c' c _ _ _ hc (hs ▸ hh))
    · exact h.absent c' d u hc j cj hj
  alone := (h.rehand (by simp)).alone

end

variable {cfg : Config} {s t : State} {a : Act} {b c id : Nat} {cp : HashinfoItem} {w : WrFile}

def State.DistinctOk (s : State) : Prop := KernelHash.DistinctOk s.items s.hand

theorem missesAlone_miss {src src' : List UInt8} {dst : Digest} {c' : Nat}
    (h : missesAlone cfg s (.getHashItem c src dst) = true) (hl : lookup s dst = none)
    (hc : c' < cfg.ncpu) (hne : c' ≠ c) : s.hand c' ≠ .missed dst src' := by
  intro hh
  simp only [missesAlone, hl, Option.isSome_none, Bool.false_or] at h
  simpa [hne, hh, Hand.missedOn] using List.all_eq_true.mp h c' (List.mem_range.mpr hc)

theorem State.DistinctOk.change (hs : Sound cfg s) (hC : missesAlone cfg s a = true)
    (h : s.DistinctOk) (hch : Change cfg a s t) : t.DistinctOk := by
  cases hch with
  | miss _ _ hl =>
    refine DistinctOk.miss h (fun _ _ hi => lookup_none hs.table.indexed hl hi) ?_
    intro c' src' hne hh
    exact missesAlone_miss hC hl (RefsOk.lt_ncpu hs.refs (by simp [hh])) hne hh
  | hit _ _ _ hl => exact DistinctOk.rehand (DistinctOk.touch h (lookup_some hl).1 rfl) nofun
  | refuse => exact DistinctOk.rehand h nofun
  | insert _ hh => exact DistinctOk.insert h hh (newItem_sha1 _ _ _)
  | release _ _ hi => exact DistinctOk.rehand (DistinctOk.touch h hi rfl) nofun
  | queue => exact DistinctOk.rehand h nofun
  | read _ _ hi => exact DistinctOk.touch h hi (by simp [HashinfoItem.release])
  | delete => exact DistinctOk.delete h
  | age _ _ _ hi => exact DistinctOk.touch h hi rfl
  | mark _ _ _ hi => exact DistinctOk.touch h hi rfl
  | unmark _ _ _ hi => exact DistinctOk.touch h hi rfl
  | place _ _ _ hi => exact DistinctOk.touch h hi rfl
  | commit _ _ _ hi _ hf =>
    obtain ⟨_, _, rfl, _⟩ := freeDataMemory_ok hf
    exact DistinctOk.touch h hi rfl
  | _ => exact h

theorem distinctOk_init (file : Nat → Nat → UInt8) : (init file).DistinctOk :=
  ⟨by simp [init], by simp [init], by simp [init]⟩

theorem digests_distinct (cfg : Config) (file : Nat → Nat → UInt8) (as : List Act) (s : State)
    (h : Run (step cfg) (fun s a => missesAlone cfg s a = true) (init file) as s) :
    DigestsDistinct s := by
  have hd : s.DistinctOk :=
    (invariant_of_sound (I := State.DistinctOk) (fun _ _ => rfl)
      (fun _ _ _ hs hch hC hd => hd.change hs hC hch) h (distinctOk_init file)).2
  exact fun _ _ id id' cp cp' _ _ hi hi' he => DistinctOk.distinct hd id id' cp cp' hi hi' he

theorem digests_distinct_roundTrip :
    DigestsDistinct (final (step twoCpus) (missesAlone twoCpus) (init (fun _ _ => 0))
      (insertOn 0 chunkB digestB ++ roundTrip)) :=
  digests_distinct twoCpus _ _ _ (run_final (by decide +kernel))

def bothMiss : List Act :=
  [.getHashItem 0 chunkA digestA, .getHashItem 1 chunkA digestA, .addHashInfo 0 true,
    .addHashInfo 1 true]

theorem digests_not_distinct : ∃ s, Run (step twoCpus) (fun _ _ => True) (init (fun _ _ => 0))
    bothMiss s ∧ ¬DigestsDistinct s := by
  refine ⟨_, run_final_any (g := fun _ _ => true) (by decide +kernel), fun h => ?_⟩
  have hsha : ∀ id < 2, ((final (step twoCpus) (fun _ _ => true) (init (fun _ _ => 0)) bothMiss).items
      id).map (·.sha1) = some digestA := by decide +kernel
  obtain ⟨cp, hi, hcp⟩ := Option.map_eq_some_iff.mp (hsha 0 (by decide))
  obtain ⟨cp', hi', hcp'⟩ := Option.map_eq_some_iff.mp (hsha 1 (by decide))
  have he : (0 : Nat) = 1 := h (bkt digestA) (bkt digestA) 0 1 cp cp' (by decide +kernel)
    (by decide +kernel) hi hi' (hcp.trans hcp'.symm)
  cases he

end Wspack.KernelHash
