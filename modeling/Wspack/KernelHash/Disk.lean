import Wspack.KernelHash.Slots
import Wspack.KernelHash.Copy

namespace Wspack.KernelHash

open Function (update)
open Lib

theorem kernelRead_congr {f g : Nat → UInt8} {p q len : Nat} (h : ∀ j < len, f (p + j) = g (q + j)) :
    kernelRead f p len = kernelRead g q len :=
  List.map_congr_left (fun j hj => h j (List.mem_range.mp hj))

theorem kernelRead_blit_inside {f g : Nat → UInt8} {p off n len : Nat} (h : off + len ≤ n) :
    kernelRead (blit f p n g) (p + off) len = kernelRead g off len := by
  refine kernelRead_congr (fun j hj => ?_)
  rw [blit, if_pos (by omega)]
  congr 1
  omega

theorem kernelRead_blit_below {f g : Nat → UInt8} {p q n len : Nat} (h : q + len ≤ p) :
    kernelRead (blit f p n g) q len = kernelRead f q len :=
  kernelRead_congr (fun j hj => if_neg (by omega))

theorem kernelRead_getD (l : List UInt8) : kernelRead (fun j => l.getD j 0) 0 l.length = l := by
  refine List.ext_getElem (by simp [kernelRead]) (fun i h₁ h₂ => ?_)
  simp [kernelRead, List.getElem?_eq_getElem h₂]

theorem kernelRead_blit_value (f : Nat → UInt8) (l : List UInt8) (p : Nat) :
    kernelRead (blit f p l.length (fun j => l.getD j 0)) p l.length = l := by
  have hin := @kernelRead_blit_inside f (fun j => l.getD j 0) p 0 l.length l.length (by omega)
  rw [add_zero] at hin
  rw [hin, kernelRead_getD]

/-- Invocations on one bucket do not overlap, and pass 2 places every marked item that it
meets. -/
def placesMarked (cfg : Config) (s : State) : Act → Bool
  | .wrStart _ b => noWriterOn cfg s b
  | .wrStep c => (placing s c).all (fun cp => cp.cpuid != -2 || cp.placeable)
  | _ => true

def WrFile.unwritten (w : WrFile) : Prop := w.phase = .place ∨ w.phase = .write

instance (w : WrFile) : Decidable w.unwritten := inferInstanceAs (Decidable (_ ∨ _))

def Pending (wr : Nat → Option WrFile) (c id : Nat) : Prop :=
  ∃ w, wr c = some w ∧ w.unwritten ∧ id ∈ w.placed

def pendingBytes : Option WrFile → Nat
  | some w => if w.unwritten then w.memIndex else 0
  | none => 0

def HashinfoItem.inMemory (cp : HashinfoItem) : Prop :=
  cp.flagCache = .memory ∨ cp.flagCache = .willWrite ∨ cp.flagCache = .always ∨ cp.flagMem = true

structure ContentOk (items : Nat → Option HashinfoItem) (bytes : Nat → List UInt8) : Prop where
  len : ∀ id cp, items id = some cp → cp.value.length = cp.len
  mem : ∀ id cp, items id = some cp → cp.inMemory → bytes cp.data = cp.value

structure OwedOk (items : Nat → Option HashinfoItem) (wr : Nat → Option WrFile) (nextItem : Nat) :
    Prop where
  owed : ∀ c w, wr c = some w → w.copying → ∀ id ∈ w.counted, id ∉ w.placed →
    (∃ cp, items id = some cp ∧ cp.cpuid = -2) ∧ (w.phase = .place → id ∈ w.todo)
  known : ∀ c w, wr c = some w → ∀ id ∈ w.placed, id < nextItem
  home : ∀ c w, wr c = some w → ∀ id ∈ w.placed, ∀ cp, items id = some cp → bkt cp.sha1 = w.index

structure FileOk (items : Nat → Option HashinfoItem) (file : Nat → Nat → UInt8)
    (loffFile bitmapIndex : Nat → Nat) (wr : Nat → Option WrFile) : Prop where
  lockstep : ∀ c, bitmapIndex c * chunkStep = loffFile c + pendingBytes (wr c)
  balanced : ∀ c w, wr c = some w → w.phase = .write → w.memIndex = w.allSize
  pending : ∀ c w id cp, wr c = some w → w.unwritten → id ∈ w.placed → items id = some cp →
    cp.cpuid = c ∧ cp.flagCache = .willWrite ∧ ∃ off, cp.start * chunkStep = loffFile c + off ∧
      off + cp.len ≤ w.memIndex ∧ kernelRead w.copyMem off cp.len = cp.value
  written : ∀ id cp (c : Nat), items id = some cp → cp.cpuid = c → ¬Pending wr c id →
    cp.start * chunkStep + cp.len ≤ loffFile c ∧
      kernelRead (file c) (cp.start * chunkStep) cp.len = cp.value

section
variable {items : Nat → Option HashinfoItem} {bytes : Nat → List UInt8} {id n b p : Nat}
  {cp cp' : HashinfoItem} {v : List UInt8}

theorem ContentOk.touch (h : ContentOk items bytes) (hi : items id = some cp)
    (hv : cp'.value = cp.value) (hl : cp'.len = cp.len)
    (hm : cp'.inMemory → cp'.data = cp.data ∧ cp.inMemory) :
    ContentOk (update items id (some cp')) bytes where
  len := by
    apply forall_update h.len
    rw [hv, hl, h.len id cp hi]
  mem := by
    apply forall_update h.mem
    intro hin
    rw [(hm hin).1, hv, h.mem id cp hi (hm hin).2]

theorem ContentOk.fill (h : ContentOk items bytes) (hl : cp'.value.length = cp'.len)
    (hv : v = cp'.value) (hd : cp'.data = p)
    (hother : ∀ j cj, j ≠ id → items j = some cj → cj.inMemory → cj.data ≠ p) :
    ContentOk (update items id (some cp')) (update bytes p v) where
  len := forall_update h.len hl
  mem j cj hj hin := by
    rcases update_eq_some hj with ⟨_, he⟩ | ⟨hne, hj⟩
    · cases he
      rw [hd, Function.update_self, hv]
    · rw [Function.update_of_ne (hother j cj hne hj hin), h.mem j cj hj hin]

theorem ContentOk.delete (h : ContentOk items bytes) : ContentOk (update items id none) bytes where
  len j cj hj := h.len j cj (of_update_none hj)
  mem j cj hj := h.mem j cj (of_update_none hj)

end

section
variable {items : Nat → Option HashinfoItem} {tab : Nat → List Nat} {wr : Nat → Option WrFile}
  {n b c id : Nat} {cp cp' : HashinfoItem} {w w' : WrFile}

theorem OwedOk.touch (h : OwedOk items wr n) (hi : items id = some cp) (hs : cp'.sha1 = cp.sha1)
    (hc : cp.cpuid = -2 → cp'.cpuid = -2 ∨
      ∀ c w, wr c = some w → w.copying → id ∈ w.counted → id ∈ w.placed) :
    OwedOk (update items id (some cp')) wr n where
  owed c w hw hcw j hj hjp := by
    obtain ⟨⟨cj, hcj, hm⟩, ht⟩ := h.owed c w hw hcw j hj hjp
    refine ⟨?_, ht⟩
    by_cases e : j = id
    · subst e
      rw [hi] at hcj
      cases hcj
      have hm' := (hc hm).resolve_right (fun hall => hjp (hall c w hw hcw hj))
      exact ⟨cp', Function.update_self .., hm'⟩
    · exact ⟨cj, by rwa [Function.update_of_ne e], hm⟩
  known := h.known
  home c w hw j hj cj hcj := by
    rcases update_eq_some hcj with ⟨rfl, he⟩ | ⟨_, hcj⟩
    · cases he
      rw [hs]
      exact h.home c w hw j hj cp hi
    · exact h.home c w hw j hj cj hcj

theorem OwedOk.insert (h : OwedOk items wr n) (hn : items n = none) :
    OwedOk (update items n (some cp)) wr (n + 1) where
  owed c w hw hcw j hj hjp := by
    obtain ⟨⟨cj, hcj, hm⟩, ht⟩ := h.owed c w hw hcw j hj hjp
    refine ⟨⟨cj, ?_, hm⟩, ht⟩
    rwa [Function.update_of_ne]
    rintro rfl
    rw [hn] at hcj
    cases hcj
  known c w hw j hj := Nat.lt_succ_of_lt (h.known c w hw j hj)
  home c w hw j hj cj hcj := by
    rcases update_eq_some hcj with ⟨rfl, _⟩ | ⟨_, hcj⟩
    · exact absurd (h.known c w hw j hj) (lt_irrefl _)
    · exact h.home c w hw j hj cj hcj

theorem OwedOk.delete (h : OwedOk items wr n)
    (hne : ∀ c w, wr c = some w → w.copying → id ∉ w.counted) :
    OwedOk (update items id none) wr n where
  owed c w hw hcw j hj hjp := by
    obtain ⟨⟨cj, hcj, hm⟩, ht⟩ := h.owed c w hw hcw j hj hjp
    refine ⟨⟨cj, ?_, hm⟩, ht⟩
    rwa [Function.update_of_ne]
    rintro rfl
    exact hne c w hw hcw hj
  known := h.known
  home c w hw j hj cj hcj := h.home c w hw j hj cj (of_update_none hcj)

theorem OwedOk.set (h : OwedOk items wr n)
    (howed : w'.copying → ∀ id ∈ w'.counted, id ∉ w'.placed →
      (∃ cp, items id = some cp ∧ cp.cpuid = -2) ∧ (w'.phase = .place → id ∈ w'.todo))
    (hknown : ∀ id ∈ w'.placed, id < n)
    (hhome : ∀ id ∈ w'.placed, ∀ cp, items id = some cp → bkt cp.sha1 = w'.index) :
    OwedOk items (update wr c (some w')) n where
  owed := forall_update h.owed howed
  known := forall_update h.known hknown
  home := forall_update h.home hhome

theorem OwedOk.clear (h : OwedOk items wr n) : OwedOk items (update wr c none) n where
  owed c' v hv := h.owed c' v (of_update_none hv)
  known c' v hv := h.known c' v (of_update_none hv)
  home c' v hv := h.home c' v (of_update_none hv)

theorem OwedOk.next {rest : List Nat} (h : OwedOk items wr n) (hw : wr c = some w)
    (ht : w.todo = id :: rest)
    (hid : w.phase = .place → ∀ cp, items id = some cp → cp.cpuid ≠ -2) :
    OwedOk items (update wr c (some { w with todo := rest })) n := by
  refine h.set (fun hc j hj hjp => ?_) (h.known c w hw) (h.home c w hw)
  obtain ⟨⟨cj, hcj, hm⟩, hmem⟩ := h.owed c w hw hc j hj hjp
  refine ⟨⟨cj, hcj, hm⟩, fun hp => ?_⟩
  rcases List.mem_cons.mp (ht ▸ hmem hp) with rfl | hmem
  · exact absurd hm (hid hp cj hcj)
  · exact hmem

theorem OwedOk.past (h : OwedOk items wr n) (hw : wr c = some w) (hx : w'.index = w.index)
    (hpl : w'.placed = w.placed) (hn : ¬w'.copying) : OwedOk items (update wr c (some w')) n :=
  h.set (fun hc => absurd hc hn) (hpl ▸ h.known c w hw) (by rw [hpl, hx]; exact h.home c w hw)

theorem OwedOk.mark {rest : List Nat} {k : Nat} (h : OwedOk items wr n) (hw : wr c = some w)
    (hp : w.phase = .mark) (hi : items id = some cp) :
    OwedOk (update items id (some cp.mark)) (update wr c (some { w with
      todo := rest
      allSize := k
      counted := Insert.insert id w.counted })) n := by
  have h' : OwedOk (update items id (some cp.mark)) wr n := h.touch hi rfl (fun _ => .inl rfl)
  refine h'.set (fun _ j hj hjp => ⟨?_, by simp [hp]⟩) (h.known c w hw) (h'.home c w hw)
  rcases Finset.mem_insert.mp hj with rfl | hj
  · exact ⟨cp.mark, Function.update_self .., rfl⟩
  · exact (h'.owed c w hw (.inl hp) j hj hjp).1

theorem OwedOk.turn {l : List Nat} (h : OwedOk items wr n) (hw : wr c = some w)
    (hp : w.phase = .mark) (hl : ∀ id ∈ w.counted, id ∈ l) :
    OwedOk items (update wr c (some { w with phase := .place, todo := l })) n :=
  h.set (fun _ j hj hjp => ⟨(h.owed c w hw (.inl hp) j hj hjp).1, fun _ => hl j hj⟩) (h.known c w hw)
    (h.home c w hw)

theorem OwedOk.place {rest : List Nat} {k m start : Nat} {f : Nat → UInt8} (h : OwedOk items wr n)
    (hw : wr c = some w) (hp : w.phase = .place) (ht : w.todo = id :: rest) (hlt : id < n)
    (hi : items id = some cp) (hb : bkt cp.sha1 = w.index)
    (hsole : ∀ c' w', wr c' = some w' → w'.copying → id ∈ w'.counted → c' = c) :
    OwedOk (update items id (some (cp.place c start))) (update wr c (some { w with
      todo := rest
      memIndex := k
      stAllSize := m
      copyMem := f
      placed := Insert.insert id w.placed })) n := by
  refine OwedOk.touch (h.set (fun _ j hj hjp => ?_) (fun j hj => ?_) (fun j hj cj hcj => ?_)) hi rfl
    (fun _ => .inr fun c' v hv hcv hm => ?_)
  · obtain ⟨hji, hjp⟩ := not_or.mp (fun hm => hjp (Finset.mem_insert.mpr hm))
    obtain ⟨hmarked, hmem⟩ := h.owed c w hw (.inr hp) j hj hjp
    exact ⟨hmarked, fun _ => (List.mem_cons.mp (ht ▸ hmem hp)).resolve_left hji⟩
  · rcases Finset.mem_insert.mp hj with rfl | hj
    · exact hlt
    · exact h.known c w hw j hj
  · rcases Finset.mem_insert.mp hj with rfl | hj
    · rw [hi] at hcj
      cases hcj
      exact hb
    · exact h.home c w hw j hj cj hcj
  · rcases update_eq_some hv with ⟨_, he⟩ | ⟨hne, hv⟩
    · cases he
      exact Finset.mem_insert_self id w.placed
    · exact absurd (hsole c' v hv hcv hm) hne

theorem OwedOk.balanced (h : OwedOk items wr n) (hok : CopyOk items tab w) (hw : wr c = some w)
    (hp : w.phase = .place) (ht : w.todo = []) : w.memIndex = w.allSize := by
  have heq : w.placed = w.counted := by
    refine Finset.Subset.antisymm hok.placed_sub (fun id hid => ?_)
    by_contra hnp
    have hmem := (h.owed c w hw (.inr hp) id hid hnp).2 hp
    rw [ht] at hmem
    cases hmem
  rw [hok.used, hok.size, heq]

end

section
variable {items : Nat → Option HashinfoItem} {file : Nat → Nat → UInt8} {loff bitmapIndex : Nat → Nat}
  {wr : Nat → Option WrFile} {n b c id : Nat} {cp cp' : HashinfoItem} {w w' : WrFile}

theorem FileOk.touch (h : FileOk items file loff bitmapIndex wr) (hi : items id = some cp)
    (hc : cp'.cpuid = cp.cpuid) (hs : cp'.start = cp.start) (hl : cp'.len = cp.len)
    (hv : cp'.value = cp.value)
    (hf : 0 ≤ cp.cpuid → cp.flagCache = .willWrite → Pending wr cp.cpuid.toNat id →
      cp'.flagCache = .willWrite) :
    FileOk (update items id (some cp')) file loff bitmapIndex wr where
  lockstep := h.lockstep
  balanced := h.balanced
  pending c w j cj hw hu hj hcj := by
    rcases update_eq_some hcj with ⟨rfl, he⟩ | ⟨_, hcj⟩
    · cases he
      obtain ⟨hcpu, hflag, hoff⟩ := h.pending c w j cp hw hu hj hi
      refine ⟨hc.trans hcpu, hf (by omega) hflag ⟨w, ?_, hu, hj⟩, ?_⟩
      · rw [hcpu, Int.toNat_natCast, hw]
      · rwa [hs, hl, hv]
    · exact h.pending c w j cj hw hu hj hcj
  written j cj c hcj hcpu hnp := by
    rcases update_eq_some hcj with ⟨rfl, he⟩ | ⟨_, hcj⟩
    · cases he
      rw [hs, hl, hv]
      exact h.written j cp c hi (hc.symm.trans hcpu) hnp
    · exact h.written j cj c hcj hcpu hnp

theorem FileOk.offDisk (h : FileOk items file loff bitmapIndex wr) (hc' : cp'.cpuid < 0)
    (hnp : ∀ c, ¬Pending wr c id) : FileOk (update items id (some cp')) file loff bitmapIndex wr where
  lockstep := h.lockstep
  balanced := h.balanced
  pending c w j cj hw hu hj hcj := by
    rcases update_eq_some hcj with ⟨rfl, _⟩ | ⟨_, hcj⟩
    · exact absurd ⟨w, hw, hu, hj⟩ (hnp c)
    · exact h.pending c w j cj hw hu hj hcj
  written j cj c hcj hcpu hnp := by
    rcases update_eq_some hcj with ⟨_, he⟩ | ⟨_, hcj⟩
    · cases he
      omega
    · exact h.written j cj c hcj hcpu hnp

theorem FileOk.not_pending (h : FileOk items file loff bitmapIndex wr) (hi : items id = some cp)
    (hc : cp.cpuid < 0 ∨ cp.flagCache ≠ .willWrite) (c : Nat) : ¬Pending wr c id := by
  rintro ⟨w, hw, hu, hj⟩
  obtain ⟨hcpu, hflag, _⟩ := h.pending c w id cp hw hu hj hi
  rcases hc with hc | hc
  · omega
  · exact hc hflag

theorem FileOk.delete (h : FileOk items file loff bitmapIndex wr) :
    FileOk (update items id none) file loff bitmapIndex wr where
  lockstep := h.lockstep
  balanced := h.balanced
  pending c w j cj hw hu hj hcj := h.pending c w j cj hw hu hj (of_update_none hcj)
  written j cj c hcj := h.written j cj c (of_update_none hcj)

theorem pending_update_of_ne {c' : Nat} {o : Option WrFile} (h : c' ≠ c) :
    Pending (update wr c o) c' id ↔ Pending wr c' id := by
  unfold Pending
  rw [Function.update_of_ne h]

theorem Pending.set {c' : Nat} (h : Pending wr c' id) (hw : wr c = some w)
    (hu : w.unwritten → w'.unwritten) (hpl : id ∈ w.placed → id ∈ w'.placed) :
    Pending (update wr c (some w')) c' id := by
  by_cases e : c' = c
  · subst e
    obtain ⟨v, hv, hvu, hvj⟩ := h
    rw [hw] at hv
    cases hv
    exact ⟨w', Function.update_self .., hu hvu, hpl hvj⟩
  · exact (pending_update_of_ne e).mpr h

theorem FileOk.advance (h : FileOk items file loff bitmapIndex wr) (hw : wr c = some w)
    (hu : w'.unwritten ↔ w.unwritten) (hpl : w'.placed = w.placed) (hmi : w'.memIndex = w.memIndex)
    (hcm : w'.copyMem = w.copyMem) (hb : w'.phase = .write → w'.memIndex = w'.allSize) :
    FileOk items file loff bitmapIndex (update wr c (some w')) where
  lockstep c' := by
    by_cases e : c' = c
    · subst e
      rw [Function.update_self, h.lockstep, hw]
      simp only [pendingBytes, hu, hmi]
    · rw [Function.update_of_ne e, h.lockstep]
  balanced := forall_update h.balanced hb
  pending c' v j cj hv hu' hj hcj := by
    rcases update_eq_some hv with ⟨rfl, he⟩ | ⟨_, hv⟩
    · cases he
      rw [hmi, hcm]
      exact h.pending c' w j cj hw (hu.mp hu') (hpl ▸ hj) hcj
    · exact h.pending c' v j cj hv hu' hj hcj
  written j cj c' hcj hcpu hnp := by
    refine h.written j cj c' hcj hcpu (fun hpend => hnp ?_)
    exact hpend.set hw hu.mpr (fun hj => hpl ▸ hj)

theorem FileOk.idle {o : Option WrFile} (h : FileOk items file loff bitmapIndex wr)
    (hold : ∀ w, wr c = some w → ¬w.unwritten)
    (hnew : ∀ w, o = some w → w.unwritten → w.phase = .place ∧ w.placed = ∅ ∧ w.memIndex = 0) :
    FileOk items file loff bitmapIndex (update wr c o) where
  lockstep c' := by
    by_cases e : c' = c
    · subst e
      have h0 : pendingBytes (wr c') = 0 := by
        cases hw : wr c' with
        | none => rfl
        | some w => rw [pendingBytes, if_neg (hold w hw)]
      have h1 : pendingBytes o = 0 := by
        cases ho : o with
        | none => rfl
        | some w =>
          rw [pendingBytes]
          split
          · exact (hnew w ho ‹_›).2.2
          · rfl
      rw [Function.update_self, h.lockstep, h0, h1]
    · rw [Function.update_of_ne e, h.lockstep]
  balanced c' v hv hp := by
    rcases update_eq_some hv with ⟨_, he⟩ | ⟨_, hv⟩
    · rw [(hnew v he (.inr hp)).1] at hp
      cases hp
    · exact h.balanced c' v hv hp
  pending c' v j cj hv hu hj hcj := by
    rcases update_eq_some hv with ⟨_, he⟩ | ⟨_, hv⟩
    · rw [(hnew v he hu).2.1] at hj
      simp at hj
    · exact h.pending c' v j cj hv hu hj hcj
  written j cj c' hcj hcpu hnp := by
    refine h.written j cj c' hcj hcpu (fun hpend => hnp ?_)
    by_cases e : c' = c
    · subst e
      obtain ⟨v, hv, hvu, _⟩ := hpend
      exact absurd hvu (hold v hv)
    · exact (pending_update_of_ne e).mpr hpend

theorem FileOk.place {rest : List Nat} {k : Nat} {data : List UInt8}
    (h : FileOk items file loff bitmapIndex wr) (hw : wr c = some w) (hp : w.phase = .place)
    (hi : items id = some cp) (hc : cp.cpuid < 0) (hf : cp.flagCache = .willWrite)
    (hl : cp.value.length = cp.len) (hdata : data = cp.value) :
    FileOk (update items id (some (cp.place c (bitmapIndex c)))) file loff
      (update bitmapIndex c (bitmapIndex c + slotCount cp.len))
      (update wr c (some { w with
        todo := rest
        memIndex := w.memIndex + slotCount cp.len * chunkStep
        stAllSize := k
        copyMem := blit w.copyMem w.memIndex cp.len (fun j => data.getD j 0)
        placed := Insert.insert id w.placed })) := by
  subst hdata
  have hu : w.unwritten := .inl hp
  have hstep : bitmapIndex c * chunkStep = loff c + w.memIndex := by
    rw [h.lockstep, hw, pendingBytes, if_pos hu]
  have hlen := le_slotCount cp.len
  have hnew := kernelRead_blit_value w.copyMem cp.value w.memIndex
  rw [hl] at hnew
  constructor
  case lockstep =>
    intro c'
    by_cases e : c' = c
    · subst e
      rw [Function.update_self, Function.update_self, pendingBytes, if_pos (.inl hp), add_mul, hstep,
        add_assoc]
    · rw [Function.update_of_ne e, Function.update_of_ne e, h.lockstep]
  case balanced =>
    apply forall_update h.balanced
    simp [hp]
  case pending =>
    intro c' v j cj hv hvu hj hcj
    rcases update_eq_some hv with ⟨rfl, he⟩ | ⟨hne, hv'⟩
    · cases he
      rcases update_eq_some hcj with ⟨rfl, he⟩ | ⟨hne, hcj⟩
      · cases he
        exact ⟨rfl, hf, w.memIndex, hstep, by simpa [HashinfoItem.place] using hlen, hnew⟩
      · have hj' : j ∈ w.placed := (Finset.mem_insert.mp hj).resolve_left hne
        obtain ⟨hcpu, hflag, off, hoff, hle, hread⟩ := h.pending c' w j cj hw hu hj' hcj
        refine ⟨hcpu, hflag, off, hoff, le_trans hle (Nat.le_add_right _ _), ?_⟩
        exact (@kernelRead_blit_below w.copyMem (fun j => cp.value.getD j 0) w.memIndex off cp.len
          cj.len hle).trans hread
    · rcases update_eq_some hcj with ⟨rfl, _⟩ | ⟨_, hcj⟩
      · exact absurd ⟨v, hv', hvu, hj⟩ (h.not_pending hi (.inl hc) c')
      · exact h.pending c' v j cj hv' hvu hj hcj
  case written =>
    intro j cj c' hcj hcpu hnp
    rcases update_eq_some hcj with ⟨rfl, he⟩ | ⟨hne, hcj⟩
    · cases he
      obtain rfl : c = c' := by simpa [HashinfoItem.place] using hcpu
      exact absurd ⟨_, Function.update_self .., .inl hp, Finset.mem_insert_self _ _⟩ hnp
    · refine h.written j cj c' hcj hcpu (fun hpend => hnp ?_)
      exact hpend.set hw (fun _ => .inl hp) Finset.mem_insert_of_mem

theorem FileOk.write (h : FileOk items file loff bitmapIndex wr) (hw : wr c = some w)
    (hp : w.phase = .write) :
    FileOk items (update file c (blit (file c) (loff c) w.allSize w.copyMem))
      (update loff c (loff c + w.allSize)) bitmapIndex
      (update wr c (some { w with phase := .written })) := by
  have hu : w.unwritten := .inr hp
  have hbal := h.balanced c w hw hp
  constructor
  case lockstep =>
    intro c'
    by_cases e : c' = c
    · subst e
      rw [Function.update_self, Function.update_self, h.lockstep, hw, pendingBytes, if_pos hu, hbal,
        pendingBytes, if_neg (by simp [WrFile.unwritten])]
      omega
    · rw [Function.update_of_ne e, Function.update_of_ne e, h.lockstep]
  case balanced => exact forall_update h.balanced nofun
  case pending =>
    intro c' v j cj hv hvu hj hcj
    rcases update_eq_some hv with ⟨_, he⟩ | ⟨hne, hv⟩
    · cases he
      simp [WrFile.unwritten] at hvu
    · rw [Function.update_of_ne hne]
      exact h.pending c' v j cj hv hvu hj hcj
  case written =>
    intro j cj c' hcj hcpu hnp
    by_cases e : c' = c
    · subst e
      rw [Function.update_self, Function.update_self]
      by_cases hpend : Pending wr c' j
      · obtain ⟨v, hv, _, hvj⟩ := hpend
        rw [hw] at hv
        cases hv
        obtain ⟨_, _, off, hoff, hle, hread⟩ := h.pending c' w j cj hw hu hvj hcj
        rw [hbal] at hle
        rw [hoff, kernelRead_blit_inside hle]
        exact ⟨by omega, hread⟩
      · obtain ⟨hle, hread⟩ := h.written j cj c' hcj hcpu hpend
        rw [kernelRead_blit_below hle]
        exact ⟨by omega, hread⟩
    · rw [Function.update_of_ne e, Function.update_of_ne e]
      exact h.written j cj c' hcj hcpu (fun hpend => hnp ((pending_update_of_ne e).mpr hpend))

end

variable {cfg : Config} {s t : State} {a : Act} {b c id : Nat} {cp : HashinfoItem} {w : WrFile}

theorem clearsMarks_of_placesMarked (h : placesMarked cfg s a = true) : clearsMarks cfg s a = true := by
  cases a with
  | wrStep c =>
    simp only [placesMarked, clearsMarks] at h ⊢
    cases hp : placing s c with
    | none => rfl
    | some cp =>
      simp only [hp, Option.all_some, Bool.or_eq_true] at h ⊢
      rcases h with h | h <;> simp [h]
  | _ => exact h

structure DiskOk (s : State) : Prop where
  slots : s.SlotsOk
  passes : s.PassesOk
  content : ContentOk s.items s.heap.bytes
  owed : OwedOk s.items s.wr s.nextItem
  file : FileOk s.items s.file s.loffFile s.bitmapIndex s.wr

theorem ItemOk.buffer (h : ItemOk cp) (hm : cp.inMemory) : ∃ k, cp.memStyle = some k := by
  rcases hm with hf | hf | hf | hl
  · exact ⟨_, h.memory (.inl hf)⟩
  · exact ⟨_, h.memory (.inr (.inl hf))⟩
  · exact ⟨_, h.memory (.inr (.inr hf))⟩
  · exact Option.ne_none_iff_exists'.mp (h.loaded hl).2

theorem Sound.data_lt (hs : Sound cfg s) (hi : s.items id = some cp) (hm : cp.inMemory) :
    cp.data < s.heap.next := by
  obtain ⟨k, hk⟩ := (hs.item hi).buffer hm
  exact (hs.allocated hi hk).1

theorem Sound.data_ne {j : Nat} {cj : HashinfoItem} {k : MemStyle} (hs : Sound cfg s)
    (hi : s.items id = some cp) (hk : cp.memStyle = some k) (hj : s.items j = some cj)
    (hm : cj.inMemory) (hne : j ≠ id) : cj.data ≠ cp.data := by
  intro he
  obtain ⟨k', hk'⟩ := (hs.item hj).buffer hm
  exact hne (Owned.inj hs.buffers j id cp.data (by simp [bufferOf, hj, hk', he])
    (by simp [bufferOf, hi, hk]))

theorem DiskOk.kernelRead_eq {r : ReadSkb} (hs : Sound cfg s) (h : DiskOk s)
    (hr : r ∈ s.readList) (hi : s.items r.item = some cp) :
    kernelRead (s.file r.cpu) (cp.start * chunkStep) cp.len = cp.value := by
  obtain ⟨hf, hc⟩ := hs.life.queued r hr cp hi
  exact (h.file.written r.item cp r.cpu hi hc (h.file.not_pending hi (.inr (by simp [hf])) _)).2

theorem DiskOk.read {r : ReadSkb} (hs : Sound cfg s) (h : DiskOk s)
    (hr : r ∈ s.readList) (hi : s.items r.item = some cp) :
    ContentOk (update s.items r.item (some (readItem s r.cpu cp).2.release))
      (readItem s r.cpu cp).1.bytes := by
  have hv := h.kernelRead_eq hs hr hi
  have hlen := h.content.len _ _ hi
  cases hl : cp.flagMem with
  | true =>
    simp only [readItem, hl, if_true]
    exact h.content.touch hi rfl rfl (fun hm => ⟨rfl, hm⟩)
  | false =>
    cases hk : cp.memStyle with
    | some k =>
      simp only [readItem, hl, allocDataMemory, hk, memcpyData, Bool.false_eq_true, if_false]
      exact h.content.fill hlen hv rfl (fun j cj hne hj hm => hs.data_ne hi hk hj hm hne)
    | none =>
      simp only [readItem, hl, allocDataMemory, hk, memcpyData, Bool.false_eq_true, if_false,
        Function.update_idem]
      exact h.content.fill hlen hv rfl (fun j cj _ hj hm => (hs.data_lt hj hm).ne)

theorem HashinfoItem.inMemory_age (hm : cp.age.inMemory) : cp.inMemory := by
  rcases cp.age_flagCache with hf | ⟨hf, _⟩ | ⟨hf, _⟩
  · rw [inMemory, hf] at hm
    exact hm
  · exact .inl hf
  · exact .inr (.inl hf)

theorem HashinfoItem.inMemory_hit (hm : cp.hit.inMemory) : cp.inMemory := by
  by_cases hd : cp.flagCache = .disk
  · refine .inr (.inr (.inr ?_))
    simpa [inMemory, HashinfoItem.hit, hd] using hm
  · simpa [inMemory, HashinfoItem.hit, hd] using hm

theorem freeBuffer_bytes {h heap : Heap} {cp' : HashinfoItem}
    (hf : freeBuffer h cp = .ok (heap, cp')) : heap.bytes = h.bytes := by
  unfold freeBuffer at hf
  split at hf
  · obtain ⟨_, _, _, rfl⟩ := freeDataMemory_ok hf
    rfl
  · cases hf
    rfl

theorem DiskOk.change_content (hs : Sound cfg s) (h : DiskOk s) (hch : Change cfg a s t) :
    ContentOk t.items t.heap.bytes := by
  have hc := h.content
  cases hch with
  | hit _ _ _ hl =>
    exact hc.touch (lookup_some hl).1 rfl rfl (fun hm => ⟨rfl, HashinfoItem.inMemory_hit hm⟩)
  | insert =>
    simp only [newItem, allocDataMemory, memcpyData, Function.update_idem]
    exact hc.fill rfl rfl rfl (fun j cj _ hj hm => (hs.data_lt hj hm).ne)
  | release _ _ hi => exact hc.touch hi rfl rfl (fun hm => ⟨rfl, hm⟩)
  | read _ hr hi => exact h.read hs (List.mem_of_getElem? hr) hi
  | delete _ _ _ _ _ hf =>
    rw [freeBuffer_bytes hf]
    exact hc.delete
  | age _ _ _ hi => exact hc.touch hi rfl rfl (fun hm => ⟨rfl, HashinfoItem.inMemory_age hm⟩)
  | mark _ _ _ hi => exact hc.touch hi rfl rfl (fun hm => ⟨rfl, hm⟩)
  | unmark _ _ _ hi => exact hc.touch hi rfl rfl (fun hm => ⟨rfl, hm⟩)
  | place _ _ _ hi => exact hc.touch hi rfl rfl (fun hm => ⟨rfl, hm⟩)
  | commit _ _ _ hi _ hf =>
    obtain ⟨_, _, rfl, rfl⟩ := freeDataMemory_ok hf
    refine hc.touch hi rfl rfl (fun hm => ⟨rfl, .inr (.inr (.inr ?_))⟩)
    simpa [HashinfoItem.inMemory] using hm
  | _ => exact hc

theorem placesMarked_step {rest : List Nat} (hC : placesMarked cfg s (.wrStep c) = true)
    (hw : s.wr c = some w) (hp : w.phase = .place) (ht : w.todo = id :: rest)
    (hi : s.items id = some cp) (hpl : cp.placeable = false) : cp.cpuid ≠ -2 := by
  rw [placesMarked, placing_eq hw hp ht, hi] at hC
  simpa [hpl] using hC

theorem placesMarked_unmark {rest : List Nat} (hC : placesMarked cfg s (.wrStep c) = true)
    (hw : s.wr c = some w) (hp : w.phase = .place) (ht : w.todo = id :: rest)
    (hi : s.items id = some cp) (hu : cp.unmarkable = true) : False := by
  obtain ⟨hm, _, hsh⟩ := HashinfoItem.unmarkable_iff.mp hu
  refine placesMarked_step hC hw hp ht hi ?_ hm
  rw [← Bool.not_eq_true, HashinfoItem.placeable_iff]
  rintro ⟨_, _, _, hone⟩
  omega

theorem State.PassesOk.counted_sole {c' : Nat} {w' : WrFile} (hs : Sound cfg s)
    (h : s.PassesOk) (hw : s.wr c = some w) (hb : id ∈ s.hashTab w.index) (hi : s.items id = some cp)
    (hw' : s.wr c' = some w') (hc : w'.copying) (hm : id ∈ w'.counted) : c' = c :=
  PassesOk.sole h c' c w' w hw' hw
    ((hs.table.indexed.bkt_eq ((PassesOk.copy h c' w' hw' hc).sub id hm) hi).symm.trans
      (hs.table.indexed.bkt_eq hb hi))

theorem DiskOk.change_owed (hs : Sound cfg s) (hC : placesMarked cfg s a = true)
    (h : DiskOk s) (hch : Change cfg a s t) : OwedOk t.items t.wr t.nextItem := by
  have ho := h.owed
  have hx := hs.table.indexed
  cases hch with
  | hit _ _ _ hl => exact ho.touch (lookup_some hl).1 rfl .inl
  | insert => exact ho.insert (hx.fresh _ le_rfl)
  | release _ _ hi => exact ho.touch hi rfl .inl
  | read _ _ hi =>
    exact ho.touch hi (by simp [HashinfoItem.release])
      (fun hm => .inl (by simpa [HashinfoItem.release] using hm))
  | delete _ hl hb hi =>
    refine ho.delete (fun c w hw hcw hm => ?_)
    have hsub := (PassesOk.copy h.passes c w hw hcw).sub _ hm
    exact hs.table.walks.index_ne hl hw hcw.locked ((hx.bkt_eq hsub hi).symm.trans (hx.bkt_eq hb hi))
  | age _ _ _ hi => exact ho.touch hi rfl .inl
  | start => exact ho.set (by simp) (by simp) (by simp)
  | mark hw hp _ hi => exact ho.mark hw hp hi
  | unmark hw hp ht hi hu => exact (placesMarked_unmark hC hw hp ht hi hu).elim
  | place hw hp ht hi =>
    have hsub := hs.table.walks.next hw ht
    exact ho.place hw hp ht (hx.lt hi) hi (hx.bkt_eq hsub hi)
      (fun _ _ hw' => h.passes.counted_sole hs hw hsub hi hw')
  | commit hw hp ht hi _ hf =>
    obtain ⟨_, _, rfl, _⟩ := freeDataMemory_ok hf
    exact OwedOk.touch (ho.past hw rfl rfl (by simp [WrFile.copying, hp])) hi rfl .inl
  | skipMark hw hp ht => exact ho.next hw ht (by simp [hp])
  | skipPlace hw hp ht hi _ hpl =>
    refine ho.next hw ht (fun _ cp hi' => ?_)
    obtain rfl := Option.some.inj (hi.symm.trans hi')
    exact placesMarked_step hC hw hp ht hi hpl
  | skipCommit hw hp ht => exact ho.next hw ht (by simp [hp])
  | markNone => exact ho.clear
  | markDone hw hp => exact ho.turn hw hp (PassesOk.copy h.passes _ _ hw (.inl hp)).sub
  | placeDone hw => exact ho.past hw rfl rfl (by simp [WrFile.copying])
  | write hw => exact ho.past hw rfl rfl (by simp [WrFile.copying])
  | relock hw => exact ho.past hw rfl rfl (by simp [WrFile.copying])
  | commitDone => exact ho.clear
  | _ => exact ho

theorem HashinfoItem.age_willWrite (hc : 0 ≤ cp.cpuid) (hf : cp.flagCache = .willWrite) :
    cp.age.flagCache = .willWrite := by
  rcases cp.age_flagCache with ha | ⟨ha, _⟩ | ⟨_, _, hneg⟩
  · rw [ha, hf]
  · rw [ha] at hf
    cases hf
  · omega

theorem DiskOk.committed (hs : Sound cfg s) (h : DiskOk s) (hw : s.wr c = some w)
    (hp : w.phase = .commit) (hb : id ∈ s.hashTab w.index) (hi : s.items id = some cp) (c' : Nat) :
    ¬Pending s.wr c' id := by
  rintro ⟨v, hv, hu, hj⟩
  have hidx : v.index = w.index :=
    (h.owed.home c' v hv id hj cp hi).symm.trans (hs.table.indexed.bkt_eq hb hi)
  obtain rfl := PassesOk.sole h.passes c' c v w hv hw hidx
  rw [hw] at hv
  cases hv
  simp [WrFile.unwritten, hp] at hu

theorem not_unwritten {p : Phase} (hw : s.wr c = some w) (hp : w.phase = p)
    (hne : p ≠ .place ∧ p ≠ .write) : ∀ v, s.wr c = some v → ¬v.unwritten := by
  intro v hv
  rw [hw] at hv
  cases hv
  simpa [WrFile.unwritten, hp] using hne

theorem DiskOk.change_file (hs : Sound cfg s) (hC : placesMarked cfg s a = true)
    (h : DiskOk s) (hch : Change cfg a s t) :
    FileOk t.items t.file t.loffFile t.bitmapIndex t.wr := by
  have hd := h.file
  have hx := hs.table.indexed
  cases hch with
  | hit _ _ _ hl =>
    exact hd.touch (lookup_some hl).1 rfl rfl rfl rfl (fun _ hf _ => by simp [HashinfoItem.hit, hf])
  | insert =>
    refine hd.offDisk (by simp [newItem, allocDataMemory]) ?_
    rintro c ⟨w, hw, _, hj⟩
    exact absurd (h.owed.known c w hw _ hj) (lt_irrefl _)
  | release _ _ hi => exact hd.touch hi rfl rfl rfl rfl (fun _ hf _ => hf)
  | read _ _ hi =>
    exact hd.touch hi (by simp [HashinfoItem.release]) (by simp [HashinfoItem.release])
      (by simp [HashinfoItem.release]) (by simp [HashinfoItem.release])
      (fun _ hf _ => by simpa [HashinfoItem.release] using hf)
  | delete => exact hd.delete
  | age _ _ _ hi =>
    exact hd.touch hi rfl rfl rfl rfl (fun hc hf _ => HashinfoItem.age_willWrite hc hf)
  | start _ hc => exact hd.idle (by simp [hc]) (by simp [WrFile.unwritten])
  | mark hw hp _ hi hm =>
    have hneg := (HashinfoItem.markable_iff.mp hm).2.2.1
    refine FileOk.idle (hd.offDisk (by simp [HashinfoItem.mark]) (hd.not_pending hi (.inl (by omega))))
      (not_unwritten hw hp (by simp)) (by simp [WrFile.unwritten, hp])
  | unmark hw hp ht hi hu => exact (placesMarked_unmark hC hw hp ht hi hu).elim
  | place hw hp ht hi hm hf hle =>
    obtain ⟨_, hneg, hflag, _⟩ := HashinfoItem.placeable_iff.mp hm
    obtain rfl := SlotsOk.find_eq h.slots (slotCount_pos _) hf hle
    exact hd.place hw hp hi (by omega) hflag (h.content.len _ _ hi)
      (h.content.mem _ _ hi (.inr (.inl hflag)))
  | commit hw hp ht hi _ hf =>
    obtain ⟨_, _, rfl, _⟩ := freeDataMemory_ok hf
    have hsub := hs.table.walks.next hw ht
    refine FileOk.idle (hd.touch hi rfl rfl rfl rfl (fun _ _ hpend => ?_))
      (not_unwritten hw hp (by simp)) (by simp [WrFile.unwritten, hp])
    exact absurd hpend (h.committed hs hw hp hsub hi _)
  | skipMark hw hp => exact hd.advance hw .rfl rfl rfl rfl (by simp [hp])
  | skipPlace hw hp => exact hd.advance hw .rfl rfl rfl rfl (by simp [hp])
  | skipCommit hw hp => exact hd.advance hw .rfl rfl rfl rfl (by simp [hp])
  | markNone hw hp => exact hd.idle (not_unwritten hw hp (by simp)) (by simp)
  | markDone hw hp =>
    have hok := PassesOk.copy h.passes _ _ hw (.inl hp)
    have hnone := (hok.marking hp).1
    refine hd.idle (not_unwritten hw hp (by simp)) ?_
    rintro _ ⟨rfl⟩ _
    exact ⟨rfl, hnone, by rw [hok.used, hnone, Finset.sum_empty]⟩
  | placeDone hw hp ht =>
    have hbal := h.owed.balanced (PassesOk.copy h.passes _ _ hw (.inr hp)) hw hp ht
    exact hd.advance hw (by simp [WrFile.unwritten, hp]) rfl rfl rfl (fun _ => hbal)
  | write hw hp => exact hd.write hw hp
  | relock hw hp => exact hd.idle (not_unwritten hw hp (by simp)) (by simp [WrFile.unwritten])
  | commitDone hw hp => exact hd.idle (not_unwritten hw hp (by simp)) (by simp)
  | _ => exact hd

theorem DiskOk.change (hs : Sound cfg s) (hC : placesMarked cfg s a = true) (h : DiskOk s)
    (hch : Change cfg a s t) : DiskOk t where
  slots := h.slots.change hs hch
  passes := h.passes.change hs (clearsMarks_of_placesMarked hC) hch
  content := h.change_content hs hch
  owed := h.change_owed hs hC hch
  file := h.change_file hs hC hch

theorem diskOk_init (file : Nat → Nat → UInt8) : DiskOk (init file) where
  slots := slotsOk_init file
  passes := passesOk_init file
  content := ⟨by simp [init], by simp [init]⟩
  owed := ⟨by simp [init], by simp [init], by simp [init]⟩
  file := ⟨by simp [init, pendingBytes], by simp [init], by simp [init], by simp [init]⟩

/-- The file of its CPU holds the value of every item whose placing `wr_file` has done its
write, and so does the buffer of every item that `read_data` has read back. -/
structure DiskRoundTrip (s : State) : Prop where
  file : ∀ b id cp (c : Nat), id ∈ s.hashTab b → s.items id = some cp → cp.cpuid = c →
    ¬Pending s.wr c id → kernelRead (s.file c) (cp.start * chunkStep) cp.len = cp.value
  memory : ∀ b id cp, id ∈ s.hashTab b → s.items id = some cp → cp.flagMem = true →
    s.heap.bytes cp.data = cp.value

theorem disk_round_trip (cfg : Config) (file : Nat → Nat → UInt8) (as : List Act) (s : State)
    (h : Run (step cfg) (fun s a => placesMarked cfg s a = true) (init file) as s) :
    DiskRoundTrip s := by
  have hd : DiskOk s := (invariant_of_sound (fun _ _ => rfl)
    (fun _ _ _ hs hch hC hd => hd.change hs hC hch) h (diskOk_init file)).2
  exact ⟨fun _ id cp c _ hi hc hnp => (hd.file.written id cp c hi hc hnp).2,
    fun _ id cp _ hi hl => hd.content.mem id cp hi (.inr (.inr (.inr hl)))⟩

theorem disk_round_trip_roundTrip :
    DiskRoundTrip (final (step twoCpus) (placesMarked twoCpus) (init (fun _ _ => 0))
        (roundTrip ++ [.readData 0])) ∧
      ((final (step twoCpus) (placesMarked twoCpus) (init (fun _ _ => 0))
        (roundTrip ++ [.readData 0])).items 0).map (fun cp => (cp.cpuid, cp.flagMem)) = some (0, true) :=
  ⟨disk_round_trip twoCpus _ _ _ (run_final (by decide +kernel)), by decide +kernel⟩

def driftingOffset : List Act :=
  markA ++ [.getHashItem 1 chunkA digestA] ++ List.replicate 6 (.wrStep 0) ++
    [.releaseItem 1, .bucketClearItem (bkt digestA), .wrStart 0 (bkt digestA)] ++
    List.replicate 5 (.wrStep 0)

theorem disk_round_trip_fails : ∃ s, Run (step twoCpus) (fun _ _ => True) (init (fun _ _ => 0))
    driftingOffset s ∧ ¬DiskRoundTrip s := by
  refine ⟨_, run_final_any (g := fun _ _ => true) (by decide +kernel), fun h => ?_⟩
  have hw : ((final (step twoCpus) (fun _ _ => true) (init (fun _ _ => 0)) driftingOffset).wr 0).map
      (·.phase) = some .written := by decide +kernel
  have hi : ((final (step twoCpus) (fun _ _ => true) (init (fun _ _ => 0)) driftingOffset).items 0).map
      (fun cp => (cp.cpuid, cp.start, cp.len, cp.value)) = some (0, 0, 32, chunkA) := by
    decide +kernel
  obtain ⟨w, hw, hp⟩ := Option.map_eq_some_iff.mp hw
  obtain ⟨cp, hi, hc⟩ := Option.map_eq_some_iff.mp hi
  simp only [Prod.mk.injEq] at hc
  obtain ⟨hcpu, hstart, hlen, hvalue⟩ := hc
  have hread := h.file (bkt digestA) 0 cp 0 (by decide +kernel) hi hcpu (fun ⟨v, hv, hu, _⟩ =>
    not_unwritten hw hp (by simp) v hv hu)
  rw [hstart, hlen, hvalue] at hread
  exact absurd hread (by decide +kernel)

end Wspack.KernelHash
