import Wspack.KernelHash.Slots

namespace Wspack.KernelHash

open Function (update)
open Lib

def FreeRun (map : Bitmap) (num i : Nat) : Prop :=
  i + num ≤ bitmapSize ∧ ∀ j, i ≤ j → j < i + num → map j = false

variable {cfg : Config} {s t : State} {c id n k num : Nat} {cp : HashinfoItem} {w : WrFile}
  {rest : List Nat} {bm : Bitmap}

theorem find_le_iff {start size : Nat} (h : ∀ i, start ≤ i → bm i = false) (hnum : 0 < num) :
    bitmapFindNextZeroArea bm size start num 0 ≤ size ↔ start + num ≤ size := by
  constructor
  · intro hle
    exact (bitmapFindNextZeroArea_clear h hnum hle).2
  · intro hle
    unfold bitmapFindNextZeroArea findZeroArea
    rw [findNextZeroBit_clear h, min_eq_left (by omega), alignMask_zero]
    dsimp only
    rw [if_neg (by omega), findNextBit_clear h, if_neg (by omega)]
    omega

theorem HashinfoItem.unmarkable_of_placeable (h : cp.placeable = true) : cp.unmarkable = false := by
  have hshare := (HashinfoItem.placeable_iff.mp h).2.2.2
  simp [HashinfoItem.unmarkable, hshare]

theorem State.SlotsOk.bitmapFull_iff (h : s.SlotsOk) (hp : cp.placeable = true) :
    placeItem s c w id cp rest = .error (.fault .bitmapFull) ↔
      ¬s.bitmapIndex c + slotCount cp.len ≤ bitmapSize := by
  have hle := @find_le_iff (slotCount cp.len) (s.bitmap c) (s.bitmapIndex c) bitmapSize
    (h c).clear_above (slotCount_pos _)
  rw [← hle, placeItem, HashinfoItem.unmarkable_of_placeable hp, if_neg Bool.false_ne_true, if_pos hp]
  dsimp only
  split
  · simp [Nat.not_le.mpr ‹_›]
  · simp [Nat.not_lt.mp ‹_›]

theorem wrStep_place (hw : s.wr c = some w) (hphase : w.phase = .place) (htodo : w.todo = id :: rest)
    (hi : s.items id = some cp) : wrStep s c = placeItem s c w id cp rest := by
  unfold wrStep
  simp only [hw, hphase, htodo, hi]

/-- In every state of every run: an item that pass 2 selects ends in `BUG()` only for want of
free slots, exactly when there is room behind `bitmap_index` or no free run begins before it. -/
theorem slots_complete_iff (cfg : Config) (file : Nat → Nat → UInt8) (as : List Act) (s : State)
    (h : Run (step cfg) (fun _ _ => True) (init file) as s) (c id : Nat) (w : WrFile)
    (rest : List Nat) (cp : HashinfoItem) (hw : s.wr c = some w) (hphase : w.phase = .place)
    (htodo : w.todo = id :: rest) (hi : s.items id = some cp) (hp : cp.placeable = true) :
    (step cfg s (.wrStep c) = .error (.fault .bitmapFull) →
        ¬∃ i, FreeRun (s.bitmap c) (slotCount cp.len) i) ↔
      (s.bitmapIndex c + slotCount cp.len ≤ bitmapSize ∨
        ¬∃ i < s.bitmapIndex c, FreeRun (s.bitmap c) (slotCount cp.len) i) := by
  have hslots := (slotsOk_of_run h).2
  rw [step, wrStep_place hw hphase htodo hi, hslots.bitmapFull_iff hp]
  have hpos := slotCount_pos cp.len
  constructor
  · intro hno
    by_cases hroom : s.bitmapIndex c + slotCount cp.len ≤ bitmapSize
    · exact .inl hroom
    · refine .inr ?_
      rintro ⟨i, -, hfree⟩
      exact hno hroom ⟨i, hfree⟩
  · rintro (hroom | hno) hfull
    · exact absurd hroom hfull
    · rintro ⟨i, hfree⟩
      refine hno ⟨i, ?_, hfree⟩
      have := hfree.1
      omega

def oneCpu : Config := { ncpu := 1, hashMaxCount := 1000 }

section
variable (src : List UInt8) (dst : Digest)

def toPlace : List Act :=
  insertOn 0 src dst ++ hitOn 0 src dst ++
    [.bucketClearItem (bkt dst), .wrStart 0 (bkt dst)] ++ List.replicate 2 (.wrStep 0)

def lifeCycle : List Act :=
  toPlace src dst ++ List.replicate 6 (.wrStep 0) ++ List.replicate 11 (.bucketClearItem (bkt dst))

def cached (data : Nat) (refcnt cpuid : Int) (start : Nat) (flagCache : FlagCache)
    (storeFlag : StoreFlag) (memStyle : Option MemStyle) : HashinfoItem :=
  { refcnt, shareRef := 1, len := src.length, sha1 := dst, data, memStyle, cpuid, start, flagCache,
    flagMem := false, storeFlag, value := src }

end

structure Quiet (b k : Nat) (s : State) : Prop where
  tab : s.hashTab b = []
  items : s.items = fun _ => none
  count : s.hashCount = 0
  bits : s.bitmap 0 = fun _ => false
  index : s.bitmapIndex 0 = k
  hand : s.hand 0 = .idle
  wr : s.wr 0 = none

structure Lone (b k : Nat) (bm : Bitmap) (n : Nat) (cp : HashinfoItem) (wr : Option WrFile) (s : State) :
    Prop where
  tab : s.hashTab b = [n]
  items : s.items = update (fun _ => none) n (some cp)
  count : s.hashCount = 1
  bits : s.bitmap 0 = bm
  index : s.bitmapIndex 0 = k
  hand : s.hand 0 = .idle
  wr : s.wr 0 = wr

abbrev Leads (s : State) (as : List Act) (t : State) : Prop :=
  Run (step oneCpu) (fun _ _ => True) s as t

variable {b : Nat} {src : List UInt8} {dst : Digest} {wr : Option WrFile}

theorem Lone.item (h : Lone b k bm n cp wr s) : s.items n = some cp := by
  rw [h.items, Function.update_self]

theorem Quiet.insert (h : Quiet (bkt dst) k s) (src : List UInt8) :
    ∃ t n data, Leads s (insertOn 0 src dst) t ∧ Lone (bkt dst) k (fun _ => false) n
      (cached src dst data 6 (-1) 0 .memory .initial (some (memStyleOf src.length))) none t := by
  let s1 := { s with hand := update s.hand 0 (.missed dst src) }
  have h1 : step oneCpu s (.getHashItem 0 src dst) = .ok s1 := by
    simp [step, oneCpu, h.hand, handGet, getHashItem, lookup, h.tab, s1]
  have hfree : writeLockFree oneCpu s1 (bkt dst) = true := by
    simp [writeLockFree, oneCpu, s1, h.wr]
  have hcount : ¬s1.hashCount > oneCpu.hashMaxCount := by
    simp [oneCpu, s1, h.count]
  have hhand : s1.hand 0 = .missed dst src := by
    simp [s1]
  have h2 : ∃ t, step oneCpu s1 (.addHashInfo 0 true) = .ok t ∧
      Lone (bkt dst) k (fun _ => false) s.nextItem (cached src dst s.heap.next 6 (-1) 0 .memory .initial
        (some (memStyleOf src.length))) none t := by
    simp only [step, hhand, handAdd, hashNewItem, if_neg hcount, hfree]
    refine ⟨_, rfl, ?_⟩
    constructor
    · simp [s1, h.tab]
    · simp [s1, h.items, newItem, allocDataMemory, cached, itemCiteAdd]
    · simp [s1, h.count]
    · exact h.bits
    · exact h.index
    · simp
    · exact h.wr
  obtain ⟨t, h2, ht⟩ := h2
  exact ⟨t, _, _, .cons trivial h1 (.single trivial h2), ht⟩

theorem Lone.hit (h : Lone (bkt dst) k bm n cp wr s) (src : List UInt8) (hsha : cp.sha1 = dst)
    (hflag : cp.hit.flagCache ≠ .readBack) : ∃ t, Leads s (hitOn 0 src dst) t ∧
      Lone (bkt dst) k bm n cp.hit.release wr t := by
  have hlookup : lookup s dst = some (n, cp) := by
    simp [lookup, h.tab, h.item, hsha]
  have h1 : ∃ u, step oneCpu s (.getHashItem 0 src dst) = .ok u ∧
      u.hand 0 = .found n s.nextHold src.length ∧ u.items = update s.items n (some cp.hit) ∧
      u.hashTab = s.hashTab ∧ u.hashCount = s.hashCount ∧ u.bitmap = s.bitmap ∧
      u.bitmapIndex = s.bitmapIndex ∧ u.wr = s.wr := by
    simp [step, oneCpu, h.hand, handGet, getHashItem, hlookup]
  obtain ⟨u, h1, hhand, hitems, htab, hcount, hbits, hindex, hwr⟩ := h1
  have hitem : u.items n = some cp.hit := by
    rw [hitems, Function.update_self]
  have h2 : ∃ t, step oneCpu u (.releaseItem 0) = .ok t ∧
      Lone (bkt dst) k bm n cp.hit.release wr t := by
    simp only [step, hhand, handFound, hitem, if_pos hflag]
    refine ⟨_, rfl, ?_⟩
    constructor
    · exact (congrFun htab _).trans h.tab
    · simp [hitems, h.items]
    · exact hcount.trans h.count
    · exact (congrFun hbits 0).trans h.bits
    · exact (congrFun hindex 0).trans h.index
    · simp
    · exact (congrFun hwr 0).trans h.wr
  obtain ⟨t, h2, ht⟩ := h2
  exact ⟨t, .cons trivial h1 (.single trivial h2), ht⟩

theorem Lone.lockFree (h : Lone b k bm n cp none s) : writeLockFree oneCpu s b = true := by
  simp [writeLockFree, oneCpu, h.wr]

theorem Lone.sweep (h : Lone b k bm n cp none s) (hold : cp.expired = false) :
    ∃ t, Leads s [.bucketClearItem b] t ∧ Lone b k bm n cp.age none t ∧
      (cp.age.diskRange = true → t.workPending b = true) := by
  have h1 : ∃ t, step oneCpu s (.bucketClearItem b) = .ok t ∧ Lone b k bm n cp.age none t ∧
      (cp.age.diskRange = true → t.workPending b = true) := by
    simp only [step, h.lockFree, if_true, bucketClearItem, h.tab, clearLoop, clearItem, h.item, hold]
    refine ⟨_, rfl, ?_, ?_⟩
    · constructor
      · exact h.tab
      · simp [h.items]
      · exact h.count
      · exact h.bits
      · exact h.index
      · exact h.hand
      · exact h.wr
    · intro hr
      simp [hr]
  obtain ⟨t, h1, ht⟩ := h1
  exact ⟨t, .single trivial h1, ht⟩

theorem Lone.delete (h : Lone b k bm n cp none s) (hold : cp.expired = true)
    (hdisk : cp.flagCache = .disk) (hcpu : cp.cpuid = 0)
    (hclear : clearBits bm cp.start (slotCount cp.len) = fun _ => false) :
    ∃ t, Leads s [.bucketClearItem b] t ∧ Quiet b k t := by
  have hbuffer : freeBuffer s.heap cp = .ok (s.heap, cp) := by
    simp [freeBuffer, HashinfoItem.holdsBuffer, hdisk]
  have hslot : cp.holdsSlot = true := by
    simp [HashinfoItem.holdsSlot, hdisk]
  have h1 : ∃ t, step oneCpu s (.bucketClearItem b) = .ok t ∧ Quiet b k t := by
    simp only [step, h.lockFree, if_true, bucketClearItem, h.tab, clearLoop, clearItem, h.item, hold,
      deleteItem, hbuffer, hslot, hcpu]
    refine ⟨_, rfl, ?_⟩
    constructor
    · simp
    · simp [h.items]
    · simp [h.count]
    · simp [h.bits, hclear]
    · exact h.index
    · exact h.hand
    · exact h.wr
  obtain ⟨t, h1, ht⟩ := h1
  exact ⟨t, .single trivial h1, ht⟩

structure At (b : Nat) (phase : Phase) (todo : List Nat) (w : WrFile) : Prop where
  index : w.index = b
  phase : w.phase = phase
  todo : w.todo = todo

theorem Lone.start (h : Lone b k bm n cp none s) (hwork : s.workPending b = true) :
    ∃ t w, Leads s [.wrStart 0 b] t ∧ Lone b k bm n cp (some w) t ∧ At b .mark [n] w := by
  have h1 : step oneCpu s (.wrStart 0 b) = .ok (wrStart s 0 b) := by
    simp [step, oneCpu, h.wr, hwork]
  have hwr : ∃ w, (wrStart s 0 b).wr 0 = some w ∧ At b .mark [n] w := by
    simp only [wrStart, Function.update_self, Option.some.injEq, exists_eq_left']
    exact ⟨rfl, rfl, h.tab⟩
  obtain ⟨w, hwr, hat⟩ := hwr
  exact ⟨_, w, .single trivial h1, ⟨h.tab, h.items, h.count, h.bits, h.index, h.hand, hwr⟩, hat⟩

theorem Lone.wrMove (h : Lone b k bm n cp wr s) {w : Option WrFile}
    (hstep : wrStep s 0 = .ok (s.setWr 0 w)) :
    ∃ t, Leads s [.wrStep 0] t ∧ Lone b k bm n cp w t := by
  refine ⟨_, .single trivial hstep, ⟨h.tab, h.items, h.count, h.bits, h.index, h.hand, ?_⟩⟩
  simp [State.setWr]

theorem Lone.mark (h : Lone b k bm n cp (some w) s) (hat : At b .mark [n] w)
    (hm : cp.markable = true) : ∃ t w, Leads s [.wrStep 0] t ∧ Lone b k bm n cp.mark (some w) t ∧
      At b .mark [] w ∧ w.allSize ≠ 0 := by
  have h1 : step oneCpu s (.wrStep 0) = .ok (markItem s 0 w n cp []) := by
    simp only [step, wrStep, h.wr, hat.phase, hat.todo, h.item]
  have hwr : ∃ w', (markItem s 0 w n cp []).wr 0 = some w' ∧ At b .mark [] w' ∧ w'.allSize ≠ 0 := by
    have := slotCount_pos cp.len
    simp only [markItem, hm, if_true, Function.update_self, Option.some.injEq, exists_eq_left', chunkStep]
    exact ⟨⟨hat.index, hat.phase, rfl⟩, by omega⟩
  obtain ⟨w', hwr, hat', hsize⟩ := hwr
  refine ⟨_, w', .single trivial h1, ?_, hat', hsize⟩
  rw [markItem, if_pos hm] at hwr ⊢
  exact ⟨h.tab, by simp [h.items], h.count, h.bits, h.index, h.hand, hwr⟩

theorem Lone.markEnd (h : Lone b k bm n cp (some w) s) (hat : At b .mark [] w)
    (hsize : w.allSize ≠ 0) : ∃ t w, Leads s [.wrStep 0] t ∧ Lone b k bm n cp (some w) t ∧
      At b .place [n] w := by
  have hstep : wrStep s 0 =
      .ok (s.setWr 0 (some { w with phase := .place, todo := s.hashTab w.index })) := by
    simp only [wrStep, h.wr, hat.phase, hat.todo, if_neg hsize]
  obtain ⟨t, hrun, ht⟩ := h.wrMove hstep
  exact ⟨t, _, hrun, ht, ⟨hat.index, rfl, hat.index ▸ h.tab⟩⟩

theorem Lone.place (h : Lone b k (fun _ => false) n cp (some w) s) (hat : At b .place [n] w)
    (hp : cp.placeable = true) (hroom : k + slotCount cp.len ≤ bitmapSize) :
    ∃ t w, Leads s [.wrStep 0] t ∧ Lone b (k + slotCount cp.len)
      (setBits (fun _ => false) k (slotCount cp.len)) n (cp.place 0 k) (some w) t ∧
      At b .place [] w := by
  have hclear : ∀ i, s.bitmapIndex 0 ≤ i → s.bitmap 0 i = false := fun i _ => by rw [h.bits]
  have hle := (find_le_iff hclear (slotCount_pos cp.len)).mpr (h.index ▸ hroom)
  have hfind := (bitmapFindNextZeroArea_clear hclear (slotCount_pos cp.len) hle).1
  have h1 : step oneCpu s (.wrStep 0) = .ok (placeAt s 0 w n cp [] k) := by
    rw [step, wrStep_place h.wr hat.phase hat.todo h.item, placeItem,
      HashinfoItem.unmarkable_of_placeable hp, if_neg Bool.false_ne_true, if_pos hp]
    dsimp only
    rw [if_neg (Nat.not_lt.mpr hle), hfind, h.index]
  have hwr : ∃ w', (placeAt s 0 w n cp [] k).wr 0 = some w' ∧ At b .place [] w' := by
    simp only [placeAt, Function.update_self, Option.some.injEq, exists_eq_left']
    exact ⟨hat.index, hat.phase, rfl⟩
  obtain ⟨w', hwr, hat'⟩ := hwr
  refine ⟨_, w', .single trivial h1, ⟨h.tab, ?_, h.count, ?_, ?_, h.hand, hwr⟩, hat'⟩
  · simp [placeAt, h.items]
  · simp [placeAt, h.bits]
  · simp [placeAt, h.index]

theorem Lone.placeEnd (h : Lone b k bm n cp (some w) s) (hat : At b .place [] w) :
    ∃ t w, Leads s [.wrStep 0] t ∧ Lone b k bm n cp (some w) t ∧ At b .write [] w := by
  have hstep : wrStep s 0 = .ok (s.setWr 0 (some { w with phase := .write })) := by
    simp only [wrStep, h.wr, hat.phase, hat.todo]
  obtain ⟨t, hrun, ht⟩ := h.wrMove hstep
  exact ⟨t, _, hrun, ht, ⟨hat.index, rfl, hat.todo⟩⟩

theorem Lone.write (h : Lone b k bm n cp (some w) s) (hat : At b .write [] w) :
    ∃ t w, Leads s [.wrStep 0] t ∧ Lone b k bm n cp (some w) t ∧ At b .written [] w := by
  have h1 : step oneCpu s (.wrStep 0) = .ok (writeFile s 0 w) := by
    simp only [step, wrStep, h.wr, hat.phase]
  refine ⟨_, { w with phase := .written }, .single trivial h1, ?_, ⟨hat.index, rfl, hat.todo⟩⟩
  exact ⟨h.tab, h.items, h.count, h.bits, h.index, h.hand, by simp [writeFile]⟩

theorem Lone.written (h : Lone b k bm n cp (some w) s) (hat : At b .written [] w) :
    ∃ t w, Leads s [.wrStep 0] t ∧ Lone b k bm n cp (some w) t ∧ At b .commit [n] w := by
  have hstep : wrStep s 0 =
      .ok (s.setWr 0 (some { w with phase := .commit, todo := s.hashTab w.index })) := by
    simp only [wrStep, h.wr, hat.phase]
  obtain ⟨t, hrun, ht⟩ := h.wrMove hstep
  exact ⟨t, _, hrun, ht, ⟨hat.index, rfl, hat.index ▸ h.tab⟩⟩

theorem Lone.commit (h : Lone b k bm n cp (some w) s) (hat : At b .commit [n] w)
    (hc : cp.committable = true) {m : MemStyle} (hm : cp.memStyle = some m) :
    ∃ t w, Leads s [.wrStep 0] t ∧
      Lone b k bm n { cp with flagCache := .disk, memStyle := none } (some w) t ∧ At b .commit [] w := by
  have h1 : ∃ t, step oneCpu s (.wrStep 0) = .ok t ∧
      Lone b k bm n { cp with flagCache := .disk, memStyle := none } (some { w with todo := [] }) t := by
    simp only [step, wrStep, h.wr, hat.phase, hat.todo, h.item, commitItem, hc, if_true, freeDataMemory, hm]
    refine ⟨_, rfl, ⟨h.tab, ?_, h.count, h.bits, h.index, h.hand, ?_⟩⟩
    · simp [h.items]
    · simp
  obtain ⟨t, h1, ht⟩ := h1
  exact ⟨t, _, .single trivial h1, ht, ⟨hat.index, hat.phase, rfl⟩⟩

theorem Lone.commitEnd (h : Lone b k bm n cp (some w) s) (hat : At b .commit [] w) :
    ∃ t, Leads s [.wrStep 0] t ∧ Lone b k bm n cp none t := by
  apply h.wrMove
  simp only [wrStep, h.wr, hat.phase, hat.todo]

theorem cached_age_disk {data start : Nat} {cpuid r : Int} (hr : 0 ≤ r) (hmax : r < 100) :
    (cached src dst data (r + 1) cpuid start .disk .will none).age =
      cached src dst data r cpuid start .disk .will none := by
  have hwrap : wrapInt r = r := wrapInt_of_range (by omega) (by omega)
  simp [HashinfoItem.age, HashinfoItem.nextFlag, cached, hwrap]

theorem Lone.age {data start r : Nat} {cpuid : Int} (hmax : r < 100) :
    ∀ {s}, Lone b k bm n (cached src dst data (r + 1) cpuid start .disk .will none) none s →
      ∃ t, Leads s (List.replicate r (.bucketClearItem b)) t ∧
        Lone b k bm n (cached src dst data 1 cpuid start .disk .will none) none t := by
  induction r with
  | zero => exact fun {s} h => ⟨s, .nil s, h⟩
  | succ r ih =>
    intro s h
    have hold : (cached src dst data ((r + 1 : Nat) + 1) cpuid start .disk .will none).expired = false := by
      simp [HashinfoItem.expired, cached]
    obtain ⟨t, hrun, ht, -⟩ := h.sweep hold
    rw [cached_age_disk (by omega) (by omega), Nat.cast_succ] at ht
    obtain ⟨u, hrest, hu⟩ := ih (by omega) ht
    exact ⟨u, hrun.append hrest, hu⟩

theorem Quiet.toPlace (h : Quiet (bkt dst) k s) (src : List UInt8) :
    ∃ t w n data, Leads s (toPlace src dst) t ∧ Lone (bkt dst) k (fun _ => false) n
      (cached src dst data 11 (-2) 0 .willWrite .will (some (memStyleOf src.length))) (some w) t ∧
    At (bkt dst) .place [n] w := by
  obtain ⟨s1, n, data, hinsert, h1⟩ := h.insert src
  obtain ⟨s2, hhit, h2⟩ := h1.hit src rfl (FlagCache.noConfusion)
  obtain ⟨s3, hsweep, h3, hpend⟩ := h2.sweep rfl
  obtain ⟨s4, w4, hstart, h4, hat4⟩ := h3.start (hpend rfl)
  obtain ⟨s5, w5, hmark, h5, hat5, hsize⟩ := h4.mark hat4 rfl
  obtain ⟨s6, w6, hend, h6, hat6⟩ := h5.markEnd hat5 hsize
  refine ⟨s6, w6, n, data, ?_, h6, hat6⟩
  exact ((((hinsert.append hhit).append hsweep).append hstart).append hmark).append hend

theorem clearBits_setBits (start num : Nat) :
    clearBits (setBits (fun _ => false) start num) start num = fun _ => false := by
  funext i
  rw [clearBits_apply, setBits_apply]
  split <;> rfl

theorem Quiet.lifeCycle (h : Quiet (bkt dst) k s) (src : List UInt8)
    (hroom : k + slotCount src.length ≤ bitmapSize) : ∃ t, Leads s (lifeCycle src dst) t ∧
      Quiet (bkt dst) (k + slotCount src.length) t := by
  obtain ⟨s1, w1, n, data, hplace, h1, hat1⟩ := h.toPlace src
  obtain ⟨s2, w2, hrun2, h2, hat2⟩ := h1.place hat1 rfl hroom
  obtain ⟨s3, w3, hrun3, h3, hat3⟩ := h2.placeEnd hat2
  obtain ⟨s4, w4, hrun4, h4, hat4⟩ := h3.write hat3
  obtain ⟨s5, w5, hrun5, h5, hat5⟩ := h4.written hat4
  obtain ⟨s6, w6, hrun6, h6, hat6⟩ := h5.commit hat5 rfl rfl
  obtain ⟨s7, hrun7, h7⟩ := h6.commitEnd hat6
  obtain ⟨s8, hage, h8⟩ := h7.age (r := 10) (by decide)
  obtain ⟨s9, hdelete, h9⟩ := h8.delete rfl rfl rfl (clearBits_setBits _ _)
  refine ⟨s9, ?_, h9⟩
  have hwrite := ((((hrun2.append hrun3).append hrun4).append hrun5).append hrun6).append hrun7
  exact (hplace.append hwrite).append (hage.append hdelete)

theorem Quiet.repeat (src : List UInt8) (m : Nat) :
    ∀ {k s}, Quiet (bkt dst) k s → k + m * slotCount src.length ≤ bitmapSize →
      ∃ t, Leads s (List.replicate m (KernelHash.lifeCycle src dst)).flatten t ∧
        Quiet (bkt dst) (k + m * slotCount src.length) t := by
  induction m with
  | zero =>
    intro k s h _
    exact ⟨s, .nil s, by simpa using h⟩
  | succ m ih =>
    intro k s h hroom
    rw [Nat.succ_mul] at hroom
    obtain ⟨t, hrun, ht⟩ := h.lifeCycle src (by omega)
    obtain ⟨u, hrest, hu⟩ := ih ht (by omega)
    refine ⟨u, ?_, ?_⟩
    · rw [List.replicate_succ, List.flatten_cons]
      exact hrun.append hrest
    · rw [Nat.succ_mul, Nat.add_comm (m * _), ← Nat.add_assoc]
      exact hu

theorem quiet_init (file : Nat → Nat → UInt8) (b : Nat) : Quiet b 0 (init file) :=
  ⟨rfl, rfl, rfl, rfl, rfl, rfl, rfl⟩

theorem slots_complete_first : ∃ s id w rest cp,
    Run (step oneCpu) (fun _ _ => True) (init fun _ _ => 0) (toPlace chunkA digestA) s ∧
    s.wr 0 = some w ∧ w.phase = .place ∧ w.todo = id :: rest ∧ s.items id = some cp ∧
    cp.placeable = true ∧
    (step oneCpu s (.wrStep 0) = .error (.fault .bitmapFull) →
      ¬∃ i, FreeRun (s.bitmap 0) (slotCount cp.len) i) := by
  obtain ⟨s, w, n, data, hrun, hs, hat⟩ := (quiet_init (fun _ _ => 0) (bkt digestA)).toPlace chunkA
  refine ⟨s, n, w, [], _, hrun, hs.wr, hat.phase, hat.todo, hs.item, rfl, ?_⟩
  apply (slots_complete_iff oneCpu _ _ s hrun 0 n w [] _ hs.wr hat.phase hat.todo hs.item rfl).mpr
  left
  rw [hs.index]
  change 0 + slotCount chunkA.length ≤ bitmapSize
  decide

def bigChunk : List UInt8 := (List.replicate 32736 [1, 0]).flatten

def bigDigest : Digest :=
  #v[39, 143, 142, 98, 245, 208, 246, 225, 126, 69, 48, 223, 35, 103, 214, 16, 150, 115, 112, 137]

theorem slotCount_bigChunk : slotCount bigChunk.length = 2046 := by
  have hlength : bigChunk.length = 32736 * 2 := by
    simp only [bigChunk, List.length_flatten, List.map_replicate, List.sum_replicate_nat]
    rfl
  rw [hlength]
  decide

theorem slots_exhausted : ∃ s id w rest cp,
    Run (step oneCpu) (fun _ _ => True) (init fun _ _ => 0)
      ((List.replicate 20500 (lifeCycle bigChunk bigDigest)).flatten ++ toPlace bigChunk bigDigest) s ∧
    s.wr 0 = some w ∧ w.phase = .place ∧ w.todo = id :: rest ∧ s.items id = some cp ∧
    cp.placeable = true ∧ step oneCpu s (.wrStep 0) = .error (.fault .bitmapFull) ∧
    FreeRun (s.bitmap 0) (slotCount cp.len) 0 := by
  obtain ⟨t, hlives, ht⟩ := (quiet_init (fun _ _ => 0) (bkt bigDigest)).repeat bigChunk 20500
    (by rw [slotCount_bigChunk]; decide)
  obtain ⟨s, w, n, data, hplace, hs, hat⟩ := ht.toPlace bigChunk
  have hrun := hlives.append hplace
  refine ⟨s, n, w, [], _, hrun, hs.wr, hat.phase, hat.todo, hs.item, rfl, ?_, ?_, ?_⟩
  · have hslots := (slotsOk_of_run hrun).2
    rw [step, wrStep_place hs.wr hat.phase hat.todo hs.item, hslots.bitmapFull_iff rfl, hs.index]
    change ¬0 + 20500 * slotCount bigChunk.length + slotCount bigChunk.length ≤ bitmapSize
    rw [slotCount_bigChunk]
    decide
  · change 0 + slotCount bigChunk.length ≤ bitmapSize
    rw [slotCount_bigChunk]
    decide
  · intro j _ _
    rw [hs.bits]

end Wspack.KernelHash
