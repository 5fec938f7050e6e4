import Wspack.CacheVerify.Log
import Wspack.Lib.Ownership
import Wspack.Lib.Run
import Mathlib.Algebra.Ring.Int.Parity
import Mathlib.Tactic.Ring

namespace Wspack.CacheVerify

open Lib
open KernelHash (Digest wrapInt wrapInt_of_range bkt bkt_lt hashTabSize)

abbrev Bucket := Fin hashTabSize.toNat

/-- `get_hash_item` compares the values of equal digests only to print them. -/
inductive Op
  | hashNewItem (info : Digest) (value : Chunk) (item data : Bool)
  | getHashItem (info : Digest)
  | bucketClearItem (data : Bucket)
  | wrFile (data : Bucket) (cpu : Nat) (env : Env)

def step (t : Table) : Op → Except Fault Table
  | .hashNewItem info value item data => t.hashNewItem info value item data
  | .getHashItem info => .ok (t.getHashItem info)
  | .bucketClearItem data => .ok (t.bucketClearItem data)
  | .wrFile data cpu env =>
    if t.pending data then (t.wrFile data cpu env).map Prod.fst else .ok t

inductive Change (s : Table) : Op → Table → Prop
  | refused {info value item data} : Change s (.hashNewItem info value item data) s
  | added {info value item data} : s.hashCount % 2 ^ 64 ≤ hashMaxCount →
      Change s (.hashNewItem info value item data) (s.insert (s.newItem info value))
  | hit {info} : Change s (.getHashItem info) (s.getHashItem info)
  | swept {data} : Change s (.bucketClearItem data) (s.bucketClearItem data)
  | idle {data cpu env} : Change s (.wrFile data cpu env) s
  | logged {data cpu env} : Change s (.wrFile data cpu env) (s.logged data cpu)

theorem change_of_step {s t : Table} {op : Op} (h : step s op = .ok t) : Change s op t := by
  cases op with
  | hashNewItem info value item data =>
    rw [step, Table.hashNewItem] at h
    split at h
    · cases h; exact .refused
    · split at h
      · cases h; exact .refused
      · split at h
        · cases h
        · cases h
          exact .added (by omega)
  | getHashItem info => cases h; exact .hit
  | bucketClearItem data => cases h; exact .swept
  | wrFile data cpu env =>
    rw [step] at h
    split at h
    · rcases wrFile_cases s data cpu env with hw | ⟨-, hw⟩ | ⟨-, hw⟩
      · rw [hw] at h; cases h; exact .logged
      · rw [hw] at h; cases h
      · rw [hw] at h; cases h
    · cases h; exact .idle

def Table.buffers (t : Table) (b : Nat) : List Nat := (t.hashTab b).map HashinfoItem.buffer

structure Sound (t : Table) : Prop where
  stocked : Stocked hashTabSize.toNat t.buffers t.next t.freed
  count : t.hashCount = tally hashTabSize.toNat (fun l => (l.length : Int)) t.buffers
  bound : t.hashCount ≤ hashMaxCount + 1

def HashinfoItem.dies (cp : HashinfoItem) : Bool := decide (wrapInt (cp.refcnt - 1) = 0)

def gone (l : List HashinfoItem) : List Nat := (l.filter HashinfoItem.dies).map HashinfoItem.buffer

theorem clear_of_dies {cp : HashinfoItem} (h : cp.dies = true) : cp.clear = none := by
  rw [HashinfoItem.clear, if_pos (of_decide_eq_true h)]

theorem clear_of_not_dies {cp : HashinfoItem} (h : cp.dies = false) :
    cp.clear = some { cp with refcnt := wrapInt (wrapInt (cp.refcnt - 1) - 1) } := by
  rw [HashinfoItem.clear, if_neg (of_decide_eq_false h)]

theorem gone_cons_of_dies {cp : HashinfoItem} {l : List HashinfoItem} (h : cp.dies = true) :
    gone (cp :: l) = cp.buffer :: gone l := by
  rw [gone, List.filter_cons_of_pos h, List.map_cons, gone]

theorem gone_cons_of_not_dies {cp : HashinfoItem} {l : List HashinfoItem} (h : cp.dies = false) :
    gone (cp :: l) = gone l := by
  rw [gone, List.filter_cons_of_neg (by simp [h]), gone]

theorem clearList_eq {t : Table} {l : List HashinfoItem} :
    (t.clearList l).1.hashTab = t.hashTab ∧ (t.clearList l).1.next = t.next ∧
      (t.clearList l).1.freed = (gone l).reverse ++ t.freed ∧
      (t.clearList l).2.1 = l.filterMap HashinfoItem.clear := by
  induction l generalizing t with
  | nil => exact ⟨rfl, rfl, rfl, rfl⟩
  | cons cp l ih =>
    cases hd : cp.dies with
    | true =>
      rw [Table.clearList, clear_of_dies hd, gone_cons_of_dies hd,
        List.filterMap_cons_none (clear_of_dies hd)]
      obtain ⟨htab, hnext, hfreed, hkept⟩ := ih (t := t.delete cp)
      refine ⟨htab, hnext, hfreed.trans ?_, hkept⟩
      simp [Table.delete]
    | false =>
      rw [Table.clearList, clear_of_not_dies hd, gone_cons_of_not_dies hd,
        List.filterMap_cons_some (clear_of_not_dies hd)]
      obtain ⟨htab, hnext, hfreed, hkept⟩ := ih (t := t)
      exact ⟨htab, hnext, hfreed, congrArg _ hkept⟩

theorem clearList_hashCount {t : Table} {l : List HashinfoItem} (hl : (gone l).length ≤ t.hashCount)
    (hu : t.hashCount < 2 ^ 31) : (t.clearList l).1.hashCount = t.hashCount - (gone l).length := by
  induction l generalizing t with
  | nil => exact (sub_zero _).symm
  | cons cp l ih =>
    cases hd : cp.dies with
    | true =>
      rw [gone_cons_of_dies hd, List.length_cons, Nat.cast_succ] at hl ⊢
      have hdec : (t.delete cp).hashCount = t.hashCount - 1 := wrapInt_of_range (by omega) (by omega)
      rw [Table.clearList, clear_of_dies hd, ih (by omega) (by omega), hdec]
      omega
    | false =>
      rw [gone_cons_of_not_dies hd] at hl ⊢
      rw [Table.clearList, clear_of_not_dies hd]
      exact ih hl hu

theorem buffers_perm (l : List HashinfoItem) : (l.map HashinfoItem.buffer).Perm
    ((l.filterMap HashinfoItem.clear).map HashinfoItem.buffer ++ gone l) := by
  induction l with
  | nil => exact .nil
  | cons cp l ih =>
    cases hd : cp.dies with
    | true =>
      rw [gone_cons_of_dies hd, List.filterMap_cons_none (clear_of_dies hd), List.map_cons]
      exact (ih.cons _).trans List.perm_middle.symm
    | false =>
      rw [gone_cons_of_not_dies hd, List.filterMap_cons_some (clear_of_not_dies hd), List.map_cons]
      exact ih.cons _

theorem buffers_update (t : Table) (b : Nat) (l : List HashinfoItem) :
    { t with hashTab := Function.update t.hashTab b l }.buffers =
      Function.update t.buffers b (l.map HashinfoItem.buffer) := by
  funext i
  by_cases e : i = b
  · subst e; simp [Table.buffers]
  · simp [Table.buffers, e]

theorem sound_init : Sound Table.init where
  stocked := Stocked.nil _
  count := by simp [Table.init, tally, Table.buffers]
  bound := by decide

theorem Sound.congr {s t : Table} (h : Sound s) (hb : t.buffers = s.buffers) (hn : t.next = s.next)
    (hf : t.freed = s.freed) (hc : t.hashCount = s.hashCount) : Sound t where
  stocked := by rw [hb, hn, hf]; exact h.stocked
  count := by rw [hb, hc]; exact h.count
  bound := by rw [hc]; exact h.bound

theorem map_buffer_hitFirst (info : Digest) (l : List HashinfoItem) :
    (hitFirst info l).map HashinfoItem.buffer = l.map HashinfoItem.buffer := by
  induction l with
  | nil => rfl
  | cons cp l ih =>
    rw [hitFirst]
    split
    · rfl
    · rw [List.map_cons, List.map_cons, ih]

theorem Sound.getHashItem {t : Table} (h : Sound t) (info : Digest) : Sound (t.getHashItem info) := by
  refine h.congr ?_ rfl rfl rfl
  rw [Table.getHashItem, buffers_update, map_buffer_hitFirst]
  exact Function.update_eq_self _ _

theorem Sound.logged {t : Table} (h : Sound t) (data cpu : Nat) : Sound (t.logged data cpu) := by
  refine h.congr ?_ rfl rfl rfl
  have hmap : ((t.hashTab data).map HashinfoItem.settle).map HashinfoItem.buffer = t.buffers data := by
    rw [List.map_map]
    rfl
  have hb := buffers_update t data ((t.hashTab data).map HashinfoItem.settle)
  rw [hmap, Function.update_eq_self] at hb
  exact hb

theorem Sound.hashCount_nonneg {t : Table} (h : Sound t) : 0 ≤ t.hashCount := by
  rw [h.count]
  exact tally_nonneg (fun _ _ => by positivity)

theorem Sound.lt {t : Table} (h : Sound t) : t.hashCount < 2 ^ 31 := by
  have := h.bound
  have : hashMaxCount = 24403223 := rfl
  omega

theorem Sound.insert {t : Table} {info : Digest} {value : Chunk} (h : Sound t)
    (hroom : t.hashCount % 2 ^ 64 ≤ hashMaxCount) : Sound (t.insert (t.newItem info value)) := by
  have hpos := h.hashCount_nonneg
  have hlt := h.lt
  rw [Int.emod_eq_of_lt hpos (by omega)] at hroom
  have hmax : hashMaxCount = 24403223 := rfl
  have hcount : (t.insert (t.newItem info value)).hashCount = t.hashCount + 1 :=
    wrapInt_of_range (by omega) (by omega)
  have hb : (t.insert (t.newItem info value)).buffers =
      Function.update t.buffers (bkt info) (t.next :: t.buffers (bkt info)) :=
    buffers_update t (bkt info) (t.newItem info value :: t.hashTab (bkt info))
  constructor
  · rw [hb]
    exact h.stocked.alloc (bkt_lt _)
  · rw [hb, tally_update (bkt_lt _), hcount, h.count, List.length_cons, Nat.cast_succ]
    ring
  · omega

theorem bucketClearItem_eq (t : Table) (data : Nat) :
    (t.bucketClearItem data).hashTab =
        Function.update t.hashTab data ((t.hashTab data).filterMap HashinfoItem.clear) ∧
      (t.bucketClearItem data).freed = (gone (t.hashTab data)).reverse ++ t.freed ∧
      (t.bucketClearItem data).next = t.next := by
  obtain ⟨htab, hnext, hfreed, hkept⟩ := clearList_eq (t := t) (l := t.hashTab data)
  refine ⟨?_, hfreed, hnext⟩
  change Function.update (t.clearList (t.hashTab data)).1.hashTab data (t.clearList (t.hashTab data)).2.1 = _
  rw [htab, hkept]

theorem Sound.gone_le {t : Table} (h : Sound t) (data : Bucket) :
    ((gone (t.hashTab data)).length : Int) ≤ t.hashCount := by
  have hle : (gone (t.hashTab data)).length ≤ (t.buffers data).length := by
    rw [Table.buffers, (buffers_perm (t.hashTab data)).length_eq, List.length_append]
    omega
  have := le_tally (w := fun l : List Nat => (l.length : Int)) (f := t.buffers)
    (fun _ _ => by positivity) data.isLt
  rw [h.count]
  omega

theorem Sound.hashCount_sweep {t : Table} (h : Sound t) (data : Bucket) :
    (t.bucketClearItem data).hashCount = t.hashCount - (gone (t.hashTab data)).length :=
  clearList_hashCount (h.gone_le data) h.lt

theorem Sound.bucketClearItem {t : Table} (h : Sound t) (data : Bucket) :
    Sound (t.bucketClearItem data) := by
  obtain ⟨htab, hfreed, hnext⟩ := bucketClearItem_eq t data
  have hperm := buffers_perm (t.hashTab data)
  have hb : (t.bucketClearItem data).buffers = Function.update t.buffers data
      (((t.hashTab data).filterMap HashinfoItem.clear).map HashinfoItem.buffer) := by
    rw [← buffers_update, ← htab]
    rfl
  constructor
  · rw [hb, hfreed, hnext]
    exact h.stocked.release data.isLt (hperm.trans ((gone (t.hashTab data)).reverse_perm.symm.append_left _))
  · have hlen := hperm.length_eq
    rw [List.length_append] at hlen
    rw [hb, tally_update data.isLt, h.hashCount_sweep, h.count, Table.buffers, hlen]
    push_cast
    ring
  · rw [h.hashCount_sweep]
    have := h.bound
    omega

theorem Sound.step {s t : Table} {op : Op} (h : Sound s) (hs : step s op = .ok t) : Sound t := by
  cases change_of_step hs with
  | refused => exact h
  | added hroom => exact h.insert hroom
  | hit => exact h.getHashItem _
  | swept => exact h.bucketClearItem _
  | idle => exact h
  | logged => exact h.logged _ _

def HashinfoItem.Ticks (cp : HashinfoItem) : Prop := Odd cp.refcnt ∧ 1 ≤ cp.refcnt ∧ cp.refcnt < 2 ^ 31

theorem dies_iff {cp : HashinfoItem} (h : cp.Ticks) : cp.dies = true ↔ cp.refcnt = 1 := by
  obtain ⟨-, hl, hu⟩ := h
  rw [HashinfoItem.dies, wrapInt_of_range (by omega) (by omega), decide_eq_true_iff]
  omega

theorem clear_of_ticks {cp : HashinfoItem} (h : cp.Ticks) (h1 : cp.refcnt ≠ 1) :
    cp.clear = some { cp with refcnt := cp.refcnt - 2 } := by
  obtain ⟨hodd, hl, hu⟩ := h
  have hdies : cp.dies = false := by
    rw [Bool.eq_false_iff, ne_eq, dies_iff ⟨hodd, hl, hu⟩]
    exact h1
  have hwrap : wrapInt (wrapInt (cp.refcnt - 1) - 1) = cp.refcnt - 2 := by
    rw [wrapInt_of_range (x := cp.refcnt - 1) (by omega) (by omega),
      wrapInt_of_range (by omega) (by omega)]
    omega
  rw [clear_of_not_dies hdies, hwrap]

theorem HashinfoItem.Ticks.clear {cp cp' : HashinfoItem} (h : cp.Ticks) (hc : cp.clear = some cp') :
    cp'.Ticks := by
  by_cases h1 : cp.refcnt = 1
  · rw [clear_of_dies ((dies_iff h).mpr h1)] at hc
    cases hc
  · rw [clear_of_ticks h h1] at hc
    cases hc
    obtain ⟨⟨m, hm⟩, hl, hu⟩ := h
    refine ⟨⟨m - 1, ?_⟩, ?_, ?_⟩
    · change cp.refcnt - 2 = _
      omega
    · change 1 ≤ cp.refcnt - 2
      omega
    · change cp.refcnt - 2 < _
      omega

theorem HashinfoItem.Ticks.hit {cp : HashinfoItem} (h : cp.Ticks)
    (hsmall : cp.refcnt + itemCiteFind < 2 ^ 31) : cp.hit.Ticks := by
  obtain ⟨⟨m, hm⟩, hl, hu⟩ := h
  rw [itemCiteFind] at hsmall
  have hr : cp.hit.refcnt = cp.refcnt + 6 := wrapInt_of_range (by rw [itemCiteFind]; omega) hsmall
  rw [HashinfoItem.Ticks, hr]
  exact ⟨⟨m + 3, by omega⟩, by omega, hsmall⟩

theorem ticks_newItem (t : Table) (info : Digest) (value : Chunk) : (t.newItem info value).Ticks := by
  have hr : (t.newItem info value).refcnt = 7 := (by decide : wrapInt (itemCiteAdd + 1) = 7)
  rw [HashinfoItem.Ticks, hr]
  exact ⟨⟨3, rfl⟩, by decide, by decide⟩

theorem mem_hitFirst {info : Digest} {l : List HashinfoItem} {cp : HashinfoItem}
    (h : cp ∈ hitFirst info l) :
    cp ∈ l ∨ ∃ cp', l.find? (·.sha1 = info) = some cp' ∧ cp = cp'.hit := by
  induction l with
  | nil => cases h
  | cons c l ih =>
    rw [hitFirst] at h
    by_cases hs : c.sha1 = info
    · rw [if_pos hs] at h
      rcases List.mem_cons.mp h with rfl | h
      · exact .inr ⟨c, List.find?_cons_of_pos (by simpa using hs), rfl⟩
      · exact .inl (List.mem_cons_of_mem _ h)
    · rw [if_neg hs] at h
      rw [List.find?_cons_of_neg (by simpa using hs)]
      rcases List.mem_cons.mp h with rfl | h
      · exact .inl List.mem_cons_self
      · exact (ih h).imp_left (List.mem_cons_of_mem _)

theorem mem_hitFirst_of_mem {info : Digest} {l : List HashinfoItem} {cp : HashinfoItem} (h : cp ∈ l)
    (hne : l.find? (·.sha1 = info) ≠ some cp) : cp ∈ hitFirst info l := by
  induction l with
  | nil => cases h
  | cons c l ih =>
    rw [hitFirst]
    by_cases hs : c.sha1 = info
    · rw [List.find?_cons_of_pos (by simpa using hs)] at hne
      rw [if_pos hs]
      rcases List.mem_cons.mp h with rfl | h
      · exact absurd rfl hne
      · exact List.mem_cons_of_mem _ h
    · rw [List.find?_cons_of_neg (by simpa using hs)] at hne
      rw [if_neg hs]
      rcases List.mem_cons.mp h with rfl | h
      · exact List.mem_cons_self
      · exact List.mem_cons_of_mem _ (ih h hne)

def small (t : Table) : Op → Prop
  | .getHashItem info => ∀ cp, t.found info = some cp → cp.refcnt + itemCiteFind < 2 ^ 31
  | _ => True

def Ticking (t : Table) : Prop := ∀ b, ∀ cp ∈ t.hashTab b, cp.Ticks

theorem Ticking.step {s t : Table} {op : Op} (h : Ticking s) (hsmall : small s op)
    (hs : step s op = .ok t) : Ticking t := by
  cases change_of_step hs with
  | refused => exact h
  | added =>
    apply forall_mem_update h
    intro cp hcp
    rcases List.mem_cons.mp hcp with rfl | hcp
    · exact ticks_newItem s _ _
    · exact h _ cp hcp
  | hit =>
    apply forall_mem_update h
    intro cp hcp
    rcases mem_hitFirst hcp with hcp | ⟨cp', hfound, rfl⟩
    · exact h _ cp hcp
    · exact (h _ cp' (List.mem_of_find?_eq_some hfound)).hit (hsmall cp' hfound)
  | swept =>
    rw [Ticking, (bucketClearItem_eq s _).1]
    apply forall_mem_update h
    intro cp hcp
    obtain ⟨cp', hmem, hclear⟩ := List.mem_filterMap.mp hcp
    exact (h _ cp' hmem).clear hclear
  | idle => exact h
  | logged =>
    apply forall_mem_update h
    intro cp hcp
    obtain ⟨cp', hmem, rfl⟩ := List.mem_map.mp hcp
    exact h _ cp' hmem

def spares (buffer : Nat) (t : Table) : Op → Prop
  | .getHashItem info => ∀ cp, t.found info = some cp → cp.buffer ≠ buffer
  | _ => True

def Op.sweeps (b : Nat) : Op → Bool
  | .bucketClearItem data => data.val = b
  | _ => false

structure Counted (buffer b : Nat) (r : Int) (k : Nat) (t : Table) : Prop where
  kept : (k : Int) < (r + 1) / 2 → ∃ cp ∈ t.hashTab b, cp.buffer = buffer ∧ cp.refcnt = r - 2 * k
  freed : (r + 1) / 2 ≤ (k : Int) → buffer ∈ t.freed

section Countdown

variable {buffer b k : Nat} {r : Int} {s t : Table} {op : Op}

theorem Counted.congr (h : Counted buffer b r k s)
    (hmem : ∀ cp ∈ s.hashTab b, cp.buffer = buffer →
      ∃ cp' ∈ t.hashTab b, cp'.buffer = cp.buffer ∧ cp'.refcnt = cp.refcnt)
    (hfreed : ∀ p ∈ s.freed, p ∈ t.freed) : Counted buffer b r k t where
  kept hk := by
    obtain ⟨cp, hcp, hbuf, hr⟩ := h.kept hk
    obtain ⟨cp', hcp', hbuf', hr'⟩ := hmem cp hcp hbuf
    exact ⟨cp', hcp', hbuf'.trans hbuf, hr'.trans hr⟩
  freed hk := hfreed _ (h.freed hk)

theorem Counted.sweep (h : Counted buffer b r k s) (hodd : Odd r) (hu : r < 2 ^ 31) :
    Counted buffer b r (k + 1) (s.bucketClearItem b) := by
  obtain ⟨htab, hfreed, -⟩ := bucketClearItem_eq s b
  obtain ⟨m, hm⟩ := hodd
  have hhalf : (r + 1) / 2 = m + 1 := by omega
  constructor
  · intro hk
    obtain ⟨cp, hcp, hbuf, hr⟩ := h.kept (by omega)
    have hticks : cp.Ticks := ⟨⟨m - k, by omega⟩, by omega, by omega⟩
    refine ⟨{ cp with refcnt := cp.refcnt - 2 }, ?_, hbuf, ?_⟩
    · rw [htab, Function.update_self]
      exact List.mem_filterMap.mpr ⟨cp, hcp, clear_of_ticks hticks (by omega)⟩
    · change cp.refcnt - 2 = _
      omega
  · intro hk
    rw [hfreed]
    by_cases hlast : (k : Int) < (r + 1) / 2
    · obtain ⟨cp, hcp, hbuf, hr⟩ := h.kept hlast
      have hticks : cp.Ticks := ⟨⟨m - k, by omega⟩, by omega, by omega⟩
      have hgone : buffer ∈ gone (s.hashTab b) := by
        rw [← hbuf]
        exact List.mem_map_of_mem (List.mem_filter.mpr ⟨hcp, (dies_iff hticks).mpr (by omega)⟩)
      exact List.mem_append_left _ (List.mem_reverse.mpr hgone)
    · exact List.mem_append_right _ (h.freed (by omega))

theorem mem_update_of_ne {f : Nat → List HashinfoItem} {i : Nat} {l : List HashinfoItem} {cp : HashinfoItem}
    (hcp : cp ∈ f b) (hi : b = i → ∃ cp' ∈ l, cp'.buffer = cp.buffer ∧ cp'.refcnt = cp.refcnt) :
    ∃ cp' ∈ Function.update f i l b, cp'.buffer = cp.buffer ∧ cp'.refcnt = cp.refcnt := by
  by_cases e : b = i
  · rw [e, Function.update_self]
    exact hi e
  · rw [Function.update_of_ne e]
    exact ⟨cp, hcp, rfl, rfl⟩

theorem Counted.step (h : Counted buffer b r k s) (hodd : Odd r) (hu : r < 2 ^ 31)
    (hspare : spares buffer s op) (hs : step s op = .ok t) :
    Counted buffer b r (k + if op.sweeps b then 1 else 0) t := by
  cases change_of_step hs with
  | refused => exact h
  | added =>
    refine h.congr (fun cp hcp _ => mem_update_of_ne hcp ?_) (fun _ hp => hp)
    rintro rfl
    exact ⟨cp, List.mem_cons_of_mem _ hcp, rfl, rfl⟩
  | hit =>
    refine h.congr (fun cp hcp hbuf => mem_update_of_ne hcp ?_) (fun _ hp => hp)
    rintro rfl
    exact ⟨cp, mem_hitFirst_of_mem hcp (fun hf => hspare cp hf hbuf), rfl, rfl⟩
  | @swept data =>
    by_cases e : data.val = b
    · rw [Op.sweeps, if_pos (by simpa using e), e]
      exact h.sweep hodd hu
    · rw [Op.sweeps, if_neg (by simpa using e)]
      obtain ⟨htab, hfreed, -⟩ := bucketClearItem_eq s data
      refine h.congr (fun cp hcp _ => ?_) (fun p hp => ?_)
      · rw [htab]
        exact mem_update_of_ne hcp (fun e' => absurd e'.symm e)
      · rw [hfreed]
        exact List.mem_append_right _ hp
  | idle => exact h
  | logged =>
    refine h.congr (fun cp hcp _ => mem_update_of_ne hcp ?_) (fun _ hp => hp)
    rintro rfl
    exact ⟨cp.settle, List.mem_map_of_mem hcp, rfl, rfl⟩

theorem Counted.run {as : List Op} (hodd : Odd r) (hu : r < 2 ^ 31)
    (hrun : Run CacheVerify.step (spares buffer) s as t) (h : Counted buffer b r k s) :
    Counted buffer b r (k + as.countP (Op.sweeps b)) t := by
  induction hrun generalizing k with
  | nil => exact h
  | cons hspare hs _ ih =>
    have := ih (h.step hodd hu hspare hs)
    rwa [add_assoc, add_comm (ite _ _ _), ← List.countP_cons] at this

end Countdown

theorem Sound.run {C : Table → Op → Prop} {s t : Table} {as : List Op} (h : Sound s)
    (hrun : Run CacheVerify.step C s as t) : Sound t :=
  hrun.invariant (fun _ _ _ _ hs h => h.step hs) h

theorem ticking_run {s : Table} {as : List Op} (hrun : Run step small Table.init as s) : Ticking s :=
  hrun.invariant (fun _ _ _ hsmall hs h => h.step hsmall hs) (fun _ _ hcp => absurd hcp List.not_mem_nil)

/-- As long as no hit overflows a count, every count is odd and positive, and an item that is
not hit any more goes with the sweep that its count foretells.  A sweep takes one off
`hash_count` for each buffer that it frees. -/
theorem refcnt_countdown {s : Table} {as : List Op} (h : Run step small Table.init as s) :
    ∀ b, ∀ cp ∈ s.hashTab b, Odd cp.refcnt ∧ 1 ≤ cp.refcnt ∧
      ∀ bs t, Run step (spares cp.buffer) s bs t →
        ((bs.countP (Op.sweeps b) : Int) < (cp.refcnt + 1) / 2 →
          (∃ cp' ∈ t.hashTab b, cp'.buffer = cp.buffer ∧
            cp'.refcnt = cp.refcnt - 2 * bs.countP (Op.sweeps b)) ∧ t.freed.count cp.buffer = 0) ∧
        ((cp.refcnt + 1) / 2 ≤ (bs.countP (Op.sweeps b) : Int) →
          (∀ i, ∀ cp' ∈ t.hashTab i, cp'.buffer ≠ cp.buffer) ∧ t.freed.count cp.buffer = 1) ∧
        ∀ data t', step t (.bucketClearItem data) = .ok t' →
          ∃ gone : List Nat, gone.Nodup ∧ t'.freed = gone ++ t.freed ∧
            t'.hashCount = t.hashCount - gone.length := by
  intro b cp hcp
  obtain ⟨hodd, hl, hu⟩ := ticking_run h b cp hcp
  refine ⟨hodd, hl, fun bs t hrun => ?_⟩
  have hsound := (sound_init.run h).run hrun
  have hstart : Counted cp.buffer b cp.refcnt 0 s :=
    ⟨fun _ => ⟨cp, hcp, rfl, by simp⟩, fun hk => by omega⟩
  have hend := hstart.run hodd hu hrun
  rw [Nat.zero_add] at hend
  refine ⟨fun hk => ?_, fun hk => ?_, ?_⟩
  · obtain ⟨cp', hcp', hbuf, hr⟩ := hend.kept hk
    have hmem : cp.buffer ∈ t.buffers b := hbuf ▸ List.mem_map_of_mem hcp'
    exact ⟨⟨cp', hcp', hbuf, hr⟩, List.count_eq_zero_of_not_mem (hsound.stocked.not_freed hmem)⟩
  · obtain ⟨hcount, hnone⟩ := hsound.stocked.freed_once (hend.freed hk)
    exact ⟨fun i cp' hcp' e => hnone i (e ▸ List.mem_map_of_mem hcp'), hcount⟩
  · rintro data t' ht'
    cases ht'
    refine ⟨(gone (t.hashTab data)).reverse, ?_, (bucketClearItem_eq t data).2.1, ?_⟩
    · rw [List.nodup_reverse]
      exact (hsound.stocked.nodup_cell data).sublist (List.filter_sublist.map _)
    · rw [List.length_reverse]
      exact hsound.hashCount_sweep data

def sampleTable : Table := Table.init.insert (Table.init.newItem sampleItem.sha1 sampleItem.data)

theorem step_sample :
    step Table.init (.hashNewItem sampleItem.sha1 sampleItem.data true true) = .ok sampleTable := by
  rw [step, Table.hashNewItem, if_neg (by decide), if_neg (by decide), if_neg (by decide), sampleTable]

theorem insert_bucket (t : Table) (cp : HashinfoItem) :
    (t.insert cp).hashTab (bkt cp.sha1) = cp :: t.hashTab (bkt cp.sha1) := by
  simp [Table.insert]

theorem sampleTable_bucket : sampleTable.hashTab (bkt sampleItem.sha1) =
    [Table.init.newItem sampleItem.sha1 sampleItem.data] :=
  insert_bucket Table.init (Table.init.newItem sampleItem.sha1 sampleItem.data)

def sampleBucket : Bucket := ⟨bkt sampleItem.sha1, bkt_lt _⟩

theorem refcnt_countdown_sample :
    ((((sampleTable.bucketClearItem sampleBucket).bucketClearItem sampleBucket).bucketClearItem
      sampleBucket).bucketClearItem sampleBucket).freed.count 0 = 1 := by
  have hrun : Run step (spares 0) sampleTable (List.replicate 4 (.bucketClearItem sampleBucket)) _ :=
    .cons trivial rfl (.cons trivial rfl (.cons trivial rfl (.cons trivial rfl (.nil _))))
  have hsweeps : (List.replicate 4 (Op.bucketClearItem sampleBucket)).countP
      (Op.sweeps (bkt sampleItem.sha1)) = 4 := by
    simp [Op.sweeps, sampleBucket]
  have hadd : Run step small Table.init [.hashNewItem sampleItem.sha1 sampleItem.data true true]
      sampleTable := .single trivial step_sample
  refine (((refcnt_countdown hadd (bkt sampleItem.sha1)
    (Table.init.newItem sampleItem.sha1 sampleItem.data) ?_).2.2 _ _ hrun).2.1 ?_).2
  · rw [sampleTable_bucket]
    exact List.mem_singleton_self _
  · rw [hsweeps]
    exact (by decide : (wrapInt (itemCiteAdd + 1) + 1) / 2 ≤ 4)

theorem run_hits {info : Digest} {n : Nat} {t : Table} {cp : HashinfoItem} {r : Int}
    (ht : t.hashTab (bkt info) = [cp]) (hsha : cp.sha1 = info) (hr : cp.refcnt = wrapInt r) :
    ∃ t' cp', Run step (fun _ _ => True) t (List.replicate n (.getHashItem info)) t' ∧
      t'.hashTab (bkt info) = [cp'] ∧ cp'.refcnt = wrapInt (r + 6 * n) := by
  induction n generalizing t cp r with
  | zero => exact ⟨t, cp, .nil _, ht, by simpa using hr⟩
  | succ n ih =>
    have htab : (t.getHashItem info).hashTab (bkt info) = [cp.hit] := by
      simp [Table.getHashItem, ht, hitFirst, hsha]
    have hwrap : cp.hit.refcnt = wrapInt (r + 6) := by
      change wrapInt (cp.refcnt + itemCiteFind) = _
      rw [hr, wrapInt, wrapInt, Int.bmod_add_bmod, itemCiteFind, wrapInt]
    obtain ⟨t', cp', hrun, htab', hr'⟩ := ih htab hsha hwrap
    refine ⟨t', cp', .cons trivial rfl hrun, htab', ?_⟩
    rw [hr']
    congr 1
    push_cast
    ring

theorem refcnt_overflows : ∃ as s b cp, Run step (fun _ _ => True) Table.init as s ∧
    cp ∈ s.hashTab b ∧ cp.refcnt < 0 := by
  obtain ⟨t, cp, hrun, htab, hr⟩ := run_hits (n := 357913941) (r := 7) sampleTable_bucket rfl rfl
  refine ⟨_, t, bkt sampleItem.sha1, cp, .cons trivial step_sample hrun, ?_, ?_⟩
  · rw [htab]
    exact List.mem_singleton_self _
  · rw [hr]
    decide

end Wspack.CacheVerify
