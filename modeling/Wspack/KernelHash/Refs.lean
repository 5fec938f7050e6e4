import Wspack.KernelHash.Table
import Mathlib.Data.List.Perm.Basic

namespace Wspack.KernelHash

open Function (update)
open Lib

def Hand.carries (p : Nat → Nat → Bool) : Hand → Int
  | .found item hold _ => if p item hold then 1 else 0
  | _ => 0

/-- The holds selected by `p`: between `get_hash_item` and the decision of `hand_hash` on
some CPU, or queued on a read list. -/
def outstanding (cfg : Config) (p : Nat → Nat → Bool) (hand : Nat → Hand)
    (readList : List ReadSkb) : Int :=
  tally cfg.ncpu (Hand.carries p) hand + readList.countP (fun r => p r.item r.hold)

def holdsOf (cfg : Config) (s : State) (id : Nat) : Int :=
  outstanding cfg (fun i _ => i == id) s.hand s.readList

def timesHeld (cfg : Config) (s : State) (hold : Nat) : Int :=
  outstanding cfg (fun _ k => k == hold) s.hand s.readList

structure RefsOk (cfg : Config) (items : Nat → Option HashinfoItem) (nextItem : Nat)
    (hand : Nat → Hand) (readList : List ReadSkb) (nextHold : Nat) (released : List Nat) : Prop where
  offline : ∀ c, cfg.ncpu ≤ c → hand c = .idle
  share : ∀ id cp, items id = some cp →
    cp.shareRef = wrapInt (1 + outstanding cfg (fun i _ => i == id) hand readList)
  fresh : ∀ id, nextItem ≤ id → outstanding cfg (fun i _ => i == id) hand readList = 0
  once : ∀ hold, outstanding cfg (fun _ k => k == hold) hand readList + released.count hold =
    if hold < nextHold then 1 else 0
  online : ∀ id cp, items id = some cp → cp.cpuid < cfg.ncpu

def State.RefsOk (cfg : Config) (s : State) : Prop :=
  KernelHash.RefsOk cfg s.items s.nextItem s.hand s.readList s.nextHold s.released

section
variable {cfg : Config} {p : Nat → Nat → Bool} {hand : Nat → Hand} {readList : List ReadSkb}
  {c i : Nat} {r : ReadSkb}

theorem Hand.carries_nonneg (p : Nat → Nat → Bool) (h : Hand) : 0 ≤ h.carries p := by
  cases h with
  | found => simp only [Hand.carries]; split <;> decide
  | _ => exact le_rfl

theorem outstanding_nonneg (cfg : Config) (p : Nat → Nat → Bool) (hand : Nat → Hand)
    (readList : List ReadSkb) : 0 ≤ outstanding cfg p hand readList :=
  add_nonneg (tally_nonneg (fun _ _ => Hand.carries_nonneg p _)) (by positivity)

theorem outstanding_hand (hc : c < cfg.ncpu) (h : Hand) :
    outstanding cfg p (update hand c h) readList =
      outstanding cfg p hand readList - (hand c).carries p + h.carries p := by
  unfold outstanding
  rw [tally_update hc]
  omega

theorem outstanding_cons :
    outstanding cfg p hand (r :: readList) =
      outstanding cfg p hand readList + if p r.item r.hold then 1 else 0 := by
  unfold outstanding
  rw [List.countP_cons]
  push_cast
  omega

theorem outstanding_eraseIdx (h : readList[i]? = some r) :
    outstanding cfg p hand (readList.eraseIdx i) =
      outstanding cfg p hand readList - if p r.item r.hold then 1 else 0 := by
  obtain ⟨hi, rfl⟩ := List.getElem?_eq_some_iff.mp h
  have hperm := (List.getElem_cons_eraseIdx_perm hi).countP_eq (fun r => p r.item r.hold)
  have hcons := @outstanding_cons cfg p hand (readList.eraseIdx i) readList[i]
  unfold outstanding at hcons ⊢
  rw [hperm] at hcons
  omega

theorem outstanding_found {id hold len : Nat} (hc : c < cfg.ncpu) (hh : hand c = .idle) :
    outstanding cfg p (update hand c (.found id hold len)) readList =
      outstanding cfg p hand readList + if p id hold then 1 else 0 := by
  rw [outstanding_hand hc, hh]
  simp only [Hand.carries, sub_zero]

theorem outstanding_released {id hold len : Nat} (hc : c < cfg.ncpu) (hh : hand c = .found id hold len) :
    outstanding cfg p (update hand c .idle) readList =
      outstanding cfg p hand readList - if p id hold then 1 else 0 := by
  rw [outstanding_hand hc, hh]
  simp only [Hand.carries, add_zero]

theorem outstanding_queued {id hold len cpu : Nat} (hc : c < cfg.ncpu) (hh : hand c = .found id hold len) :
    outstanding cfg p (update hand c .idle) (⟨id, cpu, hold⟩ :: readList) =
      outstanding cfg p hand readList := by
  rw [outstanding_cons, outstanding_released hc hh, sub_add_cancel]

theorem outstanding_rehand {hd : Hand} (hc : c < cfg.ncpu) (h0 : ∀ p, (hand c).carries p = 0)
    (h1 : ∀ p, hd.carries p = 0) :
    outstanding cfg p (update hand c hd) readList = outstanding cfg p hand readList := by
  rw [outstanding_hand hc, h0, h1, sub_zero, add_zero]

theorem carries_le_outstanding (hc : c < cfg.ncpu) :
    (hand c).carries p ≤ outstanding cfg p hand readList := by
  have h := @le_tally _ cfg.ncpu c (Hand.carries p) hand (fun _ _ => Hand.carries_nonneg p _) hc
  unfold outstanding
  omega

theorem queued_le_outstanding (h : r ∈ readList) (hp : p r.item r.hold = true) :
    1 ≤ outstanding cfg p hand readList := by
  have ht := @tally_nonneg _ cfg.ncpu (Hand.carries p) hand (fun _ _ => Hand.carries_nonneg p _)
  have hcount : 0 < readList.countP (fun r => p r.item r.hold) := List.countP_pos_iff.mpr ⟨r, h, hp⟩
  unfold outstanding
  omega

end

section
variable {cfg : Config} {items : Nat → Option HashinfoItem} {hand : Nat → Hand}
  {readList : List ReadSkb} {nextItem nextHold : Nat} {released : List Nat} {c id : Nat}
  {cp cp' : HashinfoItem}

theorem RefsOk.lt_ncpu (h : RefsOk cfg items nextItem hand readList nextHold released)
    (hne : hand c ≠ .idle) : c < cfg.ncpu := by
  by_contra hn
  exact hne (h.offline c (by omega))

theorem RefsOk.offline_update (h : RefsOk cfg items nextItem hand readList nextHold released)
    (hc : c < cfg.ncpu) (hd : Hand) : ∀ c', cfg.ncpu ≤ c' → update hand c hd c' = .idle := by
  intro c' hc'
  rw [Function.update_of_ne (by omega), h.offline c' hc']

theorem RefsOk.online_update (h : RefsOk cfg items nextItem hand readList nextHold released)
    (hc : cp'.cpuid < cfg.ncpu) :
    ∀ j cj, update items id (some cp') j = some cj → cj.cpuid < cfg.ncpu :=
  forall_update h.online hc

theorem RefsOk.touch (h : RefsOk cfg items nextItem hand readList nextHold released)
    (hi : items id = some cp) (hs : cp'.shareRef = cp.shareRef) (hc : cp'.cpuid < cfg.ncpu) :
    RefsOk cfg (update items id (some cp')) nextItem hand readList nextHold released where
  offline := h.offline
  share := forall_update h.share (hs.trans (h.share id cp hi))
  fresh := h.fresh
  once := h.once
  online := h.online_update hc

theorem RefsOk.rehand {hd : Hand} (h : RefsOk cfg items nextItem hand readList nextHold released)
    (hc : c < cfg.ncpu) (h0 : ∀ p, (hand c).carries p = 0) (h1 : ∀ p, hd.carries p = 0) :
    RefsOk cfg items nextItem (update hand c hd) readList nextHold released where
  offline := h.offline_update hc hd
  share j cj hj := by rw [outstanding_rehand hc h0 h1, h.share j cj hj]
  fresh j hj := by rw [outstanding_rehand hc h0 h1, h.fresh j hj]
  once k := by rw [outstanding_rehand hc h0 h1, h.once k]
  online := h.online

theorem RefsOk.hit {len : Nat} (h : RefsOk cfg items nextItem hand readList nextHold released)
    (hc : c < cfg.ncpu) (hh : hand c = .idle) (hi : items id = some cp) (hlt : id < nextItem) :
    RefsOk cfg (update items id (some cp.hit)) nextItem (update hand c (.found id nextHold len)) readList
      (nextHold + 1) released where
  offline := h.offline_update hc _
  share j cj hj := by
    rw [outstanding_found hc hh]
    rcases update_eq_some hj with ⟨rfl, he⟩ | ⟨hne, hj⟩
    · cases he
      rw [beq_self_eq_true, if_pos rfl, ← add_assoc, ← wrapInt_add_wrapInt, ← h.share j cp hi]
      rfl
    · rw [beq_false_of_ne hne.symm, if_neg Bool.false_ne_true, add_zero, h.share j cj hj]
  fresh j hj := by
    have hne : id ≠ j := by omega
    rw [outstanding_found hc hh, h.fresh j hj, beq_false_of_ne hne]
    rfl
  once k := by
    have hk := h.once k
    rw [outstanding_found hc hh]
    simp only [beq_iff_eq]
    split_ifs at hk ⊢ <;> omega
  online := h.online_update (h.online id cp hi)

theorem RefsOk.insert (h : RefsOk cfg items nextItem hand readList nextHold released)
    (hs : cp.shareRef = 1) (hc : cp.cpuid < cfg.ncpu) :
    RefsOk cfg (update items nextItem (some cp)) (nextItem + 1) hand readList nextHold released where
  offline := h.offline
  share := by
    refine forall_update h.share ?_
    rw [hs, h.fresh nextItem le_rfl]
    decide
  fresh j hj := h.fresh j (by omega)
  once := h.once
  online := h.online_update hc

theorem RefsOk.drop {hand' : Nat → Hand} {readList' : List ReadSkb} {hold : Nat}
    (h : RefsOk cfg items nextItem hand readList nextHold released) (hi : items id = some cp)
    (hoff : ∀ c, cfg.ncpu ≤ c → hand' c = .idle)
    (hout : ∀ p, outstanding cfg p hand' readList' =
      outstanding cfg p hand readList - if p id hold then 1 else 0)
    (hlt : id < nextItem) (hs : cp'.shareRef = wrapInt (cp.shareRef - 1)) (hc : cp'.cpuid = cp.cpuid) :
    RefsOk cfg (update items id (some cp')) nextItem hand' readList' nextHold (hold :: released) where
  offline := hoff
  share j cj hj := by
    rw [hout]
    rcases update_eq_some hj with ⟨rfl, he⟩ | ⟨hne, hj⟩
    · cases he
      rw [beq_self_eq_true, if_pos rfl, ← add_sub_assoc, ← wrapInt_sub_wrapInt, ← h.share j cp hi, hs]
    · rw [beq_false_of_ne hne.symm, if_neg Bool.false_ne_true, sub_zero, h.share j cj hj]
  fresh j hj := by
    have hne : id ≠ j := by omega
    rw [hout, h.fresh j hj, beq_false_of_ne hne]
    rfl
  once k := by
    have hk := h.once k
    rw [hout, List.count_cons]
    push_cast
    simp only [beq_iff_eq] at hk ⊢
    split_ifs at hk ⊢ <;> omega
  online := h.online_update (hc ▸ h.online id cp hi)

theorem RefsOk.queue {hold len cpu : Nat} (h : RefsOk cfg items nextItem hand readList nextHold released)
    (hh : hand c = .found id hold len) :
    RefsOk cfg items nextItem (update hand c .idle) (⟨id, cpu, hold⟩ :: readList) nextHold released where
  offline := h.offline_update (h.lt_ncpu (by simp [hh])) _
  share j cj hj := by rw [outstanding_queued (h.lt_ncpu (by simp [hh])) hh, h.share j cj hj]
  fresh j hj := by rw [outstanding_queued (h.lt_ncpu (by simp [hh])) hh, h.fresh j hj]
  once k := by rw [outstanding_queued (h.lt_ncpu (by simp [hh])) hh, h.once k]
  online := h.online

theorem RefsOk.delete (h : RefsOk cfg items nextItem hand readList nextHold released) :
    RefsOk cfg (update items id none) nextItem hand readList nextHold released where
  offline := h.offline
  share j cj hj := h.share j cj (of_update_none hj)
  fresh := h.fresh
  once := h.once
  online j cj hj := h.online j cj (of_update_none hj)

theorem RefsOk.found_pos {hold len : Nat} (h : RefsOk cfg items nextItem hand readList nextHold released)
    (hh : hand c = .found id hold len) : 0 < outstanding cfg (fun i _ => i == id) hand readList := by
  have hle := @carries_le_outstanding cfg (fun i _ => i == id) hand readList c
    (h.lt_ncpu (by simp [hh]))
  simp only [hh, Hand.carries, beq_self_eq_true, if_true] at hle
  omega

theorem queued_pos {r : ReadSkb} (hr : r ∈ readList) :
    0 < outstanding cfg (fun i _ => i == r.item) hand readList := by
  have hle := @queued_le_outstanding cfg (fun i _ => i == r.item) hand readList r hr (by simp)
  omega

end

variable {cfg : Config} {s t : State} {a : Act} {b c id : Nat} {cp : HashinfoItem} {w : WrFile}

theorem HashinfoItem.expired_iff : cp.expired = true ↔ cp.shareRef = 1 ∧ cp.refcnt ≤ 1 := by
  simp [HashinfoItem.expired]

theorem State.RefsOk.change (hx : TableOk cfg s) (h : s.RefsOk cfg) (hch : Change cfg a s t) :
    t.RefsOk cfg := by
  have hone : (-1 : Int) < cfg.ncpu := by omega
  have htwo : (-2 : Int) < cfg.ncpu := by omega
  cases hch with
  | miss hc hh => exact RefsOk.rehand h hc (by simp [hh, Hand.carries]) (by simp [Hand.carries])
  | hit _ hc hh hl =>
    have hi := (lookup_some hl).1
    exact RefsOk.hit h hc hh hi (hx.indexed.lt hi)
  | refuse _ hh =>
    exact RefsOk.rehand h (RefsOk.lt_ncpu h (by simp [hh])) (by simp [hh, Hand.carries])
      (by simp [Hand.carries])
  | insert _ hh =>
    exact RefsOk.insert (RefsOk.rehand h (RefsOk.lt_ncpu h (by simp [hh]))
      (by simp [hh, Hand.carries]) (by simp [Hand.carries])) rfl hone
  | @release _ c _ _ _ _ _ hh hi =>
    have hc : c < cfg.ncpu := RefsOk.lt_ncpu h (by simp [hh])
    exact RefsOk.drop h hi (RefsOk.offline_update h hc _) (fun _ => outstanding_released hc hh)
      (hx.indexed.lt hi) rfl rfl
  | queue _ hh => exact RefsOk.queue h hh
  | read _ hr hi =>
    exact RefsOk.drop h hi (RefsOk.offline h) (fun _ => outstanding_eraseIdx hr) (hx.indexed.lt hi)
      (by simp [HashinfoItem.release]) (by simp [HashinfoItem.release])
  | delete => exact RefsOk.delete h
  | age _ _ _ hi =>
    have ho := RefsOk.online h _ _ hi
    exact RefsOk.touch h hi rfl ho
  | mark _ _ _ hi => exact RefsOk.touch h hi rfl htwo
  | unmark _ _ _ hi => exact RefsOk.touch h hi rfl hone
  | place hw _ _ hi => exact RefsOk.touch h hi rfl (Int.ofNat_lt.mpr (hx.walks.online _ _ hw))
  | commit _ _ _ hi _ hf =>
    obtain ⟨_, _, rfl, _⟩ := freeDataMemory_ok hf
    have ho := RefsOk.online h _ _ hi
    exact RefsOk.touch h hi rfl ho
  | _ => exact h

theorem refsOk_init (file : Nat → Nat → UInt8) : (init file).RefsOk cfg where
  offline _ _ := rfl
  share _ _ hi := by cases hi
  fresh _ _ := by simp [outstanding, tally, init, Hand.carries]
  once hold := by simp [outstanding, tally, init, Hand.carries]
  online := by simp [init]

/-- `get_hash_item` finds an item whose `share_ref` has room for one more hold. -/
def holdsFit (cfg : Config) (s : State) : Act → Bool
  | .getHashItem _ _ dst => (lookup s dst).all (fun (id, _) => decide (holdsOf cfg s id + 2 < 2 ^ 31))
  | _ => true

structure State.Protected (cfg : Config) (s : State) : Prop where
  few : ∀ id, holdsOf cfg s id + 1 < 2 ^ 31
  live : ∀ id, s.items id = none → holdsOf cfg s id = 0

theorem State.Protected.share (h : s.Protected cfg) (hr : s.RefsOk cfg) (hi : s.items id = some cp) :
    cp.shareRef = 1 + holdsOf cfg s id := by
  have hfew := h.few id
  have hpos := outstanding_nonneg cfg (fun i _ => i == id) s.hand s.readList
  rw [RefsOk.share hr id cp hi]
  unfold holdsOf at hfew ⊢
  exact wrapInt_of_range (by omega) (by omega)

theorem State.Protected.exists_item (h : s.Protected cfg) (hpos : 0 < holdsOf cfg s id) :
    ∃ cp, s.items id = some cp := by
  cases hi : s.items id with
  | none =>
    rw [h.live id hi] at hpos
    exact absurd hpos (lt_irrefl 0)
  | some cp => exact ⟨cp, rfl⟩

theorem State.Protected.congr (h : s.Protected cfg)
    (hle : ∀ id, holdsOf cfg t id ≤ holdsOf cfg s id)
    (hlive : ∀ id, t.items id = none → s.items id = none ∨ holdsOf cfg t id = 0) : t.Protected cfg where
  few id := by
    have hfew := h.few id
    have := hle id
    omega
  live id hi := by
    rcases hlive id hi with hn | h0
    · have hnn := outstanding_nonneg cfg (fun i _ => i == id) t.hand t.readList
      have := hle id
      rw [h.live id hn] at this
      unfold holdsOf at this ⊢
      omega
    · exact h0

theorem none_of_update {items : Nat → Option HashinfoItem} {o : HashinfoItem} {j : Nat}
    (h : update items id (some o) j = none) : items j = none := by
  by_cases e : j = id
  · rw [e, Function.update_self] at h
    cases h
  · rwa [Function.update_of_ne e] at h

theorem State.Protected.change (hr : s.RefsOk cfg) (hC : holdsFit cfg s a = true)
    (h : s.Protected cfg) (hch : Change cfg a s t) : t.Protected cfg := by
  cases hch with
  | miss hc hh =>
    exact h.congr (fun _ => (outstanding_rehand hc (by simp [hh, Hand.carries])
      (by simp [Hand.carries])).le) (fun _ => .inl)
  | @hit _ c src dst id cp _ hc hh hl =>
    have hroom : holdsOf cfg s id + 2 < 2 ^ 31 := by simpa [holdsFit, hl] using hC
    have hheld : ∀ j, holdsOf cfg { s with
        items := update s.items id (some cp.hit)
        hand := update s.hand c (.found id s.nextHold src.length) } j =
          holdsOf cfg s j + if id == j then 1 else 0 := fun j => outstanding_found hc hh
    refine ⟨fun j => ?_, fun j hj => ?_⟩
    · have hfew := h.few j
      have hj := hheld j
      by_cases e : id = j
      · subst e
        rw [beq_self_eq_true, if_pos rfl] at hj
        exact lt_of_le_of_lt (add_le_add_left hj.le 1) (by omega)
      · rw [beq_false_of_ne e, if_neg Bool.false_ne_true, add_zero] at hj
        exact lt_of_le_of_lt (add_le_add_left hj.le 1) hfew
    · have e : id ≠ j := by
        rintro rfl
        simp at hj
      refine (hheld j).trans ?_
      rw [beq_false_of_ne e, if_neg Bool.false_ne_true, add_zero, h.live j (none_of_update hj)]
  | refuse _ hh =>
    exact h.congr (fun _ => (outstanding_rehand (RefsOk.lt_ncpu hr (by simp [hh]))
      (by simp [hh, Hand.carries]) (by simp [Hand.carries])).le) (fun _ => .inl)
  | insert _ hh =>
    exact h.congr (fun _ => (outstanding_rehand (RefsOk.lt_ncpu hr (by simp [hh]))
      (by simp [hh, Hand.carries]) (by simp [Hand.carries])).le) (fun _ hj => .inl (none_of_update hj))
  | release _ hh =>
    refine h.congr (fun j => (outstanding_released (RefsOk.lt_ncpu hr (by simp [hh])) hh).le.trans ?_)
      (fun _ hj => .inl (none_of_update hj))
    exact sub_le_self _ (by split <;> decide)
  | queue _ hh =>
    exact h.congr (fun _ => (outstanding_queued (RefsOk.lt_ncpu hr (by simp [hh])) hh).le) (fun _ => .inl)
  | read _ hq =>
    refine h.congr (fun j => (outstanding_eraseIdx hq).le.trans ?_)
      (fun _ hj => .inl (none_of_update hj))
    exact sub_le_self _ (by split <;> decide)
  | @delete _ b id _ _ _ _ _ _ hi he =>
    -- the item that goes has its `share_ref` at 1, and so nobody holds it
    have h0 : holdsOf cfg s id = 0 := by
      have hs := h.share hr hi
      rw [(HashinfoItem.expired_iff.mp he).1] at hs
      omega
    refine h.congr (fun _ => le_rfl) (fun j hj => ?_)
    by_cases e : j = id
    · exact .inr (e ▸ h0)
    · exact .inl ((Function.update_of_ne e _ _).symm.trans hj)
  | age | mark | unmark | place | commit => exact h.congr (fun _ => le_rfl) (fun _ hj => .inl (none_of_update hj))
  | _ => exact h.congr (fun _ => le_rfl) (fun _ => .inl)

theorem protected_init (file : Nat → Nat → UInt8) : (init file).Protected cfg where
  few id := by simp [holdsOf, outstanding, tally, init, Hand.carries]
  live id _ := by simp [holdsOf, outstanding, tally, init, Hand.carries]

theorem Change.sweep_frame (h : Change cfg (.bucketClearItem b) s t) :
    t.hand = s.hand ∧ t.readList = s.readList := by
  cases h <;> exact ⟨rfl, rfl⟩

theorem sweep_frame (hx : TableOk cfg s) (h : step cfg s (.bucketClearItem b) = .ok t) :
    t.hand = s.hand ∧ t.readList = s.readList := by
  rcases chain_of_step hx h with hch | ⟨b', _, hch⟩
  · exact hch.sweep_frame
  · exact invariant_of_chain (P := fun u => u.hand = s.hand ∧ u.readList = s.readList)
      (fun u v huv hu => ⟨huv.sweep_frame.1.trans hu.1, huv.sweep_frame.2.trans hu.2⟩) hch ⟨rfl, rfl⟩

theorem refsOk_of_run {C : State → Act → Prop} {file : Nat → Nat → UInt8} {as : List Act}
    (h : Run (step cfg) C (init file) as s) : TableOk cfg s ∧ s.RefsOk cfg :=
  invariant_of_change (C := fun _ _ => True) (fun _ _ => trivial)
    (fun _ _ _ hx hch _ hr => hr.change hx hch) (h.mono (fun _ _ _ => trivial)) (refsOk_init file)

theorem protected_of_change (hx : TableOk cfg s) (hch : Change cfg a s t) (hC : holdsFit cfg s a = true)
    (h : s.RefsOk cfg ∧ s.Protected cfg) : t.RefsOk cfg ∧ t.Protected cfg :=
  ⟨h.1.change hx hch, h.2.change h.1 hC hch⟩

theorem protected_of_run {file : Nat → Nat → UInt8} {as : List Act}
    (h : Run (step cfg) (fun s a => holdsFit cfg s a = true) (init file) as s) :
    TableOk cfg s ∧ s.RefsOk cfg ∧ s.Protected cfg :=
  invariant_of_change (I := fun s => s.RefsOk cfg ∧ s.Protected cfg) (fun _ _ => rfl)
    (fun _ _ _ hx hch hC h => protected_of_change hx hch hC h) h ⟨refsOk_init file, protected_init file⟩

structure ReferenceSafe (cfg : Config) (s : State) : Prop where
  share_ref : ∀ b, ∀ id ∈ s.hashTab b,
    ∃ cp, s.items id = some cp ∧ cp.shareRef = 1 + holdsOf cfg s id
  not_freed : ∀ b t, step cfg s (.bucketClearItem b) = .ok t →
    ∀ id, 0 < holdsOf cfg s id → s.items id ≠ none ∧ t.items id ≠ none
  released_once : ∀ hold < s.nextHold,
    (timesHeld cfg s hold = 1 ∧ s.released.count hold = 0) ∨
      (timesHeld cfg s hold = 0 ∧ s.released.count hold = 1)
  hand_hash : ∀ c id hold len, s.hand c = .found id hold len →
    ∃ t, step cfg s (.releaseItem c) = .ok t ∧
      (hold ∈ t.released ∨ ∃ cpu, (⟨id, cpu, hold⟩ : ReadSkb) ∈ t.readList)
  read_data : ∀ i r, s.readList[i]? = some r →
    ∃ t, step cfg s (.readData i) = .ok t ∧ r.hold ∈ t.released

theorem State.Protected.releaseItem {hold len : Nat} (h : s.Protected cfg) (hr : s.RefsOk cfg)
    (hh : s.hand c = .found id hold len) :
    ∃ t, step cfg s (.releaseItem c) = .ok t ∧
      (hold ∈ t.released ∨ ∃ cpu, (⟨id, cpu, hold⟩ : ReadSkb) ∈ t.readList) := by
  obtain ⟨cp, hi⟩ := h.exists_item (RefsOk.found_pos hr hh)
  have hcpu := RefsOk.online hr id cp hi
  simp only [step, hh, handFound, hi]
  by_cases hf : cp.flagCache = .readBack
  · rw [if_neg (by simp [hf]), if_neg (by omega)]
    exact ⟨_, rfl, .inr ⟨_, List.mem_cons_self⟩⟩
  · rw [if_pos hf]
    exact ⟨_, rfl, .inl List.mem_cons_self⟩

theorem State.Protected.readData {i : Nat} {r : ReadSkb} (h : s.Protected cfg)
    (hr : s.readList[i]? = some r) :
    ∃ t, step cfg s (.readData i) = .ok t ∧ r.hold ∈ t.released := by
  obtain ⟨cp, hi⟩ := h.exists_item (queued_pos (List.mem_of_getElem? hr))
  simp only [step, KernelHash.readData, hr, hi]
  exact ⟨_, rfl, List.mem_cons_self⟩

theorem State.Protected.not_freed (hx : TableOk cfg s) (hr : s.RefsOk cfg) (h : s.Protected cfg)
    (hst : step cfg s (.bucketClearItem b) = .ok t) (hpos : 0 < holdsOf cfg s id) :
    s.items id ≠ none ∧ t.items id ≠ none := by
  have h' : t.RefsOk cfg ∧ t.Protected cfg := (preserved_by_step (C := fun s a => holdsFit cfg s a = true)
    (I := fun s => s.RefsOk cfg ∧ s.Protected cfg) (fun _ _ => rfl)
    (fun _ _ _ hx hch hC h => protected_of_change hx hch hC h) rfl hst ⟨hx, hr, h⟩).2
  obtain ⟨hh, hl⟩ := sweep_frame hx hst
  have hsame : holdsOf cfg t id = holdsOf cfg s id := by rw [holdsOf, holdsOf, hh, hl]
  obtain ⟨cp, hi⟩ := h.exists_item hpos
  obtain ⟨cp', hi'⟩ := h'.2.exists_item (hsame ▸ hpos)
  simp [hi, hi']

/-- While no item has more than `2 ^ 31 - 2` holds, `share_ref` is one more than their number, sweeps
spare the held items, and each hold is released once. -/
theorem share_ref_counts_holds (cfg : Config) (file : Nat → Nat → UInt8) (as : List Act) (s : State)
    (h : Run (step cfg) (fun s a => holdsFit cfg s a = true) (init file) as s) : ReferenceSafe cfg s := by
  obtain ⟨hx, hr, hp⟩ := protected_of_run h
  refine ⟨fun b id hid => ?_, fun b t hst id hpos => hp.not_freed hx hr hst hpos, fun hold hlt => ?_,
    fun c id hold len hh => hp.releaseItem hr hh, fun i r hi => hp.readData hi⟩
  · obtain ⟨cp, hi, _⟩ := (hx.indexed.mem_iff b id).mp hid
    exact ⟨cp, hi, hp.share hr hi⟩
  · have ho := RefsOk.once hr hold
    have hnn := outstanding_nonneg cfg (fun _ k => k == hold) s.hand s.readList
    rw [if_pos hlt] at ho
    unfold timesHeld
    omega

theorem share_ref_counts_holds_roundTrip :
    ReferenceSafe twoCpus
        (final (step twoCpus) (holdsFit twoCpus) (init (fun _ _ => 0)) roundTrip) ∧
      holdsOf twoCpus (final (step twoCpus) (holdsFit twoCpus) (init (fun _ _ => 0)) roundTrip) 0 = 1 :=
  ⟨share_ref_counts_holds twoCpus _ roundTrip _ (run_final (by decide +kernel)), by decide +kernel⟩

structure Awaited (n : Nat) (s : State) : Prop where
  listed : s.hashTab (bkt digestA) = [0]
  item : ∃ cp, s.items 0 = some cp ∧ cp.sha1 = digestA ∧ cp.flagCache = .readBack ∧
    cp.memStyle = none ∧ cp.cpuid = 0
  idle : s.hand 1 = .idle
  held : holdsOf twoCpus s 0 = n

def metAgain (n : Nat) : List Act := roundTrip ++ (List.replicate n (hitOn 1 chunkA digestA)).flatten

theorem awaited_roundTrip :
    Awaited 1 (final (step twoCpus) (fun _ _ => true) (init (fun _ _ => 0)) roundTrip) where
  listed := by decide +kernel
  item := by
    have hitem : ((final (step twoCpus) (fun _ _ => true) (init (fun _ _ => 0)) roundTrip).items 0).any
        (fun cp => cp.sha1 = digestA ∧ cp.flagCache = .readBack ∧ cp.memStyle = none ∧ cp.cpuid = 0) =
          true := by decide +kernel
    obtain ⟨cp, hi, hcp⟩ := Option.any_eq_true _ _ |>.mp hitem
    exact ⟨cp, hi, by simpa using hcp⟩
  idle := by decide +kernel
  held := by decide +kernel

theorem Awaited.hit {n : Nat} (h : Awaited n s) :
    ∃ t, Run (step twoCpus) (fun _ _ => True) s (hitOn 1 chunkA digestA) t ∧ Awaited (n + 1) t := by
  obtain ⟨cp, hi, hsha, hf, hm, hcpu⟩ := h.item
  have hlookup : lookup s digestA = some (0, cp) := by simp [lookup, h.listed, hi, hsha]
  obtain ⟨u, hu, hulist, huitems, huhand, huread⟩ : ∃ u, step twoCpus s (.getHashItem 1 chunkA digestA) = .ok u ∧
      u.hashTab = s.hashTab ∧ u.items = update s.items 0 (some cp.hit) ∧
      u.hand = update s.hand 1 (.found 0 s.nextHold chunkA.length) ∧ u.readList = s.readList := by
    refine ⟨handGet s 1 chunkA digestA, if_pos ⟨by decide, h.idle⟩, ?_⟩
    simp [handGet, getHashItem, hlookup]
  have huitem : u.items 0 = some cp.hit := by rw [huitems, Function.update_self]
  have hfound : u.hand 1 = .found 0 s.nextHold chunkA.length := by rw [huhand, Function.update_self]
  have hback : cp.hit.flagCache = .readBack := by simp [HashinfoItem.hit, hf]
  obtain ⟨t, ht, htlist, htitems, hthand, htread⟩ : ∃ t, step twoCpus u (.releaseItem 1) = .ok t ∧
      t.hashTab = u.hashTab ∧ t.items = u.items ∧ t.hand = update u.hand 1 .idle ∧
      t.readList = ⟨0, 0, s.nextHold⟩ :: u.readList := by
    have hzero : cp.hit.cpuid = 0 := hcpu
    simp only [step, hfound, handFound, huitem, hback, ne_eq, not_true_eq_false, if_false, hzero]
    exact ⟨_, rfl, rfl, rfl, rfl, rfl⟩
  have hheld : holdsOf twoCpus t 0 = n + 1 := by
    have hstep := @outstanding_queued twoCpus (fun i _ => i == 0) u.hand u.readList 1 0 s.nextHold chunkA.length 0
      (by decide) hfound
    have hstart := @outstanding_found twoCpus (fun i _ => i == 0) s.hand s.readList 1 0 s.nextHold
      chunkA.length (by decide) h.idle
    rw [holdsOf, hthand, htread, hstep, huhand, huread, hstart]
    exact congrArg (· + 1) h.held
  exact ⟨t, .cons trivial hu (.single trivial ht), by rw [htlist, hulist, h.listed],
    ⟨cp.hit, by rw [htitems, huitem], hsha, hback, hm, hcpu⟩, by rw [hthand, Function.update_self], hheld⟩

theorem awaited_metAgain (n : Nat) : ∃ s, Run (step twoCpus) (fun _ _ => True) (init (fun _ _ => 0))
    (metAgain n) s ∧ Awaited (n + 1) s := by
  induction n with
  | zero =>
    refine ⟨_, ?_, awaited_roundTrip⟩
    rw [metAgain, List.replicate_zero, List.flatten_nil, List.append_nil]
    exact run_final_any (by decide +kernel)
  | succ n ih =>
    obtain ⟨s, hrun, hs⟩ := ih
    obtain ⟨t, hhit, ht⟩ := hs.hit
    refine ⟨t, ?_, ht⟩
    rw [metAgain, List.replicate_succ', List.flatten_append, List.flatten_singleton, ← List.append_assoc]
    exact hrun.append hhit

theorem Awaited.shareRef {n : Nat} (h : Awaited n s) (hr : s.RefsOk twoCpus) (hi : s.items 0 = some cp) :
    cp.shareRef = wrapInt (1 + n) := by
  rw [RefsOk.share hr 0 cp hi, ← h.held]
  rfl

theorem wrapInt_overflow {n : Nat} (hn : 2 ^ 31 - 2 = n) : wrapInt (1 + (n + 1 : Nat)) = -2 ^ 31 := by
  rw [show 1 + ((n + 1 : Nat) : Int) = 2 ^ 31 by omega]
  decide

theorem share_ref_overflows : ∃ s, Run (step twoCpus) (fun _ _ => True) (init (fun _ _ => 0))
    (metAgain (2 ^ 31 - 2)) s ∧ ¬ReferenceSafe twoCpus s := by
  generalize hn : 2 ^ 31 - 2 = n
  obtain ⟨s, hrun, hs⟩ := awaited_metAgain n
  refine ⟨s, hrun, fun hsafe => ?_⟩
  obtain ⟨cp, hi, hshare⟩ := hsafe.share_ref (bkt digestA) 0 (by simp [hs.listed])
  rw [hs.shareRef (refsOk_of_run hrun).2 hi, hs.held, wrapInt_overflow hn] at hshare
  omega

end Wspack.KernelHash
