import Wspack.KernelHash.PacketPath
import Wspack.KernelHash.ListHead

namespace Wspack.KernelHash.PacketLinks

open Function (update)
open Lib ListHead
open Payload (Skb)
open Drain (threshold)
open PacketPath (Cpu Worker arrivals)

inductive Place
  | idle
  | entered
  | hashing (cp : Nat)
  | resending (cp next : Nat)

/-- `skb` are the packets of the items, by the address of their `list` field, and `live` the items
that are allocated. -/
structure Mem where
  links : Links Nat
  skb : Nat → Skb
  live : List Nat
  pending : Bool
  place : Place
  hashed : List Skb
  resent : List Skb

inductive Step
  | ipRcv (reserveMem : Nat) (skb : Skb) (item : Nat)
  | work
  | getSkb
  | getPartition
  | readData
  | resendSkb
  | leave

def Step.act : Step → PacketPath.Act
  | .ipRcv reserveMem skb _ => .ipRcv reserveMem skb
  | .work => .work
  | .getSkb => .getSkb
  | .getPartition => .getPartition
  | .readData => .readData
  | .resendSkb => .resendSkb
  | .leave => .leave

def takeLoop (head hand : Nat) : (rounds cp next : Nat) → Links Nat → Links Nat
  | 0, _, _, m => m
  | rounds + 1, cp, next, m =>
    if cp = head then m
    else
      let m := listAddTail cp hand (listDel cp m)
      takeLoop head hand rounds next (m.next next) m

section

-- the addresses of `per_cpu(skb_list, cpu)` and of `hand_list`
variable (head hand : Nat)

def getSkb (s : Mem) : Mem :=
  let m := initListHead hand s.links
  let cp := m.next head
  let m := takeLoop head hand threshold cp (m.next cp) m
  { s with links := m, place := if listEmpty hand m then .idle else .hashing (m.next hand) }

def step (s : Mem) : Step → Except Unit Mem
  | .ipRcv reserveMem skb item =>
    if skb.accepted reserveMem then
      -- what is handed out is neither in use nor one of the two heads
      if item ∈ head :: hand :: s.live then .error ()
      else .ok { s with
        links := listAddTail item head (initListHead item s.links)
        skb := update s.skb item skb
        live := item :: s.live
        pending := true }
    else .ok s
  | .work => match s.place with
    | .idle => if s.pending then .ok { s with pending := false, place := .entered } else .error ()
    | _ => .error ()
  | .getSkb => match s.place with
    | .entered => .ok (getSkb head hand s)
    | _ => .error ()
  | .getPartition => match s.place with
    | .hashing cp => if cp = hand then .error ()
      else .ok { s with place := .hashing (s.links.next cp), hashed := s.hashed ++ [s.skb cp] }
    | _ => .error ()
  | .readData => match s.place with
    | .hashing cp => if cp = hand then
        .ok { s with place := .resending (s.links.next hand) (s.links.next (s.links.next hand)) }
      else .error ()
    | _ => .error ()
  | .resendSkb => match s.place with
    | .resending cp next => if cp = hand then .error ()
      else
        let m := listDel cp s.links
        .ok { s with
          links := m
          live := s.live.erase cp
          place := .resending next (m.next next)
          resent := s.resent ++ [s.skb cp] }
    | _ => .error ()
  | .leave => match s.place with
    | .resending cp _ => if cp = hand then .ok { s with place := .idle } else .error ()
    | _ => .error ()

end

def Mem.init (head : Nat) (m : Links Nat) (skb : Nat → Skb) : Mem :=
  ⟨initListHead head m, skb, [], false, .idle, [], []⟩

variable {head hand : Nat} {m : Links Nat} {l : List Nat} {hl : Option (List Nat)} {s s' : Mem} {k : Cpu}

def two (head hand : Nat) (l : List Nat) (hl : Option (List Nat)) : Lists :=
  fun a => if a = head then some l else if a = hand then hl else none

@[simp] theorem two_head : two head hand l hl head = some l := if_pos rfl

@[simp] theorem two_hand (hne : head ≠ hand) : two head hand l hl hand = hl := by simp [two, hne.symm]

theorem update_two_head (l' : List Nat) : update (two head hand l hl) head (some l') = two head hand l' hl := by
  funext a
  by_cases ha : a = head <;> simp [two, ha]

theorem update_two_hand (hne : head ≠ hand) (hl' : Option (List Nat)) :
    update (two head hand l hl) hand hl' = two head hand l hl' := by
  funext a
  by_cases ha : a = hand
  · subst ha
    simp [two, hne.symm]
  · simp [two, ha]

theorem takeLoop_spec (hne : head ≠ hand) {hl : List Nat} (hm : m.Rings (two head hand l (some hl))) (n : Nat) :
    (takeLoop head hand n (m.next head) (m.next (m.next head)) m).Rings
      (two head hand (l.drop n) (some (hl ++ l.take n))) := by
  induction n generalizing l hl m with
  | zero => simpa [takeLoop] using hm
  | succ n ih =>
    rw [takeLoop]
    have hr := hm.ring two_head
    cases l with
    | nil =>
      rw [if_pos hr.linked.1]
      simpa using hm
    | cons x l =>
      have hx : m.next head = x := hr.linked.1
      have hxne : x ≠ head := fun he => (List.nodup_cons.mp hr.nodup).1 (he ▸ List.mem_cons_self)
      rw [hx, if_neg hxne]
      obtain ⟨hdel, hfree⟩ := rings_del (l := []) hm two_head
      rw [List.nil_append, update_two_head] at hdel hfree
      have hadd := rings_addTail hdel hfree (two_hand hne)
      rw [update_two_hand hne] at hadd
      have hnext : m.next x = (listAddTail x hand (listDel x m)).next head := by
        have h₁ := (Links.Ring.around (l := []) hr).2
        rw [(hadd.ring two_head).head?_next] at h₁
        exact (Option.some.inj h₁).symm
      rw [hnext]
      simpa using ih hadd

inductive Fits (hand : Nat) (skb : Nat → Skb) : Place → Worker → Option (List Nat) → Prop
  | idle : Fits hand skb .idle .idle none
  | entered : Fits hand skb .entered .entered none
  | hashing {cp : Nat} {d r : List Nat} (hcp : (r ++ [hand]).head? = some cp) :
      Fits hand skb (.hashing cp) (.hashing (d.map skb) (r.map skb)) (some (d ++ r))
  | resending {cp next : Nat} {r : List Nat} (hcp : (r ++ [hand]).head? = some cp)
      (hnext : ∀ x r', r = x :: r' → (r' ++ [hand]).head? = some next) :
      Fits hand skb (.resending cp next) (.resending (r.map skb)) (some r)

structure Holds (head hand : Nat) (s : Mem) (k : Cpu) (l : List Nat) (hl : Option (List Nat)) : Prop where
  rings : s.links.Rings (two head hand l hl)
  heads : head ∉ s.live ∧ hand ∉ s.live
  listed : l ⊆ s.live
  held : ∀ h, hl = some h → h ⊆ s.live
  skbList : k.skbList = l.map s.skb
  pending : k.pending = s.pending
  hashed : k.hashed = s.hashed
  resent : k.resent = s.resent
  fits : Fits hand s.skb s.place k.worker hl

def Shows (head hand : Nat) (s : Mem) (k : Cpu) : Prop := ∃ l hl, Holds head hand s k l hl

theorem Holds.free (h : Holds head hand s k l hl) {x : Nat} (hx : x ∉ head :: hand :: s.live) :
    Free (two head hand l hl) x := by
  intro g j hg hmem
  simp only [List.mem_cons, not_or] at hx
  rw [two] at hg
  split at hg
  case isTrue he =>
    cases hg
    exact (List.mem_cons.mp hmem).elim (fun h => hx.1 (h.trans he)) fun hl => hx.2.2 (h.listed hl)
  case isFalse =>
    split at hg
    case isTrue he =>
      exact (List.mem_cons.mp hmem).elim (fun h => hx.2.1 (h.trans he)) fun hl => hx.2.2 (h.held j hg hl)
    case isFalse => cases hg

theorem map_update {skb : Nat → Skb} {x : Nat} {p : Skb} (hx : x ∉ l) : l.map (update skb x p) = l.map skb :=
  List.map_congr_left fun z hz => Function.update_of_ne (fun he : z = x => hx (he ▸ hz)) ..

theorem Fits.update {skb : Nat → Skb} {place : Place} {w : Worker} (hf : Fits hand skb place w hl) {x : Nat}
    {p : Skb} (hx : ∀ h, hl = some h → x ∉ h) : Fits hand (Function.update skb x p) place w hl := by
  cases hf with
  | idle => exact .idle
  | entered => exact .entered
  | hashing hcp =>
    obtain ⟨hd, hr⟩ := not_or.mp (mt List.mem_append.mpr (hx _ rfl))
    rw [← map_update (p := p) hd, ← map_update (p := p) hr]
    exact .hashing hcp
  | resending hcp hnext =>
    rw [← map_update (p := p) (hx _ rfl)]
    exact .resending hcp hnext

theorem shows_ipRcv (h : Holds head hand s k l hl) {item : Nat} (hitem : item ∉ head :: hand :: s.live)
    (skb : Skb) :
    Shows head hand
      { s with
        links := listAddTail item head (initListHead item s.links)
        skb := update s.skb item skb
        live := item :: s.live
        pending := true }
      { k with skbList := k.skbList ++ [skb], pending := true } := by
  have hfree := h.free hitem
  have hlive : item ∉ s.live := fun hm => hitem (List.mem_cons_of_mem _ (List.mem_cons_of_mem _ hm))
  have hinit : (initListHead item s.links).Rings (two head hand l hl) :=
    rings_write h.rings hfree (Links.within_join List.mem_cons_self List.mem_cons_self)
  have hadd := rings_addTail hinit hfree two_head
  rw [update_two_head] at hadd
  have hl : item ∉ l := fun hm => hlive (h.listed hm)
  refine ⟨l ++ [item], _, hadd, ?_, ?_, ?_, ?_, rfl, h.hashed, h.resent, ?_⟩
  · simp only [List.mem_cons, not_or] at hitem ⊢
    exact ⟨⟨Ne.symm hitem.1, h.heads.1⟩, Ne.symm hitem.2.1, h.heads.2⟩
  · refine List.append_subset.mpr ⟨fun x hx => List.mem_cons_of_mem _ (h.listed hx), ?_⟩
    simp
  · exact fun hs he x hx => List.mem_cons_of_mem _ (h.held hs he hx)
  · simp [map_update hl, h.skbList]
  · exact h.fits.update fun hs he hm => hlive (h.held hs he hm)

theorem shows_getSkb (hne : head ≠ hand) (h : Holds head hand s k l none) :
    Shows head hand (getSkb head hand s) (PacketPath.getSkb k) := by
  have hoff : Off (two head hand l none) hand := by
    intro g j hg hmem
    rw [two] at hg
    split at hg
    · cases hg
      exact h.heads.2 (h.listed hmem)
    · split at hg <;> cases hg
  have hinit := rings_init h.rings hoff
  rw [update_two_hand hne] at hinit
  have htake := takeLoop_spec hne hinit threshold
  have hring := htake.ring (two_hand hne)
  have hempty := listEmpty_eq hring
  rw [List.nil_append] at htake hring hempty
  have hlive : l.drop threshold ⊆ s.live := fun x hx => h.listed (List.drop_subset _ _ hx)
  have hlist : k.skbList.drop threshold = (l.drop threshold).map s.skb := by rw [h.skbList, List.map_drop]
  have hhand : k.skbList.take threshold = (l.take threshold).map s.skb := by rw [h.skbList, List.map_take]
  rw [Shows, getSkb, PacketPath.getSkb, hempty, hhand, List.isEmpty_map]
  cases htk : (l.take threshold).isEmpty with
  | true =>
    have hidle := htake.forget hand
    rw [update_two_hand hne] at hidle
    exact ⟨_, none, hidle, h.heads, hlive, (by simp), hlist, h.pending, h.hashed, h.resent, .idle⟩
  | false =>
    refine ⟨_, _, htake, h.heads, hlive, ?_, hlist, h.pending, h.hashed, h.resent, ?_⟩
    · rintro _ ⟨⟩ x hx
      exact h.listed (List.take_subset _ _ hx)
    · exact .hashing (d := []) hring.head?_next

theorem at_cons {r : List Nat} {cp : Nat} (hcp : (r ++ [hand]).head? = some cp) (hne : cp ≠ hand) :
    ∃ r', r = cp :: r' := by
  cases r with
  | nil => exact absurd (Option.some.inj hcp).symm hne
  | cons x r =>
    cases hcp
    exact ⟨r, rfl⟩

theorem at_end {r : List Nat} (hcp : (r ++ [hand]).head? = some hand) (hr : hand ∉ r) : r = [] := by
  cases r with
  | nil => rfl
  | cons x r =>
    cases hcp
    exact absurd List.mem_cons_self hr

theorem shows_getPartition (hne : head ≠ hand) {cp : Nat} {d r : List Nat}
    (h : Holds head hand s k l (some (d ++ cp :: r))) :
    Shows head hand { s with place := .hashing (s.links.next cp), hashed := s.hashed ++ [s.skb cp] }
      { k with
        worker := .hashing (d.map s.skb ++ [s.skb cp]) (r.map s.skb)
        hashed := k.hashed ++ [s.skb cp] } := by
  have hnext := (h.rings.ring (two_hand hne)).around.2
  have hlist : d ++ cp :: r = d ++ [cp] ++ r := by simp
  have hdone : d.map s.skb ++ [s.skb cp] = (d ++ [cp]).map s.skb := by simp
  refine ⟨l, _, h.rings, h.heads, h.listed, h.held, h.skbList, h.pending, ?_, h.resent, ?_⟩
  · rw [h.hashed]
  · rw [hlist, hdone]
    exact .hashing hnext

theorem shows_readData (hne : head ≠ hand) {d : List Nat} (h : Holds head hand s k l (some d)) :
    Shows head hand { s with place := .resending (s.links.next hand) (s.links.next (s.links.next hand)) }
      { k with worker := .resending (d.map s.skb) } := by
  have hring := h.rings.ring (two_hand hne)
  refine ⟨l, _, h.rings, h.heads, h.listed, h.held, h.skbList, h.pending, h.hashed, h.resent, ?_⟩
  refine .resending hring.head?_next ?_
  rintro x r' rfl
  rw [hring.linked.1]
  exact (Links.Ring.around (l := []) hring).2

theorem shows_resendSkb (hne : head ≠ hand) {cp next : Nat} {r : List Nat}
    (h : Holds head hand s k l (some (cp :: r))) (hnext : (r ++ [hand]).head? = some next) :
    Shows head hand
      { s with
        links := listDel cp s.links
        live := s.live.erase cp
        place := .resending next ((listDel cp s.links).next next)
        resent := s.resent ++ [s.skb cp] }
      { k with worker := .resending (r.map s.skb), resent := k.resent ++ [s.skb cp] } := by
  obtain ⟨hdel, hfree⟩ := rings_del (l := []) h.rings (two_hand hne)
  rw [List.nil_append, update_two_hand hne] at hdel hfree
  have hring := hdel.ring (two_hand hne)
  have hkeep : ∀ j, Free (two head hand l (some r)) cp → cp ∉ j → j ⊆ s.live → j ⊆ s.live.erase cp :=
    fun j _ hj hsub x hx => (List.mem_erase_of_ne fun he : x = cp => hj (he ▸ hx)).mpr (hsub hx)
  refine ⟨l, some r, hdel, ?_, ?_, ?_, h.skbList, h.pending, h.hashed, ?_, .resending hnext ?_⟩
  · exact ⟨fun hm => h.heads.1 (List.mem_of_mem_erase hm), fun hm => h.heads.2 (List.mem_of_mem_erase hm)⟩
  · exact hkeep l hfree (hfree.off head l two_head) h.listed
  · rintro _ ⟨⟩
    exact hkeep r hfree (hfree.off hand r (two_hand hne)) fun x hx => h.held _ rfl (List.mem_cons_of_mem cp hx)
  · rw [h.resent]
  · rintro x r' rfl
    cases hnext
    exact (Links.Ring.around (l := []) hring).2

theorem shows_leave (hne : head ≠ hand) {r : List Nat} (h : Holds head hand s k l (some r)) :
    Shows head hand { s with place := .idle } { k with worker := .idle } := by
  have hidle := h.rings.forget hand
  rw [update_two_hand hne] at hidle
  exact ⟨l, none, hidle, h.heads, h.listed, (by simp), h.skbList, h.pending, h.hashed, h.resent, .idle⟩

theorem step_shows (hne : head ≠ hand) {a : Step} (hs : Shows head hand s k) (he : step head hand s a = .ok s') :
    ∃ k', PacketPath.step k a.act = .ok k' ∧ Shows head hand s' k' := by
  obtain ⟨l, hl, h⟩ := hs
  have hfits := h.fits
  generalize hw : k.worker = w at hfits
  revert he
  fun_cases step head hand s a with
  | case2 reserveMem skb item hacc hitem =>
    rintro ⟨⟩
    refine ⟨_, rfl, ?_⟩
    rw [PacketPath.jpfIpRcv, if_pos hacc]
    exact shows_ipRcv h hitem skb
  | case3 reserveMem skb item hacc =>
    rintro ⟨⟩
    refine ⟨_, rfl, ?_⟩
    rw [PacketPath.jpfIpRcv, if_neg hacc]
    exact ⟨l, hl, h⟩
  | case4 hplace hp =>
    rintro ⟨⟩
    rw [hplace] at hfits
    cases hfits
    refine ⟨_, by simp only [PacketPath.step, Step.act, hw, h.pending, hp]; rfl, l, none, ?_⟩
    exact ⟨h.rings, h.heads, h.listed, h.held, h.skbList, rfl, h.hashed, h.resent, .entered⟩
  | case7 hplace =>
    rintro ⟨⟩
    rw [hplace] at hfits
    cases hfits
    exact ⟨_, by simp only [PacketPath.step, Step.act, hw], shows_getSkb hne h⟩
  | case10 cp hplace hcp =>
    rintro ⟨⟩
    rw [hplace] at hfits
    cases hfits with
    | hashing hhead =>
      obtain ⟨r', rfl⟩ := at_cons hhead hcp
      exact ⟨_, by simp only [PacketPath.step, Step.act, hw, List.map_cons], shows_getPartition hne h⟩
  | case12 hplace =>
    rintro ⟨⟩
    rw [hplace] at hfits
    cases hfits with
    | @hashing _ d r hhead =>
      have hself := (List.nodup_cons.mp (h.rings.ring (two_hand hne)).nodup).1
      cases at_end hhead fun hm => hself (List.mem_append_right d hm)
      rw [List.append_nil] at h
      exact ⟨_, by simp only [PacketPath.step, Step.act, hw, List.map_nil], shows_readData hne h⟩
  | case16 cp next hplace hcp =>
    rintro ⟨⟩
    rw [hplace] at hfits
    cases hfits with
    | resending hhead hnext =>
      obtain ⟨r', rfl⟩ := at_cons hhead hcp
      exact ⟨_, by simp only [PacketPath.step, Step.act, hw, List.map_cons],
        shows_resendSkb hne h (hnext cp r' rfl)⟩
  | case18 next hplace =>
    rintro ⟨⟩
    rw [hplace] at hfits
    cases hfits with
    | resending hhead hnext =>
      have hself := (List.nodup_cons.mp (h.rings.ring (two_hand hne)).nodup).1
      cases at_end hhead hself
      exact ⟨_, by simp only [PacketPath.step, Step.act, hw, List.map_nil], shows_leave hne h⟩
  | _ => intro he; cases he

theorem step_enabled (hne : head ≠ hand) {a : PacketPath.Act} {k' : Cpu} (hs : Shows head hand s k) (ha : a.ofWorker = true)
    (he : PacketPath.step k a = .ok k') : ∃ b s', b.act = a ∧ step head hand s b = .ok s' := by
  obtain ⟨l, hl, h⟩ := hs
  have hfits := h.fits
  generalize hp : s.place = place at hfits
  generalize hw' : k.worker = w at hfits
  have hself : ∀ j, hl = some j → hand ∉ j := by
    rintro j rfl
    exact (List.nodup_cons.mp (h.rings.ring (two_hand hne)).nodup).1
  cases PacketPath.steps_of_step he with
  | ipRcv => cases ha
  | work hw hpend =>
    cases hw'.symm.trans hw
    cases hfits
    exact ⟨.work, _, rfl, by simp only [step, hp, ← h.pending, hpend]; rfl⟩
  | getSkb hw =>
    cases hw'.symm.trans hw
    cases hfits
    exact ⟨.getSkb, _, rfl, by simp only [step, hp]; rfl⟩
  | getPartition hw =>
    cases hfits with
    | @hashing cp d r hhead =>
      obtain ⟨-, hr⟩ := Worker.hashing.inj (hw'.symm.trans hw)
      cases r with
      | nil => cases hr
      | cons x r =>
        cases hhead
        have hcp : cp ≠ hand := fun heq => hself _ rfl (by simp [heq])
        exact ⟨.getPartition, _, rfl, by simp only [step, hp, if_neg hcp]; rfl⟩
    | _ => cases hw'.symm.trans hw
  | readData hw =>
    cases hfits with
    | @hashing cp d r hhead =>
      obtain ⟨-, hr⟩ := Worker.hashing.inj (hw'.symm.trans hw)
      cases List.map_eq_nil_iff.mp hr
      cases hhead
      exact ⟨.readData, _, rfl, by simp only [step, hp, if_true]; rfl⟩
    | _ => cases hw'.symm.trans hw
  | resendSkb hw =>
    cases hfits with
    | @resending cp next r hhead hnext =>
      have hr := Worker.resending.inj (hw'.symm.trans hw)
      cases r with
      | nil => cases hr
      | cons x r =>
        cases hhead
        have hcp : cp ≠ hand := fun heq => hself _ rfl (by simp [heq])
        exact ⟨.resendSkb, _, rfl, by simp only [step, hp, if_neg hcp]; rfl⟩
    | _ => cases hw'.symm.trans hw
  | leave hw =>
    cases hfits with
    | @resending cp next r hhead hnext =>
      cases List.map_eq_nil_iff.mp (Worker.resending.inj (hw'.symm.trans hw))
      cases hhead
      exact ⟨.leave, _, rfl, by simp only [step, hp, if_true]; rfl⟩
    | _ => cases hw'.symm.trans hw

theorem init_shows (m : Links Nat) (skb : Nat → Skb) :
    Shows head hand (Mem.init head m skb) Cpu.init := by
  have hrings : (initListHead head m).Rings (two head hand [] none) := by
    have hnone : m.Rings (fun _ => none) := ⟨(by simp), (by simp)⟩
    have hinit := rings_init hnone (off_none head)
    have htwo : update (fun _ => none) head (some []) = two head hand [] none := by
      funext a
      by_cases ha : a = head <;> simp [two, ha]
    rwa [htwo] at hinit
  exact ⟨[], none, hrings, ⟨List.not_mem_nil, List.not_mem_nil⟩, List.nil_subset _, (by simp), rfl, rfl, rfl, rfl, .idle⟩

theorem run_enabled (hne : head ≠ hand) {C : Cpu → PacketPath.Act → Prop} {as : List PacketPath.Act} {k' : Cpu}
    (hr : Run PacketPath.step C k as k') (has : ∀ a ∈ as, a.ofWorker = true) (hs : Shows head hand s k) :
    ∃ bs s', bs.map Step.act = as ∧ Run (step head hand) (fun _ _ => True) s bs s' ∧ Shows head hand s' k' := by
  induction hr generalizing s with
  | nil => exact ⟨[], s, rfl, .nil s, hs⟩
  | cons _ he _ ih =>
    obtain ⟨ha, hrest⟩ := List.forall_mem_cons.mp has
    obtain ⟨b, t, rfl, hb⟩ := step_enabled hne hs ha he
    obtain ⟨u, hu, ht⟩ := step_shows hne hs hb
    cases he.symm.trans hu
    obtain ⟨bs, s', rfl, hbs, hs'⟩ := ih hrest ht
    exact ⟨b :: bs, s', rfl, .cons trivial hb hbs, hs'⟩

/-- Whatever the allocator hands out, the nodes and pointers carry the packets as the lists of
`PacketPath` do: a run on the nodes is a run on the lists, with the same packets given back, fed to
the table and waiting on `skb_list`, and the worker gets on whenever the one on the lists does. -/
theorem packet_links_refine (head hand : Nat) (hne : head ≠ hand) (m : Links Nat) (skb : Nat → Skb)
    (bs : List Step) (s : Mem) (h : Run (step head hand) (fun _ _ => True) (Mem.init head m skb) bs s) :
    ∃ k l, Run PacketPath.step (fun _ _ => True) Cpu.init (bs.map Step.act) k ∧
      s.links.Ring head l ∧ k.skbList = l.map s.skb ∧ k.hashed = s.hashed ∧ k.resent = s.resent ∧
      arrivals (bs.map Step.act) = s.resent ++ k.worker.hand ++ l.map s.skb ∧
      ∀ as k', (∀ a ∈ as, a.ofWorker = true) → Run PacketPath.step (fun _ _ => True) k as k' →
        ∃ cs s', cs.map Step.act = as ∧ Run (step head hand) (fun _ _ => True) s cs s' ∧
          s'.resent = k'.resent := by
  obtain ⟨k, hk, l, hl, hh⟩ := h.simulate (R := Shows head hand) (fun _ _ _ _ hs he => step_shows hne hs he)
    (init_shows m skb)
  have harr := (PacketPath.run_conserves hk Cpu.init_conserves).arrived
  rw [List.nil_append, hh.resent, hh.skbList] at harr
  refine ⟨k, l, hk, hh.rings.ring two_head, hh.skbList, hh.hashed, hh.resent, harr, fun as k' has hr => ?_⟩
  obtain ⟨cs, s', hcs, hr', l', hl', hh'⟩ := run_enabled hne hr has ⟨l, hl, hh⟩
  exact ⟨cs, s', hcs, hr', hh'.resent.symm⟩

def sampleSteps : List Step :=
  [.ipRcv 102400 (PacketPath.sample 1) 32, .work, .getSkb, .getPartition, .readData,
    .ipRcv 102400 (PacketPath.sample 2) 48, .resendSkb, .ipRcv 102400 (PacketPath.sample 3) 32]

theorem packet_links_refine_three : ∃ s k l,
    Run (step 8 16) (fun _ _ => True) (Mem.init 8 ⟨id, id⟩ fun _ => PacketPath.sample 0) sampleSteps s ∧
      s.links.Ring 8 l ∧ arrivals (sampleSteps.map Step.act) = s.resent ++ Worker.hand k ++ l.map s.skb := by
  have hr : Run (step 8 16) (fun _ _ => True) (Mem.init 8 ⟨id, id⟩ fun _ => PacketPath.sample 0) sampleSteps _ :=
    run_final_any (g := fun _ _ => true) rfl
  obtain ⟨k, l, -, hring, -, -, -, harr, -⟩ := packet_links_refine 8 16 (by decide) _ _ _ _ hr
  exact ⟨_, k.worker, l, hr, hring, harr⟩

end Wspack.KernelHash.PacketLinks
