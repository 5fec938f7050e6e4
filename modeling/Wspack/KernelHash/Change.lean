import Wspack.KernelHash.Cache
import Wspack.Lib.Run

namespace Wspack.KernelHash

open Function (update)
open Lib

inductive Change (cfg : Config) : Act → State → State → Prop
  | miss {s : State} {c src dst} : c < cfg.ncpu → s.hand c = .idle → lookup s dst = none →
      Change cfg (.getHashItem c src dst) s { s with hand := update s.hand c (.missed dst src) }
  | hit {s : State} {c src dst id cp} (stats : Stats) : c < cfg.ncpu → s.hand c = .idle →
      lookup s dst = some (id, cp) →
      Change cfg (.getHashItem c src dst) s { s with
        items := update s.items id (some cp.hit)
        hand := update s.hand c (.found id s.nextHold src.length)
        nextHold := s.nextHold + 1
        stats := stats }
  | refuse {s : State} {c z dst src} (stats : Stats) : s.hand c = .missed dst src →
      Change cfg (.addHashInfo c z) s { s with hand := update s.hand c .idle, stats := stats }
  | insert {s : State} {c z dst src} (stats : Stats) : s.hand c = .missed dst src →
      writeLockFree cfg s (bkt dst) = true →
      Change cfg (.addHashInfo c z) s { s with
        items := update s.items s.nextItem (some (newItem s.heap dst src).2)
        nextItem := s.nextItem + 1
        hashTab := update s.hashTab (bkt dst) (s.nextItem :: s.hashTab (bkt dst))
        hashCount := s.hashCount + 1
        heap := (newItem s.heap dst src).1
        hand := update s.hand c .idle
        stats := stats }
  | release {s : State} {c id hold len cp} (stats : Stats) : s.hand c = .found id hold len →
      s.items id = some cp → cp.flagCache ≠ .readBack →
      Change cfg (.releaseItem c) s { s with
        items := update s.items id (some cp.release)
        hand := update s.hand c .idle
        released := hold :: s.released
        stats := stats }
  | queue {s : State} {c id hold len cp} (stats : Stats) : s.hand c = .found id hold len →
      s.items id = some cp → cp.flagCache = .readBack → cp.cpuid < cfg.ncpu →
      Change cfg (.releaseItem c) s { s with
        hand := update s.hand c .idle
        readList := ⟨id, cp.cpuid.toNat, hold⟩ :: s.readList
        stats := stats }
  | read {s : State} {i r cp} (stats : Stats) : s.readList[i]? = some r →
      s.items r.item = some cp →
      Change cfg (.readData i) s { s with
        items := update s.items r.item (some (readItem s r.cpu cp).2.release)
        heap := (readItem s r.cpu cp).1
        readList := s.readList.eraseIdx i
        released := r.hold :: s.released
        stats := stats }
  | delete {s : State} {b id cp heap cp'} (stats : Stats) : writeLockFree cfg s b = true →
      id ∈ s.hashTab b → s.items id = some cp → cp.expired = true →
      freeBuffer s.heap cp = .ok (heap, cp') →
      Change cfg (.bucketClearItem b) s { s with
        items := update s.items id none
        hashTab := update s.hashTab b ((s.hashTab b).erase id)
        hashCount := s.hashCount - 1
        heap := heap
        bitmap := if cp.holdsSlot then
            update s.bitmap cp.cpuid.toNat
              (clearBits (s.bitmap cp.cpuid.toNat) cp.start (slotCount cp.len))
          else s.bitmap
        stats := stats }
  | age {s : State} {b id cp} (stats : Stats) : writeLockFree cfg s b = true →
      id ∈ s.hashTab b → s.items id = some cp → cp.expired = false →
      Change cfg (.bucketClearItem b) s { s with
        items := update s.items id (some cp.age)
        stats := stats }
  | pend {s : State} {b} (p : Nat → Bool) :
      Change cfg (.bucketClearItem b) s { s with workPending := p }
  | start {s : State} {c b} : c < cfg.ncpu → s.wr c = none → s.workPending b = true →
      Change cfg (.wrStart c b) s (wrStart s c b)
  | mark {s : State} {c w id rest cp} : s.wr c = some w → w.phase = .mark → w.todo = id :: rest →
      s.items id = some cp → cp.markable = true →
      Change cfg (.wrStep c) s { s with
        items := update s.items id (some cp.mark)
        wr := update s.wr c (some { w with
          todo := rest
          allSize := w.allSize + slotCount cp.len * chunkStep
          counted := Insert.insert id w.counted }) }
  | unmark {s : State} {c w id rest cp} : s.wr c = some w → w.phase = .place →
      w.todo = id :: rest → s.items id = some cp → cp.unmarkable = true →
      Change cfg (.wrStep c) s { s with
        items := update s.items id (some cp.unmark)
        wr := update s.wr c (some { w with todo := rest }) }
  | place {s : State} {c w id rest cp find} : s.wr c = some w → w.phase = .place →
      w.todo = id :: rest → s.items id = some cp → cp.placeable = true →
      find = bitmapFindNextZeroArea (s.bitmap c) bitmapSize (s.bitmapIndex c) (slotCount cp.len) 0 →
      find ≤ bitmapSize →
      Change cfg (.wrStep c) s (placeAt s c w id cp rest find)
  | commit {s : State} {c w id rest cp heap cp'} : s.wr c = some w → w.phase = .commit →
      w.todo = id :: rest → s.items id = some cp → cp.committable = true →
      freeDataMemory s.heap { cp with flagCache := .disk } = .ok (heap, cp') →
      Change cfg (.wrStep c) s { s with
        items := update s.items id (some cp')
        heap := heap
        wr := update s.wr c (some { w with todo := rest }) }
  | skipMark {s : State} {c w id rest cp} : s.wr c = some w → w.phase = .mark →
      w.todo = id :: rest → s.items id = some cp → cp.markable = false →
      Change cfg (.wrStep c) s (s.setWr c (some { w with todo := rest }))
  | skipPlace {s : State} {c w id rest cp} : s.wr c = some w → w.phase = .place →
      w.todo = id :: rest → s.items id = some cp → cp.unmarkable = false → cp.placeable = false →
      Change cfg (.wrStep c) s (s.setWr c (some { w with todo := rest }))
  | skipCommit {s : State} {c w id rest cp} : s.wr c = some w → w.phase = .commit →
      w.todo = id :: rest → s.items id = some cp → cp.committable = false →
      Change cfg (.wrStep c) s (s.setWr c (some { w with todo := rest }))
  | markNone {s : State} {c w} : s.wr c = some w → w.phase = .mark → w.todo = [] → w.allSize = 0 →
      Change cfg (.wrStep c) s (s.setWr c none)
  | markDone {s : State} {c w} : s.wr c = some w → w.phase = .mark → w.todo = [] → w.allSize ≠ 0 →
      Change cfg (.wrStep c) s
        (s.setWr c (some { w with phase := .place, todo := s.hashTab w.index }))
  | placeDone {s : State} {c w} : s.wr c = some w → w.phase = .place → w.todo = [] →
      Change cfg (.wrStep c) s (s.setWr c (some { w with phase := .write }))
  | write {s : State} {c w} : s.wr c = some w → w.phase = .write →
      Change cfg (.wrStep c) s (writeFile s c w)
  | relock {s : State} {c w} : s.wr c = some w → w.phase = .written →
      Change cfg (.wrStep c) s
        (s.setWr c (some { w with phase := .commit, todo := s.hashTab w.index }))
  | commitDone {s : State} {c w} : s.wr c = some w → w.phase = .commit → w.todo = [] →
      Change cfg (.wrStep c) s (s.setWr c none)

variable {cfg : Config} {s t : State} {a : Act} {b c id : Nat} {cp : HashinfoItem} {w : WrFile}

theorem change_of_handAdd {dst : Digest} {src : List UInt8} {z : Bool}
    (hh : s.hand c = .missed dst src) (h : handAdd cfg s c dst src z = .ok t) :
    Change cfg (.addHashInfo c z) s t := by
  unfold handAdd at h
  cases hn : hashNewItem cfg s dst src z with
  | none =>
    simp only [hn, Except.ok.injEq] at h
    subst h
    exact .refuse _ hh
  | some u =>
    simp only [hn] at h
    split at h
    · rename_i hl
      unfold hashNewItem at hn
      split at hn
      · cases hn
      split at hn
      · cases hn
      simp only [Option.some.injEq, Except.ok.injEq] at hn h
      subst hn h
      exact .insert _ hh hl
    · cases h

theorem change_of_handFound {hold len : Nat} (hh : s.hand c = .found id hold len)
    (h : handFound cfg s c id hold len = .ok t) : Change cfg (.releaseItem c) s t := by
  unfold handFound at h
  cases hi : s.items id with
  | none => simp [hi] at h
  | some cp =>
    simp only [hi] at h
    split at h
    · cases h
      exact .release _ hh hi ‹_›
    · split at h
      · cases h
      · cases h
        exact .queue _ hh hi (by simpa using ‹¬cp.flagCache ≠ .readBack›) (by omega)

theorem change_of_readData {i : Nat} (h : readData s i = .ok t) : Change cfg (.readData i) s t := by
  unfold readData at h
  cases hr : s.readList[i]? with
  | none => simp [hr] at h
  | some r =>
    cases hi : s.items r.item with
    | none => simp [hr, hi] at h
    | some cp =>
      simp only [hr, hi, Except.ok.injEq] at h
      subst h
      exact .read _ hr hi

theorem change_of_placeItem {rest : List Nat} (hw : s.wr c = some w) (hp : w.phase = .place)
    (ht : w.todo = id :: rest) (hi : s.items id = some cp)
    (h : placeItem s c w id cp rest = .ok t) : Change cfg (.wrStep c) s t := by
  unfold placeItem at h
  cases hu : cp.unmarkable with
  | true =>
    simp only [hu, if_true] at h
    cases h
    exact .unmark hw hp ht hi hu
  | false =>
    cases hpl : cp.placeable with
    | true =>
      simp only [hu, hpl, if_true, Bool.false_eq_true, if_false] at h
      split at h
      · cases h
      · cases h
        exact .place hw hp ht hi hpl rfl (by omega)
    | false =>
      simp only [hu, hpl, Bool.false_eq_true, if_false] at h
      cases h
      exact .skipPlace hw hp ht hi hu hpl

theorem change_of_commitItem {rest : List Nat} (hw : s.wr c = some w) (hp : w.phase = .commit)
    (ht : w.todo = id :: rest) (hi : s.items id = some cp)
    (h : commitItem s c w id cp rest = .ok t) : Change cfg (.wrStep c) s t := by
  unfold commitItem at h
  cases hc : cp.committable with
  | true =>
    simp only [hc, if_true] at h
    split at h
    · cases h
    · cases h
      exact .commit hw hp ht hi hc ‹_›
  | false =>
    simp only [hc, Bool.false_eq_true, if_false] at h
    cases h
    exact .skipCommit hw hp ht hi hc

theorem change_of_wrStep (h : wrStep s c = .ok t) : Change cfg (.wrStep c) s t := by
  unfold wrStep at h
  cases hw : s.wr c with
  | none => simp [hw] at h
  | some w =>
    simp only [hw] at h
    cases hp : w.phase with
    | mark =>
      cases ht : w.todo with
      | nil =>
        simp only [hp, ht] at h
        split at h
        · cases h; exact .markNone hw hp ht ‹_›
        · cases h; exact .markDone hw hp ht ‹_›
      | cons id rest =>
        cases hi : s.items id with
        | none => simp [hp, ht, hi] at h
        | some cp =>
          simp only [hp, ht, hi, Except.ok.injEq] at h
          subst h
          cases hm : cp.markable with
          | true => simpa [markItem, hm] using Change.mark hw hp ht hi hm
          | false => simpa [markItem, hm] using Change.skipMark hw hp ht hi hm
    | place =>
      cases ht : w.todo with
      | nil =>
        simp only [hp, ht, Except.ok.injEq] at h
        subst h
        simpa only [ht] using @Change.placeDone cfg s c w hw hp ht
      | cons id rest =>
        cases hi : s.items id with
        | none => simp [hp, ht, hi] at h
        | some cp =>
          simp only [hp, ht, hi] at h
          exact change_of_placeItem hw hp ht hi h
    | write =>
      simp only [hp, Except.ok.injEq] at h
      subst h
      exact .write hw hp
    | written =>
      simp only [hp, Except.ok.injEq] at h
      subst h
      exact .relock hw hp
    | commit =>
      cases ht : w.todo with
      | nil =>
        simp only [hp, ht, Except.ok.injEq] at h
        subst h
        exact .commitDone hw hp ht
      | cons id rest =>
        cases hi : s.items id with
        | none => simp [hp, ht, hi] at h
        | some cp =>
          simp only [hp, ht, hi] at h
          exact change_of_commitItem hw hp ht hi h

theorem change_of_handGet {src : List UInt8} {dst : Digest} (hc : c < cfg.ncpu)
    (hh : s.hand c = .idle) : Change cfg (.getHashItem c src dst) s (handGet s c src dst) := by
  unfold handGet getHashItem
  cases hl : lookup s dst with
  | none => exact .miss hc hh hl
  | some p => exact .hit _ hc hh hl

theorem change_of_step (ha : ∀ b, a ≠ .bucketClearItem b) (h : step cfg s a = .ok t) :
    Change cfg a s t := by
  cases a with
  | getHashItem c src dst =>
    simp only [step] at h
    split at h
    · rename_i hg
      cases h
      exact change_of_handGet hg.1 hg.2
    · cases h
  | addHashInfo c z =>
    simp only [step] at h
    split at h
    · exact change_of_handAdd ‹_› h
    · cases h
  | releaseItem c =>
    simp only [step] at h
    split at h
    · exact change_of_handFound ‹_› h
    · cases h
  | readData i => exact change_of_readData h
  | bucketClearItem b => exact absurd rfl (ha b)
  | wrStart c b =>
    simp only [step] at h
    split at h
    · rename_i hg
      cases h
      exact .start hg.1 (by simpa using hg.2.1) hg.2.2
    · cases h
  | wrStep c => exact change_of_wrStep h

theorem change_of_clearItem {flag flag' : Bool} (hl : writeLockFree cfg s b = true)
    (hb : id ∈ s.hashTab b) (h : clearItem b s flag id = .ok (t, flag')) :
    Change cfg (.bucketClearItem b) s t := by
  unfold clearItem at h
  cases hi : s.items id with
  | none => simp [hi] at h
  | some cp =>
    cases he : cp.expired with
    | true =>
      simp only [hi, he, if_true] at h
      cases hf : freeBuffer s.heap cp with
      | error f => simp [deleteItem, hf] at h
      | ok p =>
        simp only [deleteItem, hf, Except.ok.injEq, Prod.mk.injEq] at h
        obtain ⟨rfl, rfl⟩ := h
        exact .delete _ hl hb hi he hf
    | false =>
      simp only [hi, he, Bool.false_eq_true, if_false, Except.ok.injEq, Prod.mk.injEq] at h
      obtain ⟨rfl, rfl⟩ := h
      exact .age _ hl hb hi he

end Wspack.KernelHash
