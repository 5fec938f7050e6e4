import Wspack.Tcpre.Lookup

namespace Wspack.Tcpre

def walk (ps : List Payload) : List Visit := ps.flatMap visits

def calculateAll (ps : List Payload) (s : State) : State :=
  ps.foldl (fun s p => (calculateHash p s).1) s

def after (vs : List Visit) : Cursor := vs.foldl Cursor.advance ⟨start, 0, false⟩

def before (vs : List Visit) (v : Visit) : Cursor := (after vs).enter v

structure Stores (c : Cursor) (v : Visit) : Prop where
  examines : Examines c v
  absent : c.state.map.get v.fingerprint = none
  room : c.state.reindex < keynum

def Counts (c : Cursor) (v : Visit) : Prop := (c.visit v).state.recount = c.state.recount + 1

structure Faithful (vs : List Visit) : Prop where
  keys : ∀ pre post, vs = pre ++ post →
    ∀ e ∈ (after pre).state.entries, hash e.data chunkNum = e.key
  blocks : ∀ pre v post, vs = pre ++ v :: post → Stores (before pre v) v →
    ∃ data, data.take chunkNum = v.window ∧
      (after (pre ++ [v])).state.entries = (after pre).state.entries ++ [⟨v.fingerprint, data⟩]
  recurring : ∀ pre u mid v post, vs = pre ++ u :: (mid ++ v :: post) → Stores (before pre u) u →
    u.window = v.window → Examines (before (pre ++ u :: mid) v) v →
    Counts (before (pre ++ u :: mid) v) v

/-- The bytes one position early are the window, or the loop has no use for them: there is no room
to store them, or the entry found is not of this window. -/
def Harmless (c : Cursor) (v : Visit) : Prop :=
  Examines c v → v.first = false → v.block = v.window ∨
    match c.state.map.get v.fingerprint with
    | some data => (c.state.row data).take chunkNum ≠ v.window
    | none => keynum ≤ c.state.reindex

variable {p : Payload} {s : State} {c c' : Cursor} {u v : Visit} {vs pre : List Visit}
  {ps : List Payload} {r : Nat} {e : Entry} {k : UInt64} {data : List UInt8}

theorem after_concat : after (vs ++ [v]) = (before vs v).visit v := by
  rw [after, List.foldl_append]
  rfl

theorem before_state (vs : List Visit) (v : Visit) : (before vs v).state = (after vs).state :=
  enter_state _ v

theorem hash_take (key : List UInt8) (M : Nat) : hash (key.take M) M = hash key M := by
  rw [hash_eq, Chunk.packHash_take]

theorem keydata_take (h : chunkNum ≤ p.len) (off : Nat) :
    (keydata p off).take chunkNum = bytesAt p.bytes off chunkNum := by
  have hn : chunkNum ≤ if p.len < chunkNum * 3 then p.len else chunkNum * 3 := by
    split
    · exact h
    · decide
  rw [keydata, List.take_append_of_le_length (by rwa [length_bytesAt])]
  rw [bytesAt, ← List.map_take, List.take_range'_of_length_ge hn, bytesAt]

theorem first_block (h : v.first = true) : v.block = v.window := by
  have hi : v.i = chunkNum - 1 := by simpa [Visit.first] using h
  rw [Visit.block, Visit.off, if_pos h, Visit.window, hi]
  rfl

theorem payload_len (h : v ∈ walk ps) : chunkNum ≤ v.payload.len := by
  obtain ⟨p, -, hv⟩ := List.mem_flatMap.mp h
  obtain ⟨i, hi, rfl⟩ := List.mem_map.mp hv
  have hi := List.mem_range'_1.mp hi
  show chunkNum ≤ p.len
  simp only [chunkNum] at hi ⊢
  omega

theorem calculateAll_eq (h : ∀ p ∈ ps, chunkNum ≤ p.len) (c : Cursor) :
    calculateAll ps c.state = ((walk ps).foldl Cursor.advance c).state := by
  induction ps generalizing c with
  | nil => rfl
  | cons p ps ih =>
    obtain ⟨hp, hps⟩ := List.forall_mem_cons.mp h
    have hcall := congrArg Prod.fst (calculateHash_eq_foldl hp c)
    rw [calculateAll, List.foldl_cons, hcall, walk, List.flatMap_cons, List.foldl_append]
    exact ih hps _

theorem Visited.table (h : Visited c v c') :
    (Stores c v ∧ c'.state = c.state.store v.fingerprint (keydata v.payload v.off)) ∨
    (¬Stores c v ∧ c'.state.map = c.state.map ∧ c'.state.entries = c.state.entries) := by
  cases h with
  | failed hf => exact .inr ⟨fun hs => by simp [hs.examines.running] at hf, rfl, rfl⟩
  | delayed _ hd => exact .inr ⟨fun hs => hd hs.examines.due, rfl, rfl⟩
  | passed _ _ hz => exact .inr ⟨fun hs => hz hs.examines.zero, rfl, rfl⟩
  | counted _ hget _ => exact .inr ⟨fun hs => by simp [hs.absent] at hget, rfl, rfl⟩
  | differs _ hget _ => exact .inr ⟨fun hs => by simp [hs.absent] at hget, rfl, rfl⟩
  | stored hex hget hroom => exact .inl ⟨⟨hex, hget, hroom⟩, rfl⟩
  | full _ _ hfull => exact .inr ⟨fun hs => absurd hs.room (Nat.not_lt.mpr hfull), rfl, rfl⟩

theorem counts_iff {row : Nat} (hex : Examines c v) (hget : c.state.map.get v.fingerprint = some row) :
    Counts c v ↔ (c.state.row row).take chunkNum = v.block := by
  have hblock : bytesAt v.payload.bytes v.off chunkNum = v.block := rfl
  rw [Counts, Cursor.visit, examine]
  simp only [hex.running, hex.due, hex.zero, hget, hblock, Bool.false_eq_true, if_true, if_false]
  by_cases heq : (c.state.row row).take chunkNum = v.block
  · simp [heq, State.repeated]
  · simp [heq]

structure Table (s : State) : Prop where
  holds : Holds s.map (s.entries.map (·.key))
  apart : (s.entries.map (·.key)).Pairwise (fun a b => alike a b = false)

theorem Table.store (h : Table s) (hget : s.map.get k = none) : Table (s.store k data) := by
  have hkeys : (s.store k data).entries.map (·.key) = s.entries.map (·.key) ++ [k] := by
    rw [State.store, List.map_append]
    rfl
  refine ⟨?_, ?_⟩
  · rw [hkeys]
    have hset := @Holds.set k _ _ h.holds
    rwa [List.length_map] at hset
  · rw [h.holds.get, List.findIdx?_eq_none_iff] at hget
    rw [hkeys, List.pairwise_append]
    refine ⟨h.apart, List.pairwise_singleton _ _, fun a ha b hb => ?_⟩
    rw [List.mem_singleton.mp hb]
    exact hget a ha

theorem Table.get (h : Table s) (hr : s.entries[r]? = some e) : s.map.get e.key = some r := by
  obtain ⟨hlt, hkey⟩ := List.getElem?_eq_some_iff.mp hr
  rw [h.holds.get, List.findIdx?_eq_some_iff_getElem]
  refine ⟨by rwa [List.length_map], ?_, fun j hj => ?_⟩
  · rw [List.getElem_map, hkey]
    exact alike_refl _
  · have hpair := List.pairwise_iff_getElem.mp h.apart j r
      (by rw [List.length_map]; omega) (by rwa [List.length_map]) hj
    rw [List.getElem_map, List.getElem_map, hkey] at hpair
    rw [List.getElem_map, hpair]
    exact Bool.false_ne_true

theorem row_eq (hr : s.entries[r]? = some e) : s.row r = e.data := by
  rw [State.row, hr]
  rfl

theorem table_after (vs : List Visit) : Table (after vs).state := by
  induction vs using List.reverseRecOn with
  | nil => exact ⟨.create, .nil⟩
  | append_singleton vs v ih =>
    rw [← before_state vs v] at ih
    rw [after_concat]
    rcases (visited (before vs v) v).table with ⟨hs, hstate⟩ | ⟨-, hmap, hentries⟩
    · rw [hstate]
      exact ih.store hs.absent
    · obtain ⟨hholds, hapart⟩ := ih
      rw [← hmap, ← hentries] at hholds
      rw [← hentries] at hapart
      exact ⟨hholds, hapart⟩

theorem entries_stored (hs : Stores (before vs v) v) : (after (vs ++ [v])).state.entries =
    (after vs).state.entries ++ [⟨v.fingerprint, keydata v.payload v.off⟩] := by
  rcases (visited (before vs v) v).table with ⟨-, hstate⟩ | ⟨hnot, -⟩
  · rw [after_concat, hstate, before_state]
    rfl
  · exact absurd hs hnot

theorem entries_unstored (hs : ¬Stores (before vs v) v) :
    (after (vs ++ [v])).state.entries = (after vs).state.entries := by
  rcases (visited (before vs v) v).table with ⟨hs', -⟩ | ⟨-, -, hentries⟩
  · exact absurd hs' hs
  · rw [after_concat, hentries, before_state]

theorem entries_prefix (pre mid : List Visit) :
    (after pre).state.entries <+: (after (pre ++ mid)).state.entries := by
  induction mid using List.reverseRecOn with
  | nil => rw [List.append_nil]
  | append_singleton mid v ih =>
    rw [← List.append_assoc]
    by_cases hs : Stores (before (pre ++ mid) v) v
    · rw [entries_stored hs]
      exact ih.trans (List.prefix_append _ _)
    · rwa [entries_unstored hs]

theorem entry_stays {mid : List Visit} (hs : Stores (before pre u) u) :
    (after (pre ++ u :: mid)).state.entries[(after pre).state.reindex]? =
      some ⟨u.fingerprint, keydata u.payload u.off⟩ := by
  obtain ⟨rest, hrest⟩ := entries_prefix (pre ++ [u]) mid
  rw [entries_stored hs, List.append_assoc] at hrest
  rw [List.append_cons, ← hrest, State.reindex, List.getElem?_append_right le_rfl, Nat.sub_self]
  rfl

theorem exists_stored (h : e ∈ (after vs).state.entries) : ∃ pre u mid, vs = pre ++ u :: mid ∧
    Stores (before pre u) u ∧ e = ⟨u.fingerprint, keydata u.payload u.off⟩ := by
  induction vs using List.reverseRecOn with
  | nil => cases h
  | append_singleton vs v ih =>
    have hold : e ∈ (after vs).state.entries → ∃ pre u mid, vs ++ [v] = pre ++ u :: mid ∧
        Stores (before pre u) u ∧ e = ⟨u.fingerprint, keydata u.payload u.off⟩ := by
      intro h
      obtain ⟨pre, u, mid, hvs, hrest⟩ := ih h
      exact ⟨pre, u, mid ++ [v], by rw [hvs, List.append_assoc, List.cons_append], hrest⟩
    by_cases hs : Stores (before vs v) v
    · rw [entries_stored hs, List.mem_append, List.mem_singleton] at h
      rcases h with h | h
      · exact hold h
      · exact ⟨vs, v, [], rfl, hs, h⟩
    · rw [entries_unstored hs] at h
      exact hold h

theorem Harmless.block (h : Harmless c v) (hs : Stores c v) : v.block = v.window := by
  cases hf : v.first with
  | true => exact first_block hf
  | false =>
    rcases h hs.examines hf with hb | hb
    · exact hb
    · rw [hs.absent] at hb
      exact absurd hs.room (Nat.not_lt.mpr hb)

theorem Harmless.block_of_row {row : Nat} (h : Harmless c v) (hex : Examines c v)
    (hget : c.state.map.get v.fingerprint = some row)
    (hrow : (c.state.row row).take chunkNum = v.window) : v.block = v.window := by
  cases hf : v.first with
  | true => exact first_block hf
  | false =>
    rcases h hex hf with hb | hb
    · exact hb
    · rw [hget] at hb
      exact absurd hrow hb

theorem get_stored {mid : List Visit} (hs : Stores (before pre u) u) (huv : u.window = v.window)
    (hlen : chunkNum ≤ u.payload.len) :
    ∃ row, (before (pre ++ u :: mid) v).state.map.get v.fingerprint = some row ∧
      ((before (pre ++ u :: mid) v).state.row row).take chunkNum = u.block := by
  have hentry := @entry_stays u pre mid hs
  have hprint : u.fingerprint = v.fingerprint := by rw [Visit.fingerprint, huv, Visit.fingerprint]
  have hget := (table_after _).get hentry
  rw [hprint] at hget
  exact ⟨(after pre).state.reindex, by rw [before_state, hget],
    by rw [before_state, row_eq hentry, keydata_take hlen, Visit.block]⟩

theorem faithful_of_harmless (hlen : ∀ v ∈ vs, chunkNum ≤ v.payload.len)
    (h : ∀ pre v post, vs = pre ++ v :: post → Harmless (before pre v) v) : Faithful vs where
  keys := by
    rintro pre post rfl e he
    obtain ⟨pre, u, mid, rfl, hs, rfl⟩ := exists_stored he
    have hu := hlen u (by simp)
    have hblock := (h pre u (mid ++ post) (by simp)).block hs
    rw [← hash_take, keydata_take hu, ← Visit.block, hblock, Visit.fingerprint]
  blocks := by
    rintro pre v post rfl hs
    have hv := hlen v (by simp)
    have hblock := (h pre v post rfl).block hs
    exact ⟨_, by rw [keydata_take hv, ← Visit.block, hblock], entries_stored hs⟩
  recurring := by
    rintro pre u mid v post rfl hs huv hex
    obtain ⟨row, hget, hrow⟩ := @get_stored u v pre mid hs huv (hlen u (by simp))
    rw [(h pre u _ rfl).block hs, huv] at hrow
    have hblock := (h (pre ++ u :: mid) v post (by simp)).block_of_row hex hget hrow
    rw [counts_iff hex hget, hrow, hblock]

theorem Faithful.keydata_window (h : Faithful vs) {post : List Visit} (hvs : vs = pre ++ v :: post)
    (hs : Stores (before pre v) v) : (keydata v.payload v.off).take chunkNum = v.window := by
  obtain ⟨data, hdata, hentries⟩ := h.blocks pre v post hvs hs
  rw [entries_stored hs] at hentries
  have hkeydata : keydata v.payload v.off = data := by simpa using hentries
  rwa [hkeydata]

theorem entry_of_get {row : Nat} (h : (after vs).state.map.get k = some row) :
    ∃ e ∈ (after vs).state.entries, (after vs).state.row row = e.data := by
  rw [(table_after vs).holds.get, List.findIdx?_eq_some_iff_getElem] at h
  obtain ⟨hrow, -⟩ := h
  rw [List.length_map] at hrow
  exact ⟨_, List.getElem_mem hrow, row_eq (List.getElem?_eq_getElem hrow)⟩

theorem harmless_of_faithful (hlen : ∀ v ∈ vs, chunkNum ≤ v.payload.len) (h : Faithful vs)
    {post : List Visit} (hvs : vs = pre ++ v :: post) : Harmless (before pre v) v := by
  intro hex _
  by_contra hharm
  obtain ⟨hblock, hharm⟩ := not_or.mp hharm
  cases hget : (before pre v).state.map.get v.fingerprint with
  | none =>
    rw [hget, Nat.not_le] at hharm
    have hwindow := h.keydata_window hvs ⟨hex, hget, hharm⟩
    rw [keydata_take (hlen v (by simp [hvs]))] at hwindow
    exact hblock hwindow
  | some row =>
    rw [hget, not_not] at hharm
    have hcounts := counts_iff hex hget
    rw [hharm] at hcounts
    -- the entry found is of a window stored before, which the comparison does not recognise
    rw [before_state] at hget hharm
    obtain ⟨e, he, hrow⟩ := entry_of_get hget
    obtain ⟨pre, u, mid, rfl, hs, rfl⟩ := exists_stored he
    rw [hrow, h.keydata_window (by simpa using hvs) hs] at hharm
    have hrec := h.recurring pre u mid v post (by simpa using hvs) hs hharm hex
    exact hblock (hcounts.mp hrec).symm

theorem entries_match_iff (ps : List Payload) (hps : ∀ p ∈ ps, chunkNum ≤ p.len) :
    calculateAll ps start = (after (walk ps)).state ∧
      (Faithful (walk ps) ↔
        ∀ pre v post, walk ps = pre ++ v :: post → Harmless (before pre v) v) :=
  ⟨calculateAll_eq hps ⟨start, 0, false⟩,
    fun h _ _ _ hvs => harmless_of_faithful (fun _ => payload_len) h hvs,
    faithful_of_harmless (fun _ => payload_len)⟩

theorem entries_match_letters : Faithful (walk [⟨fun _ => 97, 128⟩]) ∧
    (calculateAll [⟨fun _ => 97, 128⟩] start).recount = 1 := by
  refine ⟨(entries_match_iff [⟨fun _ => 97, 128⟩] (by simp [chunkNum])).2.mpr ?_, by decide +kernel⟩
  intro pre v post hvs _ _
  have hv : v ∈ walk [⟨fun _ => 97, 128⟩] := by simp [hvs]
  obtain ⟨p, hp, hv⟩ := List.mem_flatMap.mp hv
  obtain ⟨i, -, rfl⟩ := List.mem_map.mp hv
  rw [List.mem_singleton.mp hp]
  exact .inl (by simp [Visit.block, Visit.window, bytesAt])

theorem shifted_entry_hides_window :
    let line : Payload := ⟨fun j => if j = 0 then 98 else 97, 65⟩
    let next : Payload := ⟨fun _ => 97, 64⟩
    bytesAt line.bytes 1 chunkNum = bytesAt next.bytes 0 chunkNum ∧
      (calculateAll [line] start).entries.map (·.key) = [hash (bytesAt next.bytes 0 chunkNum) 64] ∧
      (calculateAll [line] start).entries.map (fun e => hash e.data 64) ≠
        (calculateAll [line] start).entries.map (·.key) ∧
      (hash (bytesAt next.bytes 0 chunkNum) 64) &&& zeroValue = 0 ∧
      (calculateAll [line, next] start).recount = 0 := by
  decide +kernel

end Wspack.Tcpre
