import Mathlib.Data.Prod.Lex
import MongolDb.Lib.OrderedScan
import MongolDb.WiredTiger.Cursor

/-! What each cursor operation does, in terms of the entries ahead of the cursor. -/
namespace MongolDb.WiredTiger
open ByteOrder KeyString OrderedScan SortedMap Cursor Option

/-- A place in an index: key bytes, then record id. -/
abbrev Point := Bytes ×ₗ RecordId

def point (k : Bytes) (id : RecordId) : Point := toLex (k, id)

def Point.key (p : Point) : Bytes := (ofLex p).1
def Point.id (p : Point) : RecordId := (ofLex p).2

/-- The record that an entry of a table is for. -/
def idOf (kind : IndexKind) (e : Bytes × Bytes) : Option RecordId :=
  match kind with
  | .standard => decodeRecordIdAtEnd e.1
  | .unique => (decodeRecordId e.2).map Prod.fst

def points (kind : IndexKind) (table : Table) : Set Point :=
  {p | ∃ v, (p.key, v) ∈ table.entries ∧ idOf kind (p.key, v) = some p.id}

/-- A cursor can read the entry; under a key of a unique index it finds one record only. -/
def Readable (kind : IndexKind) (e : Bytes × Bytes) : Prop :=
  match kind with
  | .standard =>
    (∃ id, decodeRecordIdAtEnd e.1 = some id) ∧ ∃ bits, TypeBits.fromBuffer e.2 = some bits
  | .unique => ∃ id bits, decodeRecordId e.2 = some id ∧ TypeBits.fromBuffer id.2 = some (bits, [])

section
variable {kind : IndexKind} {table : Table} {p q : Point} {k v : Bytes} {id : RecordId}
  {forward : Bool} {e : Bytes × Bytes}

theorem Point.ext (hk : p.key = q.key) (hid : p.id = q.id) : p = q :=
  ofLex.injective (Prod.ext hk hid)

theorem Readable.exists_idOf (h : Readable kind e) : ∃ id, idOf kind e = some id := by
  cases kind with
  | standard => exact h.1
  | unique =>
    obtain ⟨id, bits, hid, -⟩ := h
    exact ⟨id.1, by rw [idOf, hid]; rfl⟩

theorem point_mem_points (h : (k, v) ∈ table.entries) (hid : idOf kind (k, v) = some id) :
    point k id ∈ points kind table := ⟨v, h, hid⟩

/-- There is one record only under a key. -/
theorem eq_of_key_eq (hp : p ∈ points kind table) (hq : q ∈ points kind table)
    (h : p.key = q.key) : p = q := by
  obtain ⟨v, hv, hid⟩ := hp
  obtain ⟨w, hw, hid'⟩ := hq
  rw [h] at hv hid
  have heq : (q.key, v) = (q.key, w) := SortedMap.eq_of_key_eq table.sorted hv hw rfl
  rw [heq] at hid
  exact Point.ext h (some.inj (hid.symm.trans hid'))

theorem beyond_of_key (h : Beyond forward p.key q.key) : Beyond forward p q := by
  cases forward with
  | false | true => exact Prod.Lex.lt_iff.mpr (.inl h)

theorem beyond_iff : Beyond forward p q ↔
    Beyond forward p.key q.key ∨ p.key = q.key ∧ Beyond forward p.id q.id := by
  cases forward with
  | false =>
    refine Prod.Lex.lt_iff.trans (or_congr Iff.rfl (and_congr_left' eq_comm))
  | true => exact Prod.Lex.lt_iff

/-- The entries beyond one that is there are those under the keys beyond its key. -/
theorem beyond_iff_key (hp : p ∈ points kind table) (hq : q ∈ points kind table) :
    Beyond forward p q ↔ Beyond forward p.key q.key := by
  refine ⟨fun h => ?_, beyond_of_key⟩
  rcases beyond_iff.mp h with h | ⟨hk, -⟩
  · exact h
  · rw [eq_of_key_eq hp hq hk] at h
    exact absurd h (beyond_irrefl forward q)

end

/-! Where the WiredTiger cursor stands after a move. -/

/-- The cursor is on the first of `S`, or past the end if there is none. -/
def Lands (c : Cursor) (S : Set Point) : Prop :=
  (c.cursorAtEof = true ∧ S = ∅) ∨
    ∃ p, c.cursorAtEof = false ∧ c.position = some p.key ∧ IsFirst (Beyond c.forward) S p

section Moves
variable {kind : IndexKind} {table : Table} {c : Cursor} {k query : Bytes} {larger : Bool}

theorem lands_after (hr : ∀ e ∈ table.entries, Readable kind e) (c : Cursor) (k : Bytes) :
    Lands (c.positionAt (table.after c.forward k))
      {p ∈ points kind table | Beyond c.forward k p.key} := by
  cases hafter : table.after c.forward k with
  | none =>
    refine .inl ⟨rfl, Set.eq_empty_of_forall_notMem ?_⟩
    rintro p ⟨⟨v, hv, -⟩, hbeyond⟩
    exact after_eq_none hafter _ hv hbeyond
  | some k' =>
    obtain ⟨⟨v, hv⟩, hbeyond, hnear⟩ := after_eq_some hafter
    obtain ⟨id, hid⟩ := (hr _ hv).exists_idOf
    have hmem := point_mem_points hv hid
    refine .inr ⟨point k' id, rfl, rfl, ⟨hmem, hbeyond⟩, ?_⟩
    rintro q ⟨hq, hqb⟩
    have hq' := hq
    obtain ⟨w, hw, -⟩ := hq'
    rcases hnear _ hw hqb with h | h
    · exact .inl (eq_of_key_eq hq hmem h)
    · exact .inr (beyond_of_key h)

/-- A key that is missing has a neighbour on the side that `search_near` reports. -/
theorem searchNear_of_find_none (h : table.find query = none) (larger : Bool) :
    (searchNear table larger query = none ∧ ∀ side, table.after side query = none) ∨
      ∃ side k, searchNear table larger query = some (k, if side then .gt else .lt) ∧
        table.after side query = some k := by
  unfold searchNear
  rw [h, if_neg (by simp)]
  cases hl : table.after larger query with
  | some k => exact .inr ⟨larger, k, rfl, hl⟩
  | none =>
    cases hs : table.after (!larger) query with
    | some k =>
      refine .inr ⟨!larger, k, ?_, hs⟩
      cases larger <;> rfl
    | none =>
      refine .inl ⟨rfl, fun side => ?_⟩
      cases larger <;> cases side <;> assumption

/-- Seen from the nearest key behind `query`, the same keys lie ahead. -/
theorem beyond_behind_iff {forward : Bool} (h : table.find query = none)
    (hafter : table.after (!forward) query = some k) {e : Bytes × Bytes}
    (he : e ∈ table.entries) : Beyond forward k e.1 ↔ Beyond forward query e.1 := by
  obtain ⟨-, hbehind, hnear⟩ := after_eq_some hafter
  rw [beyond_not] at hbehind
  refine ⟨fun hke => ?_, fun hqe => hbehind.trans hqe⟩
  rcases beyond_trichotomy forward query e.1 with hlt | heq | hgt
  · exact hlt
  · exact absurd heq.symm (find_eq_none_iff.mp h e he)
  · rcases hnear e he ((beyond_not forward _ _).mpr hgt) with heq | hlt
    · rw [heq] at hke
      exact absurd hke (beyond_irrefl forward k)
    · exact absurd (((beyond_not forward _ _).mp hlt).trans hke) (beyond_irrefl forward e.1)

/-- A seek for a key that is there finds it. -/
theorem seekWTCursor_of_find_some {v : Bytes} (h : table.find query = some v) (larger : Bool)
    (c : Cursor) :
    c.seekWTCursor table larger query = (true, c.positionAt (some query)) := by
  simp [seekWTCursor, searchNear, h]

/-- A seek for a key that is missing goes to the next one in the cursor's direction. -/
theorem seekWTCursor_of_find_none (hr : ∀ e ∈ table.entries, Readable kind e)
    (h : table.find query = none) (larger : Bool) (c : Cursor) :
    (c.seekWTCursor table larger query).1 = false ∧
      (∃ o, (c.seekWTCursor table larger query).2 = c.positionAt o) ∧
      Lands (c.seekWTCursor table larger query).2
        {p ∈ points kind table | Beyond c.forward query p.key} := by
  have hland := lands_after hr c query
  rcases searchNear_of_find_none h larger with ⟨hnear, hnone⟩ | ⟨side, k, hnear, hafter⟩
  · rw [hnone c.forward] at hland
    simp only [seekWTCursor, hnear]
    exact ⟨trivial, ⟨_, rfl⟩, hland⟩
  · by_cases hside : side = c.forward
    · subst hside
      rw [hafter] at hland
      have hne : (if c.forward then Ordering.gt else .lt) ≠ if c.forward then .lt else .gt := by
        cases c.forward <;> simp
      have hne' : (if c.forward then Ordering.gt else .lt) ≠ .eq := by
        cases c.forward <;> simp
      simp only [seekWTCursor, hnear, if_neg hne, if_neg hne']
      exact ⟨trivial, ⟨_, rfl⟩, hland⟩
    · obtain rfl : side = !c.forward := by
        cases side <;> cases hf : c.forward <;> simp_all
      have heq : (if !c.forward then Ordering.gt else .lt) = if c.forward then .lt else .gt := by
        cases c.forward <;> rfl
      have hne' : (if !c.forward then Ordering.gt else .lt) ≠ .eq := by
        cases c.forward <;> simp
      have hset : {p ∈ points kind table | Beyond c.forward k p.key} =
          {p ∈ points kind table | Beyond c.forward query p.key} := by
        ext p
        refine and_congr_right ?_
        rintro ⟨v, hv, -⟩
        exact beyond_behind_iff h hafter hv
      simp only [seekWTCursor, hnear, if_neg hne', if_pos heq]
      refine ⟨trivial, ⟨_, rfl⟩, ?_⟩
      rw [← hset]
      exact lands_after hr c k

end Moves

namespace Cursor

/-- The place of the entry returned last. -/
def here (c : Cursor) : Point := point c.key.buffer c.id

/-- The places up to the end position. -/
def inBounds (c : Cursor) : Set Point :=
  {p | pastEnd c.forward c.endPosition ⟨p.key, TypeBits.reset⟩ = false}

/-- The fields that no move changes. -/
def SameScan (c c' : Cursor) : Prop :=
  c'.kind = c.kind ∧ c'.forward = c.forward ∧ c'.endPosition = c.endPosition

/-- Between a restore and the next move the cursor stands on the entry it returned last, or ahead
of where that entry was. -/
def Positioned (table : Table) (c : Cursor) : Prop :=
  if c.lastMoveWasRestore then
    Lands c {p ∈ points c.kind table | Beyond c.forward c.here p}
  else c.position = some c.key.buffer ∧ c.here ∈ points c.kind table

/-- The id of a standard cursor is the one in its key. -/
def IdInKey (c : Cursor) : Prop :=
  c.kind = .standard → decodeRecordIdAtEnd c.key.buffer = some c.id

end Cursor

def IndexKeyEntry.point (e : IndexKeyEntry) : Point := WiredTiger.point e.key e.loc

section Position
variable {table : Table} {c : Cursor} {S : Set Point} {p q : Point}

theorem compare_eq_gt_iff {a b : KeyString} :
    KeyString.compare a b = .gt ↔ b.buffer < a.buffer := by
  rw [compare_eq_lex, ← lex_swap, Ordering.swap_eq_gt, lex_eq_lt_iff]

theorem compare_eq_lt_iff {a b : KeyString} :
    KeyString.compare a b = .lt ↔ a.buffer < b.buffer := by
  rw [compare_eq_lex, lex_eq_lt_iff]

/-- What lies beyond a place that is past the end is past the end too. -/
theorem pastEnd_of_beyond {forward : Bool} {endPosition : Option KeyString} {a b : KeyString}
    (h : Cursor.pastEnd forward endPosition a = true) (hab : Beyond forward a.buffer b.buffer) :
    Cursor.pastEnd forward endPosition b = true := by
  cases endPosition with
  | none => cases h
  | some e =>
    cases forward with
    | false =>
      have hlt := compare_eq_lt_iff.mp (of_decide_eq_true h)
      exact decide_eq_true (compare_eq_lt_iff.mpr (lt_trans (show b.buffer < a.buffer from hab) hlt))
    | true =>
      have hlt := compare_eq_gt_iff.mp (of_decide_eq_true h)
      exact decide_eq_true (compare_eq_gt_iff.mpr (lt_trans hlt hab))

theorem pastEnd_congr {forward : Bool} {endPosition : Option KeyString} {a b : KeyString}
    (h : a.buffer = b.buffer) :
    Cursor.pastEnd forward endPosition a = Cursor.pastEnd forward endPosition b := by
  cases endPosition with
  | none => rfl
  | some e => simp only [pastEnd, compare_eq_lex, h]

/-- A cursor on an entry reads its id. -/
theorem updateIdAndTypeBits_eq (hr : ∀ e ∈ table.entries, Readable c.kind e)
    (hp : p ∈ points c.kind table) (hpos : c.position = some p.key) (hkey : c.key.buffer = p.key) :
    ∃ bits, c.updateIdAndTypeBits table = some { c with id := p.id, typeBits := bits } := by
  obtain ⟨v, hv, hid⟩ := hp
  have hread := hr _ hv
  have hvalue : c.getValue table = some v := by
    rw [getValue, hpos, bind_some, find_eq_some_iff.mpr hv]
  unfold updateIdAndTypeBits
  cases hk : c.kind with
  | standard =>
    rw [hk] at hread hid
    obtain ⟨bits, hbits⟩ := hread.2
    refine ⟨bits.1, ?_⟩
    simp only [hkey, hvalue, bind_some]
    rw [show decodeRecordIdAtEnd p.key = some p.id from hid, bind_some, hbits]
    rfl
  | unique =>
    rw [hk] at hread hid
    obtain ⟨id, bits, hdec, hbits⟩ := hread
    have heq : id.1 = p.id := by
      rw [idOf, hdec] at hid
      exact some.inj hid
    refine ⟨bits, ?_⟩
    simp only [hvalue, bind_some]
    rw [show decodeRecordId v = some id from hdec, bind_some, hbits, bind_some, heq]
    rfl

/-- Taking over the position of the WiredTiger cursor answers for the candidates that it was sent
to look for. -/
theorem updatePosition_spec (hr : ∀ e ∈ table.entries, Readable c.kind e)
    (hS : S ⊆ points c.kind table) (hland : Lands c S) :
    ∃ c', c.updatePosition table = some c' ∧ c.SameScan c' ∧ c'.lastMoveWasRestore = false ∧
      Answers (Beyond c.forward) S c.inBounds (c'.curr.map IndexKeyEntry.point) ∧
      (c'.eof = false → c'.position = some c'.key.buffer ∧ c'.here ∈ points c.kind table) := by
  rcases hland with ⟨hend, rfl⟩ | ⟨p, hend, hpos, hfirst⟩
  · refine ⟨{ c with lastMoveWasRestore := false, eof := true, id := RecordId.null }, ?_,
      ⟨rfl, rfl, rfl⟩, rfl, ?_, by simp⟩
    · rw [updatePosition, if_pos hend]
    · simp [curr, Answers]
  · have hkeep := hS hfirst.mem
    have hstop : (c.takeKey p.key).atOrPastEndPointAfterSeeking =
        pastEnd c.forward c.endPosition ⟨p.key, TypeBits.reset⟩ := pastEnd_congr rfl
    rw [updatePosition, if_neg (by simp [hend]), hpos, bind_some, hstop]
    cases hpast : pastEnd c.forward c.endPosition ⟨p.key, TypeBits.reset⟩ with
    | true =>
      refine ⟨_, if_pos rfl, ⟨rfl, rfl, rfl⟩, rfl, ?_, fun hc => by cases hc⟩
      intro q hq hin
      have hqpast : pastEnd c.forward c.endPosition ⟨q.key, TypeBits.reset⟩ = true := by
        rcases hfirst.least q hq with rfl | hbeyond
        · exact hpast
        · rw [beyond_iff_key hkeep (hS hq)] at hbeyond
          exact pastEnd_of_beyond hpast hbeyond
      cases hqpast.symm.trans hin
    | false =>
      obtain ⟨bits, hupdate⟩ := updateIdAndTypeBits_eq (c := c.takeKey p.key) hr hkeep hpos rfl
      rw [if_neg Bool.false_ne_true, hupdate]
      exact ⟨_, rfl, ⟨rfl, rfl, rfl⟩, rfl, ⟨hfirst, hpast⟩, fun _ => ⟨hpos, hkeep⟩⟩

end Position

section Operations
variable {table : Table} {c : Cursor} {larger : Bool}

/-- Only the WiredTiger cursor is moved. -/
theorem positionAt_eq (c : Cursor) (o : Option Bytes) :
    c.positionAt o = { c with position := o, cursorAtEof := o.isNone } := by
  cases o <;> rfl

/-- What holds once a move has taken over the position, with `S` the candidates it had. -/
structure Moved (table : Table) (c : Cursor) (S : Set Point) (c' : Cursor)
    (e : Option IndexKeyEntry) : Prop where
  same : c.SameScan c'
  curr : e = c'.curr
  answers : Answers (Beyond c.forward) S c.inBounds (e.map IndexKeyEntry.point)
  positioned : c'.eof = false → c'.Positioned table
  idInKey : c'.eof = false → c'.IdInKey

theorem idInKey_of_mem (h : c.here ∈ points c.kind table) : c.IdInKey := by
  intro hk
  obtain ⟨v, -, hid⟩ := h
  rw [hk] at hid
  exact hid

theorem moved_of_lands {S : Set Point} (hr : ∀ e ∈ table.entries, Readable c.kind e)
    (hS : S ⊆ points c.kind table) (hland : Lands c S) :
    ∃ c', c.updatePosition table = some c' ∧ Moved table c S c' c'.curr := by
  obtain ⟨c', hupdate, hsame, hmove, hanswers, hpos⟩ := updatePosition_spec hr hS hland
  refine ⟨c', hupdate, hsame, rfl, hanswers, fun he => ?_, fun he => ?_⟩
  · rw [Cursor.Positioned, hmove, if_neg Bool.false_ne_true, hsame.1]
    exact hpos he
  · exact idInKey_of_mem (hsame.1 ▸ (hpos he).2)

theorem moved_of_positionAt {S : Set Point} (hr : ∀ e ∈ table.entries, Readable c.kind e)
    (hS : S ⊆ points c.kind table) {o : Option Bytes} (hland : Lands (c.positionAt o) S) :
    ∃ c', (c.positionAt o).updatePosition table = some c' ∧ Moved table c S c' c'.curr := by
  rw [positionAt_eq] at hland ⊢
  obtain ⟨c', hupdate, hm⟩ :=
    moved_of_lands (c := { c with position := o, cursorAtEof := o.isNone }) hr hS hland
  exact ⟨c', hupdate, hm.same, hm.curr, hm.answers, hm.positioned, hm.idInKey⟩

/-- The candidates of a seek: everything from the query on. -/
def fromQuery (forward : Bool) (query : Bytes) : Set Point :=
  {p | p.key = query ∨ Beyond forward query p.key}

theorem seekQuery_spec (hr : ∀ e ∈ table.entries, Readable c.kind e) (larger : Bool)
    (query : KeyString) :
    ∃ c' e, c.seekQuery table larger query = some (c', e) ∧
      Moved table c (points c.kind table ∩ fromQuery c.forward query.buffer) c' e := by
  obtain ⟨o, hseek, hland⟩ : ∃ o, (c.seekWTCursor table larger query.buffer).2 = c.positionAt o ∧
      Lands (c.positionAt o) (points c.kind table ∩ fromQuery c.forward query.buffer) := by
    cases hfind : table.find query.buffer with
    | none =>
      obtain ⟨-, ⟨o, ho⟩, hland⟩ := seekWTCursor_of_find_none hr hfind larger c
      refine ⟨o, ho, ?_⟩
      rw [ho] at hland
      convert hland using 1
      ext p
      refine and_congr_right ?_
      rintro ⟨v, hv, -⟩
      exact or_iff_right (find_eq_none_iff.mp hfind _ hv)
    | some v =>
      have hv := find_eq_some_iff.mp hfind
      obtain ⟨id, hid⟩ := (hr _ hv).exists_idOf
      have hmem := point_mem_points hv hid
      rw [seekWTCursor_of_find_some hfind]
      refine ⟨some query.buffer, rfl,
        .inr ⟨point query.buffer id, rfl, rfl, ⟨hmem, .inl rfl⟩, ?_⟩⟩
      rintro q ⟨hq, hkey | hbeyond⟩
      · exact .inl (eq_of_key_eq hq hmem hkey)
      · exact .inr (beyond_of_key hbeyond)
  obtain ⟨c', hupdate, hmoved⟩ := moved_of_positionAt hr Set.inter_subset_left hland
  exact ⟨c', c'.curr, by rw [seekQuery, hseek, hupdate]; rfl, hmoved⟩

/-- No entry under the cursor's own key is ahead: what is ahead has a key ahead. -/
theorem points_beyond (h : ∀ q ∈ points c.kind table, Beyond c.forward c.here q →
      Beyond c.forward c.key.buffer q.key) :
    {p ∈ points c.kind table | Beyond c.forward c.key.buffer p.key} =
      {p ∈ points c.kind table | Beyond c.forward c.here p} := by
  ext q
  exact and_congr_right fun hq => ⟨beyond_of_key (p := c.here), h q hq⟩

theorem next_spec (hr : ∀ e ∈ table.entries, Readable c.kind e) (heof : c.eof = false)
    (hpos : c.Positioned table) :
    ∃ c' e, c.next table = some (c', e) ∧
      Moved table c {p ∈ points c.kind table | Beyond c.forward c.here p} c' e := by
  unfold Cursor.Positioned at hpos
  simp only [next, heof, Bool.false_eq_true, if_false]
  cases hlast : c.lastMoveWasRestore with
  | true =>
    -- the restore has left the cursor where this move would take it
    rw [hlast, if_pos rfl] at hpos
    obtain ⟨c', hupdate, hmoved⟩ := moved_of_lands hr (Set.sep_subset _ _) hpos
    exact ⟨c', c'.curr, by rw [if_pos rfl, hupdate]; rfl, hmoved⟩
  | false =>
    rw [hlast, if_neg Bool.false_ne_true] at hpos
    obtain ⟨hposition, hhere⟩ := hpos
    have hland := lands_after hr c c.key.buffer
    rw [points_beyond fun q hq hb => (beyond_iff_key hhere hq).mp hb] at hland
    obtain ⟨c', hupdate, hmoved⟩ := moved_of_positionAt hr (Set.sep_subset _ _) hland
    refine ⟨c', c'.curr, ?_, hmoved⟩
    rw [if_neg Bool.false_ne_true, advanceWTCursor, hposition, hupdate]
    rfl

theorem restore_of_eof (h : c.eof = true) (larger : Bool) :
    c.restore table larger = some c := by
  have hbase : c.restoreBase table larger = c := if_pos h
  unfold restore
  cases c.kind with
  | standard => simp only [hbase]
  | unique =>
    simp only [hbase, checkId, h, if_true]
    split <;> rfl

/-- What a restore leaves as it was. -/
def SamePlace (c c' : Cursor) : Prop :=
  c.SameScan c' ∧ c'.key = c.key ∧ c'.id = c.id ∧ c'.typeBits = c.typeBits ∧ c'.eof = c.eof

/-- The entry is gone with its key: the cursor stands ahead of it. -/
theorem restoreBase_of_find_none (hr : ∀ e ∈ table.entries, Readable c.kind e)
    (heof : c.eof = false) (hfind : table.find c.key.buffer = none) (larger : Bool) :
    (c.restoreBase table larger).lastMoveWasRestore = true ∧
      SamePlace c (c.restoreBase table larger) ∧
      (c.restoreBase table larger).Positioned table := by
  obtain ⟨hnot, ⟨o, ho⟩, hland⟩ := seekWTCursor_of_find_none hr hfind larger c
  have hgone : ∀ q ∈ points c.kind table, Beyond c.forward c.here q →
      Beyond c.forward c.key.buffer q.key := by
    rintro q ⟨v, hv, -⟩ hb
    exact (beyond_iff.mp hb).resolve_right fun h => find_eq_none_iff.mp hfind _ hv h.1.symm
  rw [points_beyond hgone, ho] at hland
  have hbase : c.restoreBase table larger = (c.positionAt o).setLastMoveWasRestore true := by
    simp [restoreBase, heof, hnot, ho]
  rw [hbase, positionAt_eq]
  rw [positionAt_eq] at hland
  exact ⟨rfl, ⟨⟨rfl, rfl, rfl⟩, rfl, rfl, rfl, rfl⟩, hland⟩

theorem restoreBase_of_find_some {v : Bytes} (heof : c.eof = false)
    (hfind : table.find c.key.buffer = some v) (larger : Bool) :
    c.restoreBase table larger = { c with
      position := some c.key.buffer, cursorAtEof := false, lastMoveWasRestore := false } := by
  rw [restoreBase, if_neg (by simp [heof]), seekWTCursor_of_find_some hfind]
  rfl

/-- The test that sends a unique cursor on: the id under its key lies behind the one returned. -/
theorem passed_iff {forward : Bool} {a b : RecordId} :
    ((forward && decide (a < b)) || (!forward && decide (b < a))) = true ↔ Beyond forward a b := by
  cases forward <;> simp [Beyond]

/-- The key is still there, with a record that may be another one. -/
theorem checkId_spec {v : Bytes} {id : RecordId} (hr : ∀ e ∈ table.entries, Readable c.kind e)
    (heof : c.eof = false) (hlast : c.lastMoveWasRestore = false)
    (hpos : c.position = some c.key.buffer) (hend : c.cursorAtEof = false)
    (hfind : table.find c.key.buffer = some v)
    (hmem : point c.key.buffer id ∈ points c.kind table)
    (hid : (decodeRecordId v).map Prod.fst = some id) :
    ∃ c', c.checkId table = some c' ∧ SamePlace c c' ∧ c'.Positioned table := by
  obtain ⟨dec, hdec, rfl⟩ := map_eq_some_iff.mp hid
  have hvalue : c.getValue table = some v := by
    rw [getValue, hpos, bind_some, hfind]
  have hunder : ∀ q ∈ points c.kind table, c.key.buffer = q.key →
      q = point c.key.buffer dec.1 :=
    fun q hq hk => eq_of_key_eq hq hmem hk.symm
  rw [checkId, if_neg (by simp [hlast]), if_neg (by simp [heof]), hvalue,
    bind_some, hdec, map_some]
  refine ⟨_, rfl, ?_⟩
  by_cases hsame : dec.1 = c.id
  · rw [if_pos hsame]
    refine ⟨⟨⟨rfl, rfl, rfl⟩, rfl, rfl, rfl, rfl⟩, ?_⟩
    rw [Cursor.Positioned, hlast, if_neg Bool.false_ne_true]
    exact ⟨hpos, by rw [here, ← hsame]; exact hmem⟩
  · rw [if_neg hsame]
    by_cases hpassed : Beyond c.forward dec.1 c.id
    · -- the record under the key lies behind: go on to the next key
      rw [if_pos (passed_iff.mpr hpassed)]
      have hadvance : (c.setLastMoveWasRestore true).advanceWTCursor table =
          (c.positionAt (table.after c.forward c.key.buffer)).setLastMoveWasRestore true := by
        simp only [advanceWTCursor, setLastMoveWasRestore, hpos, positionAt_eq]
      have hland := lands_after hr c c.key.buffer
      have hbehind : ∀ q ∈ points c.kind table, Beyond c.forward c.here q →
          Beyond c.forward c.key.buffer q.key := by
        intro q hq hb
        refine (beyond_iff.mp hb).resolve_right fun ⟨hk, hbeyond⟩ => ?_
        rw [hunder q hq hk] at hbeyond
        exact beyond_irrefl c.forward dec.1 (hpassed.trans hbeyond)
      rw [points_beyond hbehind, positionAt_eq] at hland
      rw [hadvance, positionAt_eq]
      exact ⟨⟨⟨rfl, rfl, rfl⟩, rfl, rfl, rfl, rfl⟩, hland⟩
    · -- the record under the key lies ahead: it is the next one to return
      rw [if_neg fun h => hpassed (passed_iff.mp h)]
      have hahead : Beyond c.forward c.id dec.1 :=
        ((beyond_trichotomy c.forward dec.1 c.id).resolve_left hpassed).resolve_left hsame
      refine ⟨⟨⟨rfl, rfl, rfl⟩, rfl, rfl, rfl, rfl⟩, ?_⟩
      refine .inr ⟨point c.key.buffer dec.1, hend, hpos, ⟨hmem, beyond_iff.mpr (.inr ⟨rfl, hahead⟩)⟩,
        ?_⟩
      rintro q ⟨hq, hbeyond⟩
      rcases beyond_iff.mp hbeyond with h | ⟨hk, -⟩
      · exact .inr (beyond_of_key (p := point c.key.buffer dec.1) h)
      · exact .inl (hunder q hq hk)

/-- A restore keeps the place, and finds what is ahead of it now. -/
theorem restore_spec (hr : ∀ e ∈ table.entries, Readable c.kind e) (heof : c.eof = false)
    (hid : c.IdInKey) (larger : Bool) :
    ∃ c', c.restore table larger = some c' ∧ SamePlace c c' ∧ c'.Positioned table := by
  unfold restore
  cases hfind : table.find c.key.buffer with
  | none =>
    obtain ⟨hlast, hsame, hpos⟩ := restoreBase_of_find_none hr heof hfind larger
    refine ⟨c.restoreBase table larger, ?_, hsame, hpos⟩
    cases c.kind with
    | standard => rfl
    | unique => simp [checkId, hlast]
  | some v =>
    have hv := find_eq_some_iff.mp hfind
    have hbase := restoreBase_of_find_some heof hfind larger
    obtain ⟨id, hidOf⟩ := (hr _ hv).exists_idOf
    have hmem := point_mem_points hv hidOf
    cases hkind : c.kind with
    | standard =>
      refine ⟨_, rfl, ?_⟩
      rw [hbase]
      refine ⟨⟨⟨rfl, rfl, rfl⟩, rfl, rfl, rfl, rfl⟩, ?_⟩
      -- the id is part of the key that was found
      rw [hkind] at hidOf
      obtain rfl : id = c.id := some.inj (hidOf.symm.trans (hid hkind))
      exact ⟨rfl, hmem⟩
    | unique =>
      rw [hkind] at hidOf
      simp only [hbase]
      exact checkId_spec (c := { c with
        position := some c.key.buffer, cursorAtEof := false, lastMoveWasRestore := false })
        hr heof rfl rfl rfl hfind hmem hidOf

end Operations

end MongolDb.WiredTiger
