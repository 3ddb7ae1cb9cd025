import MongolDb.WiredTiger.CursorSteps
import MongolDb.WiredTiger.UniqueIndex

/-! Whole scans: a seek, then moves, saves and restores, while other clients change the index. -/
namespace MongolDb.WiredTiger
open ByteOrder Bson KeyString OrderedScan SortedMap Option

/-- What a client puts into an index: a key and the record it is for. -/
abbrev Entry := KeyObject × RecordId

section
variable (kind : IndexKind) (ord : KeyOrdering)

/-- The bytes under which an index keeps an entry. -/
def storedKey (a : Entry) : Bytes :=
  match kind with
  | .standard => (keyString ord a.1).buffer ++ recordIdBytes a.2.value
  | .unique => (keyString ord a.1).buffer

def Entry.point (a : Entry) : Point :=
  WiredTiger.point (storedKey kind ord a) a.2

/-- The index holds the entry. -/
def Holds (table : Table) (a : Entry) : Prop :=
  a.2.isNormal = true ∧ a.point kind ord ∈ points kind table

/-- The order of entries: by key, then by record id. -/
def compareEntries (a b : Entry) : Ordering :=
  (keptOrder ord a.1.fields b.1.fields).then (compare a.2 b.2)

/-- `a` comes before `b` in the direction of the scan. -/
def Before (forward : Bool) (a b : Entry) : Prop :=
  compareEntries ord a b = if forward then .lt else .gt

/-- The cursor has returned the entry `a`. -/
def IndexKeyEntry.Is (e : IndexKeyEntry) (a : Entry) : Prop :=
  a.2.isNormal = true ∧ e.key = storedKey kind ord a ∧ e.loc = a.2

/-! Changes by other clients. While cursors are open a unique index holds no duplicates. -/

inductive Change where
  | insert (key : KeyObject) (id : RecordId)
  | unindex (key : KeyObject) (id : RecordId)

def Change.apply : Change → Table → Option Table
  | .insert key id, table =>
    (kind.insert ord table key.fields id (decide (kind = .standard))).map Prod.fst
  | .unindex key id, table =>
    kind.unindex ord table key.fields id (decide (kind = .standard))

/-- The entry of the table was put there for some key and record. -/
def FromEntry (e : Bytes × Bytes) : Prop :=
  Readable kind e ∧ ∃ a : Entry, a.2.isNormal = true ∧ e.1 = storedKey kind ord a ∧
    idOf kind e = some a.2

end

section Changes
variable {kind : IndexKind} {ord : KeyOrdering} {table table' : Table} {key : KeyObject}
  {id : RecordId}

theorem appendRecordId_storedKey (hid : id.isNormal = true) :
    Standard.keyString ord key.fields id =
      some { keyString ord key with buffer := storedKey .standard ord (key, id) } := by
  rw [Standard.keyString, resetToKey_eq_keyString, bind_some,
    appendRecordId_of_isNormal hid]
  rfl

theorem fromEntry_standard (hid : id.isNormal = true) (hsize : checkKeySize key.fields = .ok) :
    FromEntry .standard ord (storedKey .standard ord (key, id),
      if (keyString ord key).typeBits.isAllZeros then []
      else (keyString ord key).typeBits.getBuffer) := by
  have hnew := storable_of_size hid hsize
  have hend := decodeRecordIdAtEnd_of_nonneg (RecordId.repr_nonneg hid) (keyString ord key).buffer
  refine ⟨⟨⟨id, hend⟩, ?_⟩, (key, id), hid, rfl, hend⟩
  cases (keyString ord key).typeBits.isAllZeros with
  | true => exact ⟨_, rfl⟩
  | false =>
    rw [keyString_eq]
    obtain ⟨bits, hbits, -⟩ := (encodes_of_storable hnew).fromBuffer hnew.2 []
    rw [List.append_nil] at hbits
    exact ⟨_, hbits⟩

theorem fromEntry_unique {value : Bytes} (hid : id.isNormal = true)
    (hsize : checkKeySize key.fields = .ok)
    (hvalue : onlyRecord id (keyString ord key).typeBits = some value) :
    FromEntry .unique ord (storedKey .unique ord (key, id), value) := by
  have hnew := storable_of_size hid hsize
  have henc : (keyString ord key).typeBits.Encodes (keyBits key.fields) := by
    rw [keyString_eq]
    exact encodes_of_storable hnew
  obtain ⟨value', hvalue', hparse⟩ := parses_onlyRecord hnew henc
  obtain rfl := some.inj (hvalue.symm.trans hvalue')
  cases hparse with
  | cons hdec hbits _ _ hrest =>
    cases hrest
    exact ⟨⟨_, _, hdec, hbits⟩, (key, id), hid, rfl, by rw [idOf, hdec]; rfl⟩

section
variable (h : ∀ e ∈ table.entries, FromEntry kind ord e)
include h

theorem fromEntry_put {k v : Bytes}
    (hnew : FromEntry kind ord (k, v)) : ∀ e ∈ (table.put k v).entries, FromEntry kind ord e := by
  intro e he
  rcases mem_put.mp he with rfl | ⟨-, he⟩
  · exact hnew
  · exact h e he

theorem fromEntry_erase {k : Bytes} : ∀ e ∈ (table.erase k).entries, FromEntry kind ord e :=
  fun e he => h e (mem_erase.mp he).2

theorem fromEntry_insert (hs : (Change.insert key id).apply kind ord table = some table') :
    ∀ e ∈ table'.entries, FromEntry kind ord e := by
  obtain ⟨out, hout, rfl⟩ := map_eq_some_iff.mp hs
  unfold IndexKind.insert at hout
  split at hout
  · rename_i hid
    split at hout
    · rename_i hsize
      cases kind with
      | standard =>
        simp only [IndexKind.insertEntry, decide_true, if_true, Standard.insert,
          appendRecordId_storedKey hid, map_some, some.injEq] at hout
        subst hout
        split
        · exact fromEntry_put h (fromEntry_standard hid hsize)
        · exact h
      | unique =>
        simp only [IndexKind.insertEntry, reduceCtorEq, decide_false, Unique.insert,
          resetToKey_eq_keyString, bind_some, Bool.not_false, if_true] at hout
        obtain ⟨value, hvalue, hout⟩ := bind_eq_some_iff.mp hout
        split at hout
        · cases hout
          exact fromEntry_put h (fromEntry_unique hid hsize hvalue)
        · -- without duplicates allowed the table stays as it is
          obtain ⟨copied, -, hout⟩ := bind_eq_some_iff.mp hout
          cases copied <;> (cases hout; exact h)
    · cases hout
      exact h
  · cases hout

theorem fromEntry_unindex (hs : (Change.unindex key id).apply kind ord table = some table') :
    ∀ e ∈ table'.entries, FromEntry kind ord e := by
  simp only [Change.apply, IndexKind.unindex] at hs
  split at hs
  · rename_i hid
    cases kind with
    | standard =>
      simp only [IndexKind.unindexEntry, decide_true, if_true, Standard.unindex,
        appendRecordId_storedKey hid, map_some, some.injEq] at hs
      subst hs
      exact fromEntry_erase h
    | unique =>
      simp only [IndexKind.unindexEntry, reduceCtorEq, decide_false, Unique.unindex,
        resetToKey_eq_keyString, bind_some, Bool.not_false, if_true,
        some.injEq] at hs
      subst hs
      exact fromEntry_erase h
  · cases hs

theorem fromEntry_apply {change : Change} (hs : change.apply kind ord table = some table') :
    ∀ e ∈ table'.entries, FromEntry kind ord e := by
  cases change with
  | insert key id => exact fromEntry_insert h hs
  | unindex key id => exact fromEntry_unindex h hs

end

end Changes

/-! The places of entries stand in the order of keys and record ids. -/

section
variable {kind : IndexKind} {ord : KeyOrdering} {a b : Entry} {forward : Bool}

theorem lt_of_below {u v : Bytes} (h : Below u v) : u < v := lex_eq_lt_iff.mp h.lex_eq_lt

/-- Two places in the order `o`. -/
def PointOrder (o : Ordering) (p q : Point) : Prop :=
  match o with
  | .lt => p < q
  | .eq => p = q
  | .gt => q < p

theorem pointOrder_of_ordered {o : Ordering} {u v : Bytes} {i j : RecordId} (h : Ordered o u v)
    (heq : o = .eq → i = j) : PointOrder o (point u i) (point v j) := by
  cases o with
  | lt => exact Prod.Lex.lt_iff.mpr (.inl (lt_of_below h))
  | eq =>
    obtain rfl : u = v := h
    rw [heq rfl]
    rfl
  | gt => exact Prod.Lex.lt_iff.mpr (.inl (lt_of_below h))

theorem pointOrder_point (kind : IndexKind) (ord : KeyOrdering) (ha : a.2.isNormal = true) (hb : b.2.isNormal = true) :
    PointOrder (compareEntries ord a b) (a.point kind ord) (b.point kind ord) := by
  have hkey := ordered_keyString ord a.1 b.1
  cases kind with
  | standard =>
    have hid : Ordered (compare a.2 b.2) (recordIdBytes a.2.value) (recordIdBytes b.2.value) := by
      rw [← RecordId.compare_value ha hb]
      exact ordered_recordIdBytes a.2.value_lt b.2.value_lt
    refine pointOrder_of_ordered (hkey.then_ordered fun _ => hid) fun heq => ?_
    exact compare_eq_iff_eq.mp (Ordering.then_eq_eq.mp heq).2
  | unique =>
    unfold compareEntries
    cases hc : keptOrder ord a.1.fields b.1.fields with
    | lt =>
      rw [hc] at hkey
      exact pointOrder_of_ordered hkey (by simp)
    | gt =>
      rw [hc] at hkey
      exact pointOrder_of_ordered hkey (by simp)
    | eq =>
      rw [hc] at hkey
      have hpoint : b.point .unique ord = point (keyString ord a.1).buffer b.2 := by
        rw [show (keyString ord a.1).buffer = (keyString ord b.1).buffer from hkey]
        rfl
      rw [hpoint]
      rcases lt_trichotomy a.2 b.2 with h | h | h
      · rw [compare_lt_iff_lt.mpr h]
        exact Prod.Lex.lt_iff.mpr (.inr ⟨rfl, h⟩)
      · rw [compare_eq_iff_eq.mpr h, ← h]
        rfl
      · rw [compare_gt_iff_gt.mpr h]
        exact Prod.Lex.lt_iff.mpr (.inr ⟨rfl, h⟩)

theorem before_of_beyond (ha : a.2.isNormal = true) (hb : b.2.isNormal = true)
    (h : Beyond forward (a.point kind ord) (b.point kind ord)) : Before ord forward a b := by
  have horder := pointOrder_point kind ord ha hb
  unfold Before
  cases hc : compareEntries ord a b with
  | lt =>
    rw [hc] at horder
    cases forward with
    | true => rfl
    | false => exact absurd (lt_trans (show _ < _ from horder) h) (lt_irrefl _)
  | eq =>
    rw [hc] at horder
    rw [show a.point kind ord = b.point kind ord from horder] at h
    exact absurd h (beyond_irrefl forward _)
  | gt =>
    rw [hc] at horder
    cases forward with
    | true => exact absurd (lt_trans (show _ < _ from horder) h) (lt_irrefl _)
    | false => rfl

end

/-! Runs. -/

/-- A scan under way: the index, the cursor, whether it is saved, what it has returned since the
seek, and the entries that the index has held ever since. -/
structure ScanState where
  table : Table
  cursor : Cursor
  saved : Bool
  returned : List IndexKeyEntry
  kept : Set Entry

inductive Action where
  | next
  | save
  | restore (larger : Bool)
  | change (change : Change)

namespace ScanState

def seek (ord : KeyOrdering) (table : Table) (larger : Bool) (query : KeyString) (c : Cursor) :
    Option ScanState :=
  (c.seekQuery table larger query).map fun r =>
    ⟨table, r.1, false, r.2.toList, {a | Holds c.kind ord table a}⟩

/-- Other clients change the index only between a save and the following restore. -/
def step (ord : KeyOrdering) : Action → ScanState → Option ScanState
  | .next, s =>
    if s.saved then none
    else (s.cursor.next s.table).map fun r =>
      { s with cursor := r.1, returned := s.returned ++ r.2.toList }
  | .save, s => some { s with cursor := s.cursor.save, saved := true }
  | .restore larger, s =>
    if s.saved then
      (s.cursor.restore s.table larger).map fun c => { s with cursor := c, saved := false }
    else none
  | .change change, s =>
    if s.saved then
      (change.apply s.cursor.kind ord s.table).map fun table =>
        { s with table := table, kept := {a ∈ s.kept | Holds s.cursor.kind ord table a} }
    else none

end ScanState

/-- The scan from `query` on, with the cursor's end position, has gone as it should. -/
structure ScanExact (ord : KeyOrdering) (c : Cursor) (query : KeyString) (s : ScanState) :
    Prop where
  entries : ∀ e ∈ s.returned, ∃ a, e.Is c.kind ord a
  ordered : s.returned.Pairwise fun e e' =>
    ∀ a b, e.Is c.kind ord a → e'.Is c.kind ord b → Before ord c.forward a b
  bounded : ∀ e ∈ s.returned, Cursor.pastEnd c.forward c.endPosition ⟨e.key, e.typeBits⟩ = false
  complete : ∀ a ∈ s.kept,
    KeyString.compare ⟨storedKey c.kind ord a, TypeBits.reset⟩ query ≠
      (if c.forward then .lt else .gt) →
    Cursor.pastEnd c.forward c.endPosition ⟨storedKey c.kind ord a, TypeBits.reset⟩ = false →
    (∃ e ∈ s.returned, e.Is c.kind ord a) ∨
      s.cursor.eof = false ∧ ∀ e, s.returned.getLast? = some e →
        ∀ b, e.Is c.kind ord b → Before ord c.forward b a

/-- How a scan that has begun with the cursor `c` keeps to the abstract one. -/
structure Tracks (ord : KeyOrdering) (c : Cursor) (query : Bytes) (s : ScanState) : Prop where
  table : ∀ e ∈ s.table.entries, FromEntry c.kind ord e
  same : c.SameScan s.cursor
  scan : ∃ K, Scan (Beyond c.forward) (fromQuery c.forward query) c.inBounds
    (points c.kind s.table) K (s.returned.map IndexKeyEntry.point) s.cursor.eof ∧
      ∀ a ∈ s.kept, a.point c.kind ord ∈ K
  normal : ∀ a ∈ s.kept, a.2.isNormal = true
  returned : ∀ e ∈ s.returned, ∃ a, e.Is c.kind ord a
  last : s.cursor.eof = false →
    (s.returned.map IndexKeyEntry.point).getLast? = some s.cursor.here ∧ s.cursor.IdInKey
  positioned : s.saved = false → s.cursor.eof = false → s.cursor.Positioned s.table

section Runs
variable {ord : KeyOrdering} {table : Table} {c c' : Cursor} {query : KeyString}
  {s t : ScanState} {e : Option IndexKeyEntry}

theorem isNone_curr (c : Cursor) : (c.curr.map IndexKeyEntry.point).isNone = c.eof := by
  unfold Cursor.curr
  cases c.eof <;> rfl

theorem toList_map_point (e : Option IndexKeyEntry) :
    (e.map IndexKeyEntry.point).toList = e.toList.map IndexKeyEntry.point := by
  cases e <;> rfl

/-- What is at a place of the table has been put there as an entry. -/
theorem exists_entry (ht : ∀ e ∈ table.entries, FromEntry c.kind ord e) {p : Point}
    (hp : p ∈ points c.kind table) {e : IndexKeyEntry} (he : e.point = p) :
    ∃ a, e.Is c.kind ord a := by
  obtain ⟨v, hv, hid⟩ := hp
  obtain ⟨-, a, hnormal, hkey, hid'⟩ := ht _ hv
  refine ⟨a, hnormal, ?_, ?_⟩
  · rw [← hkey, ← he]
    rfl
  · rw [← he] at hid hid'
    exact some.inj (hid.symm.trans hid')

/-- The answer of a move is an entry of the table. -/
theorem Moved.exists_entry {S : Set Point} (h : Moved table c S c' e)
    (ht : ∀ e ∈ table.entries, FromEntry c.kind ord e) (hS : S ⊆ points c.kind table) :
    ∀ r ∈ e.toList, ∃ a, r.Is c.kind ord a := by
  intro r hr
  obtain rfl : e = some r := by simpa using hr
  exact WiredTiger.exists_entry ht (hS h.answers.1.mem) rfl

theorem getLast?_append_curr {l : List Point} (h : c.eof = false) :
    (l ++ (c.curr.map IndexKeyEntry.point).toList).getLast? = some c.here := by
  simp only [Cursor.curr, h, Bool.false_eq_true, if_false, map_some, toList_some,
    List.getLast?_append_of_ne_nil, ne_eq, List.cons_ne_nil, not_false_eq_true,
    List.getLast?_singleton]
  rfl

theorem sameScan_inBounds (h : c.SameScan c') : c'.inBounds = c.inBounds := by
  unfold Cursor.inBounds
  rw [h.2.1, h.2.2]

theorem Cursor.SameScan.trans {c'' : Cursor} (h : c.SameScan c') (h' : c'.SameScan c'') :
    c.SameScan c'' :=
  ⟨h'.1.trans h.1, h'.2.1.trans h.2.1, h'.2.2.trans h.2.2⟩

theorem Tracks.readable {q : Bytes} (h : Tracks ord c q s) :
    ∀ e ∈ s.table.entries, Readable s.cursor.kind e := by
  rw [h.same.1]
  exact fun e he => (h.table e he).1

theorem tracks_seek (ht : ∀ e ∈ table.entries, FromEntry c.kind ord e) (larger : Bool)
    (query : KeyString) :
    ∃ s, ScanState.seek ord table larger query c = some s ∧ Tracks ord c query.buffer s := by
  obtain ⟨c', e, hseek, hm⟩ := seekQuery_spec (fun e he => (ht e he).1) larger query
  obtain rfl := hm.curr
  have hscan := Scan.seek hm.answers
  rw [isNone_curr, toList_map_point] at hscan
  refine ⟨⟨table, c', false, c'.curr.toList, {a | Holds c.kind ord table a}⟩,
    by rw [ScanState.seek, hseek]; rfl, ?_⟩
  refine ⟨ht, hm.same, ⟨_, hscan, fun a ha => ha.2⟩, fun a ha => ha.1,
    hm.exists_entry ht Set.inter_subset_left, fun he => ⟨?_, hm.idInKey he⟩,
    fun _ => hm.positioned⟩
  have hlast := getLast?_append_curr (l := []) he
  rwa [List.nil_append, toList_map_point] at hlast

theorem tracks_next {q : Bytes} (h : Tracks ord c q s) (hsaved : s.saved = false) :
    ∃ t, s.step ord .next = some t ∧ Tracks ord c q t := by
  rw [ScanState.step, if_neg (by simp [hsaved])]
  cases heof : s.cursor.eof with
  | true =>
    have hnext : s.cursor.next s.table = some (s.cursor, none) := if_pos heof
    refine ⟨s, ?_, h⟩
    rw [hnext, map_some, toList_none, List.append_nil]
  | false =>
    obtain ⟨K, hscan, hkept⟩ := h.scan
    obtain ⟨hlast, -⟩ := h.last heof
    obtain ⟨c', e, hnext, hm⟩ := next_spec h.readable heof (h.positioned hsaved heof)
    obtain rfl := hm.curr
    have hanswers := hm.answers
    rw [sameScan_inBounds h.same, h.same.1, h.same.2.1] at hanswers
    rw [heof] at hscan
    have hscan' := hscan.next hlast hanswers
    rw [isNone_curr, toList_map_point, ← List.map_append] at hscan'
    refine ⟨{ s with cursor := c', returned := s.returned ++ c'.curr.toList },
      by rw [hnext]; rfl, ?_⟩
    refine ⟨h.table, h.same.trans hm.same, ⟨K, hscan', hkept⟩, h.normal, fun r hr => ?_,
      fun he => ⟨?_, hm.idInKey he⟩, fun _ => hm.positioned⟩
    · rcases List.mem_append.mp hr with hr | hr
      · exact h.returned r hr
      · have htable := h.table
        rw [← h.same.1] at htable ⊢
        exact hm.exists_entry htable (Set.sep_subset _ _) r hr
    · rw [List.map_append, ← toList_map_point]
      exact getLast?_append_curr he

theorem tracks_restore {q : Bytes} (h : Tracks ord c q s) (hsaved : s.saved = true)
    (larger : Bool) :
    ∃ t, s.step ord (.restore larger) = some t ∧ Tracks ord c q t := by
  rw [ScanState.step, if_pos hsaved]
  cases heof : s.cursor.eof with
  | true =>
    refine ⟨{ s with saved := false }, by rw [restore_of_eof heof]; rfl, ?_⟩
    refine ⟨h.table, h.same, h.scan, h.normal, h.returned, h.last, fun _ he => ?_⟩
    cases heof.symm.trans he
  | false =>
    obtain ⟨hlast, hid⟩ := h.last heof
    obtain ⟨c', hrestore, ⟨hsame, hkey, hid', -, heof'⟩, hpos⟩ :=
      restore_spec h.readable heof hid larger
    have hhere : c'.here = s.cursor.here := by rw [Cursor.here, hkey, hid']; rfl
    refine ⟨{ s with cursor := c', saved := false }, by rw [hrestore]; rfl, ?_⟩
    refine ⟨h.table, h.same.trans hsame, ?_, h.normal, h.returned, fun _ => ⟨?_, ?_⟩,
      fun _ _ => hpos⟩
    · simp only [heof']
      exact h.scan
    · rw [hhere]
      exact hlast
    · intro hk
      rw [hkey, hid']
      exact hid (hsame.1.symm.trans hk)

theorem tracks_change {q : Bytes} {change : Change} (h : Tracks ord c q s)
    (hs : s.step ord (.change change) = some t) : Tracks ord c q t := by
  rw [ScanState.step] at hs
  split at hs
  · rename_i hsaved
    obtain ⟨table, htable, rfl⟩ := map_eq_some_iff.mp hs
    obtain ⟨K, hscan, hkept⟩ := h.scan
    rw [h.same.1] at htable
    refine ⟨fromEntry_apply h.table htable, h.same,
      ⟨_, hscan.change (points c.kind table), fun a ha => ?_⟩, fun a ha => h.normal a ha.1,
      h.returned, h.last, fun hc => by cases hsaved.symm.trans hc⟩
    have hholds := ha.2
    rw [h.same.1] at hholds
    exact ⟨hkept a ha.1, hholds.2⟩
  · cases hs

theorem tracks_step {q : Bytes} {action : Action} (h : Tracks ord c q s)
    (hs : s.step ord action = some t) : Tracks ord c q t := by
  cases action with
  | next =>
    cases hsaved : s.saved with
    | true =>
      rw [ScanState.step, if_pos hsaved] at hs
      cases hs
    | false =>
      obtain ⟨t', ht', htracks⟩ := tracks_next h hsaved
      cases ht'.symm.trans hs
      exact htracks
  | save =>
    cases hs
    exact ⟨h.table, h.same, h.scan, h.normal, h.returned, h.last, fun hc => by cases hc⟩
  | restore larger =>
    cases hsaved : s.saved with
    | true =>
      obtain ⟨t', ht', htracks⟩ := tracks_restore h hsaved larger
      cases ht'.symm.trans hs
      exact htracks
    | false =>
      rw [ScanState.step, if_neg (by simp [hsaved])] at hs
      cases hs
  | change change => exact tracks_change h hs

theorem IndexKeyEntry.Is.point_eq {kind : IndexKind} {r : IndexKeyEntry} {a : Entry}
    (h : r.Is kind ord a) : r.point = a.point kind ord := by
  rw [IndexKeyEntry.point, h.2.1, h.2.2]
  rfl

/-- What does not lie behind the query is a candidate of the seek. -/
theorem mem_fromQuery {p : Point} (h : KeyString.compare ⟨p.key, TypeBits.reset⟩ query ≠
    if c.forward then .lt else .gt) : p ∈ fromQuery c.forward query.buffer := by
  rcases beyond_trichotomy c.forward query.buffer p.key with hlt | heq | hgt
  · exact .inr hlt
  · exact .inl heq.symm
  · refine absurd ?_ h
    cases hf : c.forward with
    | false =>
      rw [hf] at hgt
      exact compare_eq_gt_iff.mpr hgt
    | true =>
      rw [hf] at hgt
      exact compare_eq_lt_iff.mpr hgt

theorem scanExact_of_tracks (h : Tracks ord c query.buffer s) : ScanExact ord c query s := by
  obtain ⟨K, hscan, hkept⟩ := h.scan
  refine ⟨h.returned, ?_, fun e he => ?_, fun a ha hstart hend => ?_⟩
  · refine (List.pairwise_map.mp hscan.pairwise).imp fun {e e'} hbeyond a b hea heb => ?_
    rw [hea.point_eq, heb.point_eq] at hbeyond
    exact before_of_beyond hea.1 heb.1 hbeyond
  · rw [← hscan.within_of_mem e.point (List.mem_map_of_mem he)]
    exact pastEnd_congr rfl
  · have hcomplete := hscan.complete (hkept a ha) (mem_fromQuery hstart) hend
    rcases hcomplete with hmem | ⟨heof, hahead⟩
    · obtain ⟨e, he, hpoint⟩ := List.mem_map.mp hmem
      exact .inl ⟨e, he, h.normal a ha, congrArg Point.key hpoint, congrArg Point.id hpoint⟩
    · refine .inr ⟨heof, fun e he b heb => ?_⟩
      have hlast := hahead e.point (by rw [List.getLast?_map, he]; rfl)
      rw [heb.point_eq] at hlast
      exact before_of_beyond heb.1 (h.normal a ha) hlast

/-- In an index that clients have filled, whatever a cursor was doing before: from a seek on, and
whatever other clients change between a save and the next restore, the entries come back in order,
each once, within the end position, and none that stays in the index is skipped. -/
theorem scan_exact (ord : KeyOrdering) (c : Cursor) {table : Table}
    (ht : Transition.Reach (Change.apply c.kind ord) (fun _ _ => True) SortedMap.empty table)
    (larger : Bool) (query : KeyString) :
    ∃ s₀, ScanState.seek ord table larger query c = some s₀ ∧
      ∀ s, Transition.Reach (ScanState.step ord) (fun _ _ => True) s₀ s →
        ScanExact ord c query s ∧
        (s.saved = false → (s.step ord .next).isSome = true) ∧
        (s.saved = true → ∀ larger', (s.step ord (.restore larger')).isSome = true) := by
  have htable : ∀ e ∈ table.entries, FromEntry c.kind ord e :=
    ht.invariant (I := fun t => ∀ e ∈ t.entries, FromEntry c.kind ord e)
      (fun e he => by cases he) fun h _ hs => fromEntry_apply h hs
  obtain ⟨s₀, hseek, htracks⟩ := tracks_seek htable larger query
  refine ⟨s₀, hseek, fun s hs => ?_⟩
  have h : Tracks ord c query.buffer s :=
    hs.invariant (I := Tracks ord c query.buffer) htracks fun h _ hstep => tracks_step h hstep
  refine ⟨scanExact_of_tracks h, fun hsaved => ?_, fun hsaved larger' => ?_⟩
  · obtain ⟨t, ht, -⟩ := tracks_next h hsaved
    rw [ht]
    rfl
  · obtain ⟨t, ht, -⟩ := tracks_restore h hsaved larger'
    rw [ht]
    rfl

/-- Three strings; the second is removed while the cursor on it is saved. -/
def threeStrings : List Change :=
  [.insert (singleKey (.string [97]) storable_a) ⟨1⟩, .insert (singleKey (.string [98]) rfl) ⟨2⟩,
    .insert (singleKey (.string [99]) rfl) ⟨3⟩]

def removedWhileSaved : List Action :=
  [.next, .save, .change (.unindex (singleKey (.string [98]) rfl) ⟨2⟩), .restore false, .next]

theorem scan_exact_removedWhileSaved : ∃ table s₀ s,
    Transition.Reach (Change.apply .standard ⟨0⟩) (fun _ _ => True) SortedMap.empty table ∧
    ScanState.seek ⟨0⟩ table true ⟨[], TypeBits.reset⟩ (.new .standard true) = some s₀ ∧
    Transition.Reach (ScanState.step ⟨0⟩) (fun _ _ => True) s₀ s ∧ s.returned.length = 3 ∧
    ScanExact ⟨0⟩ (.new .standard true) ⟨[], TypeBits.reset⟩ s := by
  have hrun : ((Transition.run (Change.apply .standard ⟨0⟩) threeStrings SortedMap.empty).bind
      fun table => (ScanState.seek ⟨0⟩ table true ⟨[], TypeBits.reset⟩ (.new .standard true)).bind
        fun s₀ => (Transition.run (ScanState.step ⟨0⟩) removedWhileSaved s₀).map
          fun s => s.returned.length) = some 3 := by
    decide +kernel
  obtain ⟨table, htable, hrun⟩ := bind_eq_some_iff.mp hrun
  obtain ⟨s₀, hs₀, hrun⟩ := bind_eq_some_iff.mp hrun
  obtain ⟨s, hs, hlen⟩ := map_eq_some_iff.mp hrun
  have ht : Transition.Reach (Change.apply .standard ⟨0⟩) (fun _ _ => True) SortedMap.empty table :=
    Transition.reach_of_run htable fun _ _ _ => trivial
  have hr : Transition.Reach (ScanState.step ⟨0⟩) (fun _ _ => True) s₀ s :=
    Transition.reach_of_run hs fun _ _ _ => trivial
  obtain ⟨s₀', hs₀', hall⟩ :=
    scan_exact ⟨0⟩ (.new .standard true) ht true ⟨[], TypeBits.reset⟩
  obtain rfl := some.inj (hs₀.symm.trans hs₀')
  exact ⟨table, s₀, s, ht, hs₀, hr, hlen, (hall s hr).1⟩

end Runs

end MongolDb.WiredTiger
