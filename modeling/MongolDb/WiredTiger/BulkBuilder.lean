import MongolDb.WiredTiger.UniqueIndex

/-! Bulk builds of unique indexes (wiredtiger_index.cpp, `UniqueBulkBuilder`). `none` stands for a
failed invariant, such as an insert that the append-only bulk cursor refuses. -/
namespace MongolDb.WiredTiger
open ByteOrder Bson KeyString Option

/-- `_cursor->insert`: a bulk cursor takes keys in increasing order only. -/
def bulkInsert (table : List (Bytes × Bytes)) (key value : Bytes) :
    Option (List (Bytes × Bytes)) :=
  if table.getLast?.all fun e => lex e.1 key = .lt then some (table ++ [(key, value)]) else none

structure UniqueBulkBuilder where
  key : Obj
  keyString : KeyString
  records : List (RecordId × TypeBits)
  /-- What the bulk cursor was given. -/
  table : List (Bytes × Bytes)

namespace UniqueBulkBuilder

def new : UniqueBulkBuilder := ⟨[], ⟨[], TypeBits.reset⟩, [], []⟩

def doInsert (b : UniqueBulkBuilder) : Option UniqueBulkBuilder :=
  if b.records.isEmpty then none
  else (recordsValue b.records).bind fun value =>
    (bulkInsert b.table b.keyString.buffer value).map fun table =>
      { b with records := [], table }

/-- The end of `addKey`: the key becomes the current one, and the record joins its records. -/
def push (ord : KeyOrdering) (newKey : Obj) (id : RecordId) (b : UniqueBulkBuilder) :
    Option UniqueBulkBuilder :=
  (resetToKey newKey ord .inclusive).map fun keyString =>
    { b with key := newKey, keyString, records := b.records ++ [(id, keyString.typeBits)] }

def addKey (ord : KeyOrdering) (dupsAllowed : Bool) (newKey : Obj) (id : RecordId)
    (b : UniqueBulkBuilder) : Option (UniqueBulkBuilder × Status) :=
  match checkKeySize newKey with
  | .ok =>
    match woCompareOrdered compareAsDates ord 0 newKey b.key with
    | .eq =>
      if dupsAllowed then (b.push ord newKey id).map (·, .ok)
      else some (b, .duplicateKey newKey)
    | cmp =>
      -- only on the first call there is no key to compare with
      (if b.key.isEmpty then some b else if cmp = .gt then b.doInsert else none).bind fun b =>
        if b.records.isEmpty then (b.push ord newKey id).map (·, .ok) else none
  | s => some (b, s)

def commit (b : UniqueBulkBuilder) : Option UniqueBulkBuilder :=
  if b.records.isEmpty then some b else b.doInsert

/-- An `addKey` for each key in turn, whatever the earlier ones returned. -/
def addKeys (ord : KeyOrdering) (dupsAllowed : Bool) :
    List (KeyObject × RecordId) → UniqueBulkBuilder → Option UniqueBulkBuilder
  | [], b => some b
  | e :: es, b =>
    (b.addKey ord dupsAllowed e.1.fields e.2).bind fun r => addKeys ord dupsAllowed es r.1

/-- The whole build: what has been inserted into the table. -/
def build (ord : KeyOrdering) (dupsAllowed : Bool) (es : List (KeyObject × RecordId)) :
    Option (List (Bytes × Bytes)) :=
  ((addKeys ord dupsAllowed es new).bind commit).map table

end UniqueBulkBuilder

/-- What holds of each member of one list exactly when it holds of the member of the other. -/
theorem forall_mem_iff_of_forall₂ {α β : Type*} {P : α → β → Prop} {Q : β → Prop} {R : α → Prop}
    {l : List α} {l' : List β} (h : List.Forall₂ P l l')
    (hq : ∀ x ∈ l, ∀ y, P x y → (Q y ↔ R x)) : (∀ y ∈ l', Q y) ↔ ∀ x ∈ l, R x := by
  induction h with
  | nil => simp
  | @cons x y l l' hxy _ ih =>
    rw [List.forall_mem_cons, List.forall_mem_cons, hq x (by simp) y hxy,
      ih (List.forall_mem_cons.mp hq).2]

/-! What a build has to insert. -/

abbrev BulkEntry := KeyObject × RecordId

def BulkEntry.fits (e : BulkEntry) : Bool := decide (objsize e.1.fields < TempKeyMaxSize)

/-- The order by which a build sorts the keys. -/
def sortOrder (ord : KeyOrdering) (a b : BulkEntry) : Ordering :=
  woCompareOrdered compareAsDates ord 0 a.1.fields b.1.fields

/-- The list cut into runs of duplicates, with different keys in different runs. -/
structure Merged (ord : KeyOrdering) (es : List BulkEntry) (runs : List (List BulkEntry)) : Prop where
  flatten_eq : runs.flatten = es
  ne_nil : ∀ run ∈ runs, run ≠ []
  dups : ∀ run ∈ runs, ∀ a ∈ run, ∀ b ∈ run, sortOrder ord a b = .eq
  distinct : runs.Pairwise fun r r' => ∀ a ∈ r, ∀ b ∈ r', sortOrder ord a b = .lt

/-- Of a run of duplicates, those that are accepted. -/
def accepted (dupsAllowed : Bool) (run : List BulkEntry) : List BulkEntry :=
  if dupsAllowed then run else run.take 1

def bulkRecord (ord : KeyOrdering) (e : BulkEntry) : RecordId × TypeBits :=
  (e.2, (keyString ord e.1).typeBits)

/-- The insert for a run: one key, and under it the records of all that were accepted. -/
def InsertOf (ord : KeyOrdering) (dupsAllowed : Bool) (run : List BulkEntry)
    (insert : Bytes × Bytes) : Prop :=
  (∀ e ∈ run, (keyString ord e.1).buffer = insert.1) ∧
    recordsValue ((accepted dupsAllowed run).map (bulkRecord ord)) = some insert.2

/-! Keys and their bytes. -/

section
variable {ord : KeyOrdering} {a b c : BulkEntry}

/-- Duplicates have one key string. -/
theorem keptOrder_of_dup (h : sortOrder ord a b = .eq) :
    keptOrder ord a.1.fields b.1.fields = .eq :=
  woCompareOrdered_keptFields h

theorem buffer_eq_of_dup (h : sortOrder ord a b = .eq) :
    (keyString ord a.1).buffer = (keyString ord b.1).buffer := by
  have hkeys := ordered_keyString ord a.1 b.1
  rwa [keptOrder_of_dup h] at hkeys

theorem sortOrder_congr (h : sortOrder ord b c = .eq) : sortOrder ord a c = sortOrder ord a b :=
  (chained_woCompareOrdered 0 a.1.fields b.1.fields c.1.fields).2.1 h

theorem sortOrder_lt_of_lt_of_ne_gt (h : sortOrder ord a b = .lt) (h' : sortOrder ord b c ≠ .gt) :
    sortOrder ord a c = .lt := by
  have hchain := @chained_woCompareOrdered ord 0 a.1.fields b.1.fields c.1.fields
  cases hbc : sortOrder ord b c with
  | lt => exact hchain.2.2.1 h hbc
  | eq => exact (hchain.2.1 hbc).trans h
  | gt => exact absurd hbc h'

theorem sortOrder_swap (ord : KeyOrdering) (a b : BulkEntry) :
    (sortOrder ord a b).swap = sortOrder ord b a :=
  woCompareOrdered_swap 0 a.1.fields b.1.fields

theorem sortOrder_self (ord : KeyOrdering) (a : BulkEntry) : sortOrder ord a a = .eq :=
  @Std.ReflCmp.compare_self _ (woCompareOrdered compareAsDates ord 0) _ _

theorem sortOrder_comm (h : sortOrder ord a b = .eq) : sortOrder ord b a = .eq :=
  @Std.OrientedCmp.eq_symm _ (woCompareOrdered compareAsDates ord 0) _ _ _ h

end

section
variable {table t : List (Bytes × Bytes)} {inserts : List (Bytes × Bytes)} {key value : Bytes}

def Increasing (table : List (Bytes × Bytes)) : Prop :=
  table.Pairwise fun a b => lex a.1 b.1 = .lt

def bulkInserts : List (Bytes × Bytes) → List (Bytes × Bytes) → Option (List (Bytes × Bytes))
  | [], table => some table
  | e :: es, table => (bulkInsert table e.1 e.2).bind (bulkInserts es)

/-- Later than the last key is later than all. -/
theorem increasing_concat (h : Increasing table) :
    Increasing (table ++ [(key, value)]) ↔ table.getLast?.all fun e => lex e.1 key = .lt := by
  rw [Increasing, List.pairwise_append]
  constructor
  · rintro ⟨-, -, hlast⟩
    cases hl : table.getLast? with
    | none => rfl
    | some e => simpa using hlast e (List.mem_of_getLast? hl) (key, value) (by simp)
  · intro hlast
    refine ⟨h, by simp, ?_⟩
    rintro e he _ hmem
    obtain rfl := List.mem_singleton.mp hmem
    obtain ⟨init, last, rfl⟩ :=
      (List.eq_nil_or_concat' table).resolve_left (List.ne_nil_of_mem he)
    rw [List.getLast?_concat] at hlast
    have hkey : lex last.1 key = .lt := by simpa using hlast
    rcases List.mem_append.mp he with hinit | hmem
    · have hbelow := (List.pairwise_append.mp h).2.2 e hinit last (by simp)
      exact (chained_lex e.1 last.1 key).2.2.1 hbelow hkey
    · obtain rfl := List.mem_singleton.mp hmem
      exact hkey

theorem bulkInsert_eq_some_iff (h : Increasing table) :
    bulkInsert table key value = some t ↔
      Increasing (table ++ [(key, value)]) ∧ t = table ++ [(key, value)] := by
  rw [increasing_concat h, bulkInsert]
  split
  · rename_i hlast
    exact ⟨fun h => ⟨hlast, (some.inj h).symm⟩, fun h => congrArg some h.2.symm⟩
  · rename_i hlast
    exact ⟨fun h => (some_ne_none t h.symm).elim, fun h => absurd h.1 hlast⟩

/-- The cursor takes a sequence of inserts exactly when the keys are increasing. -/
theorem bulkInserts_eq_some_iff (h : Increasing table) :
    bulkInserts inserts table = some t ↔
      Increasing (table ++ inserts) ∧ t = table ++ inserts := by
  induction inserts generalizing table with
  | nil =>
    rw [bulkInserts, List.append_nil]
    exact ⟨fun he => ⟨h, (some.inj he).symm⟩, fun he => congrArg some he.2.symm⟩
  | cons e es ih =>
    rw [bulkInserts, bind_eq_some_iff]
    constructor
    · rintro ⟨u, hu, hrest⟩
      obtain ⟨hinc, rfl⟩ := (bulkInsert_eq_some_iff h).mp hu
      simpa using (ih hinc).mp hrest
    · rintro ⟨hinc, ht⟩
      have hsplit : table ++ e :: es = table ++ [e] ++ es := by simp
      rw [hsplit] at hinc ht
      have hone := (List.pairwise_append.mp hinc).1
      exact ⟨table ++ [e], (bulkInsert_eq_some_iff h).mpr ⟨hone, rfl⟩, (ih hone).mpr ⟨hinc, ht⟩⟩

end

section Builder
open UniqueBulkBuilder
variable {ord : KeyOrdering} {dupsAllowed : Bool} {b : UniqueBulkBuilder}
  {run es : List BulkEntry} {e : BulkEntry}

/-- The builder has seen the entries of `run`, all duplicates, since its last insert. -/
structure Current (ord : KeyOrdering) (dupsAllowed : Bool) (run : List BulkEntry)
    (b : UniqueBulkBuilder) : Prop where
  dups : ∀ a ∈ run, ∀ c ∈ run, sortOrder ord a c = .eq
  key : ∃ e ∈ run, b.key = e.1.fields
  bytes : ∀ e ∈ run, (keyString ord e.1).buffer = b.keyString.buffer
  records : b.records = (accepted dupsAllowed run).map (bulkRecord ord)

theorem Current.ne_nil (h : Current ord dupsAllowed run b) : run ≠ [] := by
  obtain ⟨e, he, -⟩ := h.key
  exact List.ne_nil_of_mem he

theorem accepted_ne_nil (h : run ≠ []) : accepted dupsAllowed run ≠ [] := by
  unfold accepted
  split
  · exact h
  · simpa using h

theorem Current.records_ne_nil (h : Current ord dupsAllowed run b) : b.records ≠ [] := by
  rw [h.records]
  simpa using accepted_ne_nil h.ne_nil

theorem isSome_recordsValue {records : List (RecordId × TypeBits)}
    (h : ∀ r ∈ records, r.1.isNormal = true) : ∃ value, recordsValue records = some value := by
  have happend : ∀ (records : List (RecordId × TypeBits)) (value : Bytes),
      (∀ r ∈ records, r.1.isNormal = true) → ∃ v, appendRecords value records = some v := by
    intro records
    induction records with
    | nil => exact fun value _ => ⟨value, rfl⟩
    | cons r records ih =>
      intro value hr
      rw [appendRecords, appendRecord, appendRecordId_of_isNormal (hr r (by simp))]
      exact ih _ (List.forall_mem_cons.mp hr).2
  cases records with
  | nil => exact ⟨[], rfl⟩
  | cons r rest =>
    cases rest with
    | nil =>
      rw [recordsValue, onlyRecord, appendRecordId_of_isNormal (h r (by simp))]
      exact ⟨_, rfl⟩
    | cons s rest => exact happend _ [] h

theorem checkKeySize_of_fits (h : e.fits = true) : checkKeySize e.1.fields = .ok := by
  rw [BulkEntry.fits, decide_eq_true_eq] at h
  rw [checkKeySize, if_neg (by omega)]

theorem addKey_of_not_fits (h : e.fits = false) :
    ∃ s, b.addKey ord dupsAllowed e.1.fields e.2 = some (b, s) := by
  rw [BulkEntry.fits, decide_eq_false_iff_not] at h
  rw [addKey, checkKeySize, if_pos (by omega)]
  exact ⟨_, rfl⟩

/-- The builder with the entry added to the records. -/
def pushed (ord : KeyOrdering) (e : BulkEntry) (b : UniqueBulkBuilder) :
    UniqueBulkBuilder :=
  { b with
    key := e.1.fields
    keyString := keyString ord e.1
    records := b.records ++ [bulkRecord ord e] }

theorem push_eq (ord : KeyOrdering) (e : BulkEntry) (b : UniqueBulkBuilder) :
    b.push ord e.1.fields e.2 = some (pushed ord e b) := by
  rw [push, resetToKey_eq_keyString]
  rfl

/-- The first key of a build, or of a run. -/
theorem current_pushed (h : b.records = []) :
    Current ord dupsAllowed [e] (pushed ord e b) where
  dups := by
    rintro a ha c hc
    obtain rfl := List.mem_singleton.mp ha
    obtain rfl := List.mem_singleton.mp hc
    exact sortOrder_self ord _
  key := ⟨e, by simp, rfl⟩
  bytes := by
    intro c hc
    rw [List.mem_singleton.mp hc]
    rfl
  records := by
    cases dupsAllowed <;> simp [pushed, h, accepted]

section
variable (h : Current ord dupsAllowed run b)
include h

/-- A duplicate joins the run, and its record the others unless duplicates are refused. -/
theorem Current.addKey_dup (hfits : e.fits = true) (hdup : ∀ c ∈ run, sortOrder ord e c = .eq) :
    ∃ b' s, b.addKey ord dupsAllowed e.1.fields e.2 = some (b', s) ∧ b'.table = b.table ∧
      Current ord dupsAllowed (run ++ [e]) b' := by
  obtain ⟨k, hk, hkey⟩ := h.key
  have hcmp : woCompareOrdered compareAsDates ord 0 e.1.fields b.key = .eq := by
    rw [hkey]
    exact hdup k hk
  have hdups : ∀ a ∈ run ++ [e], ∀ c ∈ run ++ [e], sortOrder ord a c = .eq := by
    have hsame : ∀ a ∈ run ++ [e], sortOrder ord e a = .eq := by
      intro a ha
      rcases List.mem_append.mp ha with ha | ha
      · exact hdup a ha
      · rw [List.mem_singleton.mp ha, sortOrder_self]
    intro a ha c hc
    exact (sortOrder_congr (hsame c hc)).trans (sortOrder_comm (hsame a ha))
  simp only [addKey, checkKeySize_of_fits hfits, hcmp]
  cases dupsAllowed with
  | true =>
    rw [if_pos rfl, push_eq]
    refine ⟨pushed ord e b, .ok, rfl, rfl, hdups, ⟨e, by simp, rfl⟩, ?_, ?_⟩
    · intro c hc
      exact buffer_eq_of_dup (hdups c hc e (by simp))
    · simp [pushed, h.records, accepted]
  | false =>
    refine ⟨_, _, rfl, rfl, hdups, ⟨k, by simp [hk], hkey⟩, ?_, ?_⟩
    · intro c hc
      rw [← h.bytes k hk]
      exact buffer_eq_of_dup (hdups c hc k (by simp [hk]))
    · rw [h.records]
      simp only [accepted, Bool.false_eq_true, if_false]
      rw [List.take_append_of_le_length (List.length_pos_of_mem hk)]

/-- The records of the run are inserted, if the cursor takes them. -/
theorem Current.doInsert_eq (hids : ∀ c ∈ run, c.2.isNormal = true) :
    ∃ insert, InsertOf ord dupsAllowed run insert ∧
      b.doInsert = (bulkInsert b.table insert.1 insert.2).map fun table => { b with records := [], table } := by
  obtain ⟨value, hvalue⟩ : ∃ value, recordsValue b.records = some value := by
    apply isSome_recordsValue
    rw [h.records]
    intro r hr
    obtain ⟨a, ha, rfl⟩ := List.mem_map.mp hr
    apply hids
    unfold accepted at ha
    split at ha
    · exact ha
    · exact List.mem_of_mem_take ha
  refine ⟨(b.keyString.buffer, value), ⟨h.bytes, by rw [← h.records, hvalue]⟩, ?_⟩
  rw [doInsert, if_neg (by simpa using h.records_ne_nil), hvalue]
  rfl

theorem Current.addKey_next (hfits : e.fits = true)
    (hne : ∀ c ∈ run, c.1.fields ≠ []) (hids : ∀ c ∈ run, c.2.isNormal = true)
    (hnext : ∀ c ∈ run, sortOrder ord e c = .gt) : ∃ insert, InsertOf ord dupsAllowed run insert ∧
      ∀ k : UniqueBulkBuilder → Option (List (Bytes × Bytes)),
        (b.addKey ord dupsAllowed e.1.fields e.2).bind (fun r => k r.1) =
          (bulkInsert b.table insert.1 insert.2).bind fun table =>
            k (pushed ord e { b with records := [], table }) := by
  obtain ⟨c, hc, hkey⟩ := h.key
  have hcmp : woCompareOrdered compareAsDates ord 0 e.1.fields b.key = .gt := by
    rw [hkey]
    exact hnext c hc
  have hkeyne : b.key.isEmpty = false := by
    rw [hkey]
    simpa using hne c hc
  obtain ⟨insert, hinsert, hdo⟩ := h.doInsert_eq hids
  refine ⟨insert, hinsert, ?_⟩
  intro k
  simp only [addKey, checkKeySize_of_fits hfits, hcmp, hkeyne, hdo, if_true,
    Bool.false_eq_true, if_false]
  cases bulkInsert b.table insert.1 insert.2 with
  | none => rfl
  | some table =>
    simp [push_eq]

theorem commit_eq (hids : ∀ c ∈ run, c.2.isNormal = true) :
    ∃ insert, InsertOf ord dupsAllowed run insert ∧
      b.commit.map table = bulkInsert b.table insert.1 insert.2 := by
  obtain ⟨insert, hinsert, hdo⟩ := h.doInsert_eq hids
  refine ⟨insert, hinsert, ?_⟩
  rw [commit, if_neg (by simpa using h.records_ne_nil), hdo, map_map]
  exact map_id'

omit h in
/-- One run, and later keys in the others. -/
theorem Merged.cons {runs : List (List BulkEntry)} (h : Merged ord es runs) (hne : run ≠ [])
    (hdups : ∀ a ∈ run, ∀ c ∈ run, sortOrder ord a c = .eq)
    (hlater : ∀ a ∈ run, ∀ c ∈ es, sortOrder ord a c = .lt) :
    Merged ord (run ++ es) (run :: runs) where
  flatten_eq := by rw [List.flatten_cons, h.flatten_eq]
  ne_nil := List.forall_mem_cons.mpr ⟨hne, h.ne_nil⟩
  dups := List.forall_mem_cons.mpr ⟨hdups, h.dups⟩
  distinct := by
    refine List.pairwise_cons.mpr ⟨?_, h.distinct⟩
    intro r hr a ha c hc
    apply hlater a ha
    rw [← h.flatten_eq]
    exact List.mem_flatten.mpr ⟨r, hr, hc⟩

/-- The next key is a duplicate of every key of the open run, or after all of them. -/
theorem Current.dup_or_lt (hle : ∀ c ∈ run, sortOrder ord c e ≠ .gt) :
    (∀ c ∈ run, sortOrder ord e c = .eq) ∨ ∀ c ∈ run, sortOrder ord c e = .lt := by
  obtain ⟨k, hk, -⟩ := h.key
  by_cases hdup : sortOrder ord k e = .eq
  · refine .inl fun c hc => ?_
    exact (sortOrder_congr (h.dups k hk c hc)).trans (sortOrder_comm hdup)
  · refine .inr fun c hc => ?_
    cases hce : sortOrder ord c e with
    | lt => rfl
    | eq => exact absurd ((sortOrder_congr hce).trans (h.dups k hk c hc)) hdup
    | gt => exact absurd hce (hle c hc)

/-- From a builder with an open run on: the rest is cut into runs, and each is one insert. -/
theorem Current.addKeys (hsorted : (run ++ es).Pairwise fun a c => sortOrder ord a c ≠ .gt)
    (hne : ∀ c ∈ run ++ es, c.1.fields ≠ []) (hids : ∀ c ∈ run ++ es, c.2.isNormal = true) :
    ∃ runs inserts, Merged ord (run ++ es.filter BulkEntry.fits) runs ∧
      List.Forall₂ (InsertOf ord dupsAllowed) runs inserts ∧
      ((UniqueBulkBuilder.addKeys ord dupsAllowed es b).bind commit).map
        table = bulkInserts inserts b.table := by
  induction es generalizing run b with
  | nil =>
    obtain ⟨insert, hinsert, hcommit⟩ := commit_eq h fun c hc => hids c (by simp [hc])
    refine ⟨[run], [insert], ?_, .cons hinsert .nil, ?_⟩
    · have hnil : Merged ord [] [] := ⟨rfl, by simp, by simp, .nil⟩
      exact hnil.cons h.ne_nil h.dups (by simp)
    · rw [UniqueBulkBuilder.addKeys, bind_some, hcommit, bulkInserts]
      cases bulkInsert b.table insert.1 insert.2 <;> rfl
  | cons e es ih =>
    have hsub : (run ++ es).Sublist (run ++ e :: es) :=
      List.Sublist.append_left (List.sublist_cons_self e es) run
    cases hfits : e.fits with
    | false =>
      -- An oversized key leaves the builder as it is.
      obtain ⟨s, hs⟩ := @addKey_of_not_fits ord dupsAllowed b e hfits
      rw [UniqueBulkBuilder.addKeys, hs, bind_some, List.filter_cons_of_neg (by simp [hfits])]
      exact ih h (hsorted.sublist hsub) (fun c hc => hne c (hsub.subset hc))
        fun c hc => hids c (hsub.subset hc)
    | true =>
      rw [List.filter_cons_of_pos hfits]
      have hle : ∀ c ∈ run, sortOrder ord c e ≠ .gt := fun c hc =>
        (List.pairwise_append.mp hsorted).2.2 c hc e (by simp)
      have hlater : ∀ c ∈ es, sortOrder ord e c ≠ .gt := fun c hc =>
        (List.pairwise_cons.mp (List.pairwise_append.mp hsorted).2.1).1 c hc
      rcases h.dup_or_lt hle with hall | hlt
      · obtain ⟨b', s, hadd, htable, hcur⟩ := h.addKey_dup hfits hall
        have happend : run ++ e :: es = run ++ [e] ++ es := by simp
        rw [happend] at hsorted hne hids
        obtain ⟨runs, inserts, hmerged, hinserts, hbuild⟩ := ih hcur hsorted hne hids
        refine ⟨runs, inserts, by simpa using hmerged, hinserts, ?_⟩
        rw [UniqueBulkBuilder.addKeys, hadd, bind_some, hbuild, htable]
      · have hgt : ∀ c ∈ run, sortOrder ord e c = .gt := by
          intro c hc
          rw [← sortOrder_swap, hlt c hc]
          rfl
        obtain ⟨insert, hinsert, hadd⟩ := h.addKey_next hfits (fun c hc => hne c (by simp [hc]))
          (fun c hc => hids c (by simp [hc])) hgt
        have hlast : ∀ c ∈ run, ∀ d ∈ [e] ++ es.filter BulkEntry.fits,
            sortOrder ord c d = .lt := by
          intro c hc d hd
          rcases List.mem_append.mp hd with hd | hd
          · rw [List.mem_singleton.mp hd]
            exact hlt c hc
          · exact sortOrder_lt_of_lt_of_ne_gt (hlt c hc) (hlater d (List.mem_of_mem_filter hd))
        have hrest := fun table => @ih (pushed ord e { b with records := [], table }) [e]
          (current_pushed rfl) (List.pairwise_append.mp hsorted).2.1
          (fun c hc => hne c (List.mem_append_right run hc))
          fun c hc => hids c (List.mem_append_right run hc)
        -- If the cursor refuses the run, the later inserts do not matter.
        obtain ⟨table, htable⟩ : ∃ table, ∀ t ∈ bulkInsert b.table insert.1 insert.2, t = table :=
          ⟨(bulkInsert b.table insert.1 insert.2).getD [], fun t ht => by rw [ht]; rfl⟩
        obtain ⟨runs, inserts, hmerged, hinserts, hbuild⟩ := hrest table
        refine ⟨run :: runs, insert :: inserts, hmerged.cons h.ne_nil h.dups hlast,
          .cons hinsert hinserts, ?_⟩
        rw [UniqueBulkBuilder.addKeys, bind_assoc, map_bind]
        refine (hadd fun b => ((UniqueBulkBuilder.addKeys ord dupsAllowed es b).bind
          commit).map UniqueBulkBuilder.table).trans ?_
        rw [bulkInserts]
        cases hins : bulkInsert b.table insert.1 insert.2 with
        | none => rfl
        | some t =>
          obtain rfl := htable t hins
          exact hbuild

end

/-- The first key is compared with the empty one that a new builder has. -/
theorem addKey_new (hfits : e.fits = true) (hne : e.1.fields ≠ []) :
    new.addKey ord dupsAllowed e.1.fields e.2 =
      some (pushed ord e new, .ok) := by
  obtain ⟨f, fs, hf⟩ := List.exists_cons_of_ne_nil hne
  have hcmp : woCompareOrdered compareAsDates ord 0 e.1.fields [] = .gt := by
    rw [hf]
    rfl
  rw [addKey, checkKeySize_of_fits hfits]
  simp [new, hcmp, push_eq]

theorem build_eq (hsorted : es.Pairwise fun a c => sortOrder ord a c ≠ .gt)
    (hne : ∀ c ∈ es, c.1.fields ≠ []) (hids : ∀ c ∈ es, c.2.isNormal = true) :
    ∃ runs inserts, Merged ord (es.filter BulkEntry.fits) runs ∧
      List.Forall₂ (InsertOf ord dupsAllowed) runs inserts ∧
      build ord dupsAllowed es = bulkInserts inserts [] := by
  induction es with
  | nil => exact ⟨[], [], ⟨rfl, by simp, by simp, .nil⟩, .nil, rfl⟩
  | cons e es ih =>
    rw [build, UniqueBulkBuilder.addKeys]
    cases hfits : e.fits with
    | false =>
      obtain ⟨s, hs⟩ := @addKey_of_not_fits ord dupsAllowed new e hfits
      rw [hs, bind_some, List.filter_cons_of_neg (by simp [hfits])]
      exact ih (List.pairwise_cons.mp hsorted).2 (List.forall_mem_cons.mp hne).2
        (List.forall_mem_cons.mp hids).2
    | true =>
      rw [addKey_new hfits (hne e (by simp)), bind_some, List.filter_cons_of_pos hfits]
      exact (current_pushed rfl).addKeys hsorted hne hids

/-- The sort and the table have the two entries in one order. -/
def SameOrder (ord : KeyOrdering) (a c : BulkEntry) : Prop :=
  sortOrder ord a c = keptOrder ord a.1.fields c.1.fields

instance (ord : KeyOrdering) (a c : BulkEntry) : Decidable (SameOrder ord a c) := by
  unfold SameOrder
  infer_instance

/-- They have, if the table loses nothing of the keys and no timestamp is negative as a date. -/
theorem sameOrder_of_datable {a c : BulkEntry} (ha : keptFields a.1.fields = a.1.fields)
    (hc : keptFields c.1.fields = c.1.fields) (hda : fieldsDatable a.1.fields = true)
    (hdc : fieldsDatable c.1.fields = true) : SameOrder ord a c := by
  rw [SameOrder, keptOrder, ha, hc]
  exact woCompareOrdered_datable ord 0 _ _ hda hdc

/-- Two runs in the order of the sort stand in the cursor's order if their keys do in the table's. -/
theorem InsertOf.lex_iff {r r' : List BulkEntry} {i i' : Bytes × Bytes} (h : InsertOf ord dupsAllowed r i)
    (h' : InsertOf ord dupsAllowed r' i') (hr : r ≠ []) (hr' : r' ≠ [])
    (hlt : ∀ a ∈ r, ∀ c ∈ r', sortOrder ord a c = .lt) :
    lex i.1 i'.1 = .lt ↔ ∀ a ∈ r, ∀ c ∈ r', SameOrder ord a c := by
  have hpair : ∀ a ∈ r, ∀ c ∈ r', (lex i.1 i'.1 = .lt ↔ SameOrder ord a c) := by
    intro a ha c hc
    rw [← h.1 a ha, ← h'.1 c hc, (ordered_keyString ord a.1 c.1).lex_eq, SameOrder, hlt a ha c hc,
      eq_comm]
  obtain ⟨a, ha⟩ := List.exists_mem_of_ne_nil r hr
  obtain ⟨c, hc⟩ := List.exists_mem_of_ne_nil r' hr'
  constructor
  · intro hlex a ha c hc
    exact (hpair a ha c hc).mp hlex
  · intro hsame
    exact (hpair a ha c hc).mpr (hsame a ha c hc)

theorem increasing_iff {runs : List (List BulkEntry)} {inserts : List (Bytes × Bytes)}
    (hmerged : Merged ord es runs)
    (hinserts : List.Forall₂ (InsertOf ord dupsAllowed) runs inserts) :
    Increasing inserts ↔ es.Pairwise (SameOrder ord) := by
  have hwithin : ∀ run ∈ runs, run.Pairwise (SameOrder ord) := by
    intro run hrun
    refine List.Pairwise.imp_of_mem ?_ (List.pairwise_of_forall fun _ _ => trivial)
    intro a c ha hc _
    have hdup := hmerged.dups run hrun a ha c hc
    exact hdup.trans (keptOrder_of_dup hdup).symm
  have hruns : Increasing inserts ↔ runs.Pairwise fun r r' => ∀ a ∈ r, ∀ c ∈ r',
      SameOrder ord a c := by
    have hne := hmerged.ne_nil
    have hdistinct := hmerged.distinct
    clear hmerged hwithin
    induction hinserts with
    | nil => exact ⟨fun _ => .nil, fun _ => .nil⟩
    | @cons r i runs inserts hr hrest ih =>
      obtain ⟨hlt, hdistinct⟩ := List.pairwise_cons.mp hdistinct
      simp only [Increasing, List.pairwise_cons]
      refine and_congr ?_ (ih (List.forall_mem_cons.mp hne).2 hdistinct)
      refine forall_mem_iff_of_forall₂ hrest fun r' hr' i' hi' => ?_
      exact hr.lex_iff hi' (hne r (by simp)) (hne r' (by simp [hr'])) (hlt r' hr')
  rw [hruns, ← hmerged.flatten_eq, List.pairwise_flatten]
  exact ⟨fun h => ⟨hwithin, h⟩, fun h => h.2⟩

def timestampKey (t : UInt64) : KeyObject where
  fields := [([], .timestamp t)]
  unnamed := by simp
  storable := rfl
  length_le := by simp

end Builder

end MongolDb.WiredTiger
