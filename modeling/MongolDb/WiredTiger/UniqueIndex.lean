import MongolDb.KeyString.Recovery
import MongolDb.Lib.Reach
import MongolDb.WiredTiger.IdList

/-! The id lists of a unique index that allows duplicates, over whole sequences of calls. -/
namespace MongolDb.WiredTiger
open ByteOrder Bson KeyString List Option

section
variable (ord : KeyOrdering) (key : KeyObject)

theorem isSome_resetToKey :
    (resetToKey key.fields ord .inclusive).isSome = true := by
  rw [resetToKey_eq]
  rfl

/-- `KeyString(key, ord)`, which never fails on an index key. -/
def keyString : KeyString :=
  (resetToKey key.fields ord .inclusive).get (isSome_resetToKey ord key)

theorem resetToKey_eq_keyString :
    resetToKey key.fields ord .inclusive = some (keyString ord key) :=
  (some_get _).symm

theorem keyString_eq :
    keyString ord key = ofOutput ⟨keyBytes ord 0 key.fields, keyBits key.fields⟩ :=
  some.inj ((resetToKey_eq_keyString ord key).symm.trans (resetToKey_eq ord key))

theorem ordered_keyString (a b : KeyObject) :
    Ordered (keptOrder ord a.fields b.fields) (keyString ord a).buffer (keyString ord b).buffer := by
  rw [keyString_eq, keyString_eq]
  exact ordered_keyObject ord a b

end

/-- Under each key, the ids inserted and not removed since, with the key object each came with. -/
def Live : Type := Bytes → RecordId → Option KeyObject

def Live.set (live : Live) (k : Bytes) (id : RecordId) (key : Option KeyObject) : Live :=
  fun k' id' => if k' = k ∧ id' = id then key else live k' id'

inductive Call where
  | insert (key : KeyObject) (id : RecordId)
  | unindex (key : KeyObject) (id : RecordId)

namespace Call

/-- What the callers `insert` and `unindex` of the base class have checked. -/
def checked : Call → Prop
  | .insert key id => id.isNormal = true ∧ checkKeySize key.fields = .ok
  | .unindex _ id => id.isNormal = true

def exec (ord : KeyOrdering) : Call → Table → Option Table
  | .insert key id, table => (Unique.insert ord table key.fields id true).map Prod.fst
  | .unindex key id, table => Unique.unindex ord table key.fields id true

/-- An id that is live already keeps the key object it came with. -/
def note (ord : KeyOrdering) : Call → Live → Live
  | .insert key id, live =>
    if (live (keyString ord key).buffer id).isSome then live
    else live.set (keyString ord key).buffer id (some key)
  | .unindex key id, live => live.set (keyString ord key).buffer id none

end Call

/-- What is live after the calls, on an index that starts out empty. -/
def liveAfter (ord : KeyOrdering) (calls : List Call) : Live :=
  calls.foldl (fun live c => c.note ord live) fun _ _ => none

/-- Alternates `decodeRecordId` and `TypeBits::fromBuffer` until the buffer is exhausted. -/
def decodeRecords : Nat → Bytes → Option (List (RecordId × TypeBits))
  | _, [] => some []
  | 0, _ :: _ => none
  | fuel + 1, br@(_ :: _) =>
    (decodeRecordId br).bind fun id =>
      (TypeBits.fromBuffer id.2).bind fun bits =>
        (decodeRecords fuel bits.2).map ((id.1, bits.1) :: ·)

/-! What a table says, against what is live. -/

/-- The records under `k`, in the order of their ids. -/
structure Lists (live : Live) (k : Bytes) (rs : List Record) : Prop where
  sorted : rs.Pairwise fun a b => a.1 < b.1
  storable : ∀ r ∈ rs, Storable r
  mem : ∀ r, r ∈ rs ↔ (live k r.1).map (fun key => keyBits key.fields) = some r.2

def EntryFor (table : Table) (k : Bytes) (rs : List Record) : Prop :=
  match table.find k with
  | none => rs = []
  | some value => rs ≠ [] ∧ Parses value rs

def Represents (table : Table) (live : Live) : Prop :=
  ∀ k, ∃ rs, Lists live k rs ∧ EntryFor table k rs

section Lists
variable {live : Live} {k k' : Bytes} {id : RecordId} {key : KeyObject} {rs : List Record}
  {table : Table} {value : Bytes}

theorem length_keyBits_le {fields : Obj} (hsize : checkKeySize fields = .ok) :
    (keyBits fields).length ≤ TypeBits.kMaxStoredBits := by
  have hbits := keyBits_le fields
  have hmax : TypeBits.kMaxStoredBits = 504 := rfl
  have htemp : TempKeyMaxSize = 1024 := rfl
  have hlt : objsize fields < TempKeyMaxSize := by
    by_contra hge
    rw [checkKeySize, if_pos (not_lt.mp hge)] at hsize
    cases hsize
  unfold objsize at hlt
  omega

theorem storable_of_size (hid : id.isNormal = true) (hsize : checkKeySize key.fields = .ok) :
    Storable (id, keyBits key.fields) :=
  ⟨hid, length_keyBits_le hsize⟩

theorem Lists.mem_ids (h : Lists live k rs) : id ∈ rs.map Prod.fst ↔ (live k id).isSome = true := by
  constructor
  · intro hid
    obtain ⟨r, hr, rfl⟩ := mem_map.mp hid
    obtain ⟨key, hkey, -⟩ := map_eq_some_iff.mp ((h.mem r).mp hr)
    rw [hkey]
    rfl
  · intro hid
    obtain ⟨key, hkey⟩ := isSome_iff_exists.mp hid
    exact mem_map.mpr ⟨(id, keyBits key.fields), (h.mem _).mpr (by rw [hkey]; rfl), rfl⟩

theorem Lists.nodup (h : Lists live k rs) : (rs.map Prod.fst).Nodup :=
  pairwise_map.mpr (h.sorted.imp ne_of_lt)

theorem sorted_orderedInsert {r : Record} (h : rs.Pairwise fun a b => a.1 < b.1)
    (hr : r.1 ∉ rs.map Prod.fst) :
    (rs.orderedInsert (fun a b => a.1 ≤ b.1) r).Pairwise fun a b => a.1 < b.1 := by
  induction rs with
  | nil => simp
  | cons s rs ih =>
    obtain ⟨hhead, htail⟩ := pairwise_cons.mp h
    simp only [map_cons, mem_cons, not_or] at hr
    rw [orderedInsert]
    split
    · rename_i hle
      have hlt : r.1 < s.1 := lt_of_le_of_ne hle hr.1
      refine pairwise_cons.mpr ⟨fun t ht => ?_, h⟩
      rcases mem_cons.mp ht with rfl | ht
      · exact hlt
      · exact hlt.trans (hhead t ht)
    · rename_i hle
      refine pairwise_cons.mpr ⟨fun t ht => ?_, ih htail hr.2⟩
      rcases (mem_orderedInsert _).mp ht with rfl | ht
      · exact not_le.mp hle
      · exact hhead t ht

theorem Lists.set_some (h : Lists live k rs) (hid : id ∉ rs.map Prod.fst)
    (hnew : Storable (id, keyBits key.fields)) :
    Lists (live.set k id (some key)) k
      (rs.orderedInsert (fun a b => a.1 ≤ b.1) (id, keyBits key.fields)) where
  sorted := sorted_orderedInsert h.sorted hid
  storable r hr := by
    rcases (mem_orderedInsert _).mp hr with rfl | hr
    · exact hnew
    · exact h.storable r hr
  mem r := by
    rw [mem_orderedInsert, h.mem, Live.set]
    by_cases hr : r.1 = id
    · have hnone : live k id = none := by
        by_contra hne
        exact hid (h.mem_ids.mpr (isSome_iff_ne_none.mpr hne))
      simp only [hr, hnone, and_self, if_true, map_some, map_none, reduceCtorEq,
        or_false, some.injEq]
      constructor
      · rintro rfl
        rfl
      · intro hbits
        exact Prod.ext hr hbits.symm
    · have hne : r ≠ (id, keyBits key.fields) := fun he => hr (congrArg Prod.fst he)
      simp [hr, hne]

theorem Lists.set_none (h : Lists live k rs) :
    Lists (live.set k id none) k (rs.filter fun r => decide (r.1 ≠ id)) where
  sorted := h.sorted.filter _
  storable r hr := h.storable r (mem_filter.mp hr).1
  mem r := by
    rw [mem_filter, h.mem, Live.set]
    by_cases hr : r.1 = id
    · simp [hr]
    · simp [hr]

theorem Lists.set_other (h : Lists live k' rs) (hk : k' ≠ k) (new : Option KeyObject) :
    Lists (live.set k id new) k' rs where
  sorted := h.sorted
  storable := h.storable
  mem r := by
    rw [h.mem, Live.set]
    simp [hk]

theorem entryFor_put (hne : rs ≠ []) (hparse : Parses value rs) :
    EntryFor (table.put k value) k rs := by
  unfold EntryFor
  rw [SortedMap.find_put_self]
  exact ⟨hne, hparse⟩

theorem entryFor_put_other (h : EntryFor table k' rs) (hk : k' ≠ k) :
    EntryFor (table.put k value) k' rs := by
  unfold EntryFor
  rwa [SortedMap.find_put_ne hk]

theorem entryFor_erase : EntryFor (table.erase k) k [] := by
  unfold EntryFor
  rw [SortedMap.find_erase_self]

theorem entryFor_erase_other (h : EntryFor table k' rs) (hk : k' ≠ k) :
    EntryFor (table.erase k) k' rs := by
  unfold EntryFor
  rwa [SortedMap.find_erase_ne hk]

end Lists

section Steps
variable {ord : KeyOrdering} {live : Live} {id : RecordId} {key : KeyObject} {table table' : Table}

/-- A change under one key leaves the lists under the others. -/
theorem Represents.set {k : Bytes} {rs : List Record} {new : Option KeyObject}
    (h : Represents table live) (hlist : Lists (live.set k id new) k rs)
    (hentry : EntryFor table' k rs)
    (hother : ∀ k' ≠ k, ∀ rs', EntryFor table k' rs' → EntryFor table' k' rs') :
    Represents table' (live.set k id new) := by
  intro k'
  by_cases hk : k' = k
  · subst hk
    exact ⟨rs, hlist, hentry⟩
  · obtain ⟨rs', hlist', hentry'⟩ := h k'
    exact ⟨rs', hlist'.set_other hk new, hother k' hk rs' hentry'⟩

theorem represents_insert (h : Represents table live) (hid : id.isNormal = true)
    (hsize : checkKeySize key.fields = .ok) :
    ∃ table', (Call.insert key id).exec ord table = some table' ∧
      Represents table' ((Call.insert key id).note ord live) := by
  have hnew := storable_of_size hid hsize
  have henc : (keyString ord key).typeBits.Encodes (keyBits key.fields) := by
    rw [keyString_eq]
    exact encodes_of_storable hnew
  obtain ⟨value, hvalue, hparse⟩ := parses_onlyRecord hnew henc
  obtain ⟨rs, hlist, hentry⟩ := h (keyString ord key).buffer
  simp only [Call.exec, Call.note, Unique.insert, resetToKey_eq_keyString, bind_some,
    hvalue, ← hlist.mem_ids]
  unfold EntryFor at hentry
  cases hfind : table.find (keyString ord key).buffer with
  | none =>
    rw [hfind] at hentry
    obtain rfl : rs = [] := hentry
    refine ⟨_, rfl, ?_⟩
    rw [if_neg (by simp)]
    exact h.set (hlist.set_some (by simp) hnew) (entryFor_put (by simp) hparse)
      fun k' hk rs' he => entryFor_put_other he hk
  | some old =>
    rw [hfind] at hentry
    obtain ⟨-, hold⟩ := hentry
    by_cases hmem : id ∈ rs.map Prod.fst
    · have hloop := insertLoop_mem (hold.parsesIn le_rfl) hlist.storable hnew henc hmem false []
      simp only [hloop, bind_some]
      exact ⟨table, rfl, by rwa [if_pos hmem]⟩
    · obtain ⟨insertedId, acc, hloop, hfinish⟩ :=
        insertLoop_new (hold.parsesIn le_rfl) hlist.storable hnew henc hmem []
      have hlist' := hlist.set_some hmem hnew
      simp only [hloop, bind_some, hfinish, Bool.not_true, Bool.false_eq_true, if_false,
        map_some, nil_append]
      refine ⟨_, rfl, ?_⟩
      rw [if_neg hmem]
      refine h.set hlist' (entryFor_put ?_ (parses_flatMap hlist'.storable))
        fun k' hk rs' he => entryFor_put_other he hk
      exact ne_nil_of_mem ((mem_orderedInsert _).mpr (.inl rfl))

theorem represents_unindex (h : Represents table live) :
    ∃ table', (Call.unindex key id).exec ord table = some table' ∧
      Represents table' ((Call.unindex key id).note ord live) := by
  obtain ⟨rs, hlist, hentry⟩ := h (keyString ord key).buffer
  have hlist' : Lists (live.set (keyString ord key).buffer id none) _ _ := hlist.set_none
  simp only [Call.exec, Call.note, Unique.unindex, resetToKey_eq_keyString, bind_some,
    Bool.not_true, Bool.false_eq_true, if_false]
  have hcopy := hentry
  unfold EntryFor at hcopy
  cases hfind : table.find (keyString ord key).buffer with
  | none =>
    rw [hfind] at hcopy
    obtain rfl : rs = [] := hcopy
    exact ⟨table, rfl, h.set hlist' hentry fun _ _ _ he => he⟩
  | some old =>
    rw [hfind] at hcopy
    obtain ⟨-, hold⟩ := hcopy
    by_cases hmem : id ∈ rs.map Prod.fst
    · obtain ⟨honly, hmore⟩ := unindexLoop_present (hold.parsesIn le_rfl) hlist.nodup hmem .nil
      rw [nil_append] at honly hmore
      by_cases hnil : rs.filter (fun r => decide (r.1 ≠ id)) = []
      · simp only [honly hnil, bind_some]
        refine ⟨_, rfl, h.set hlist' ?_ fun k' hk rs' he => entryFor_erase_other he hk⟩
        rw [hnil]
        exact entryFor_erase
      · obtain ⟨out, hloop, hout⟩ := hmore hnil
        obtain ⟨value, hvalue, hparse⟩ := parses_recordsValue hout hlist'.storable
        have hne : out.isEmpty = false := by
          cases hout' : out with
          | nil =>
            rw [hout', forall₂_nil_left_iff] at hout
            exact absurd hout hnil
          | cons _ _ => rfl
        simp only [hloop, bind_some, hne, Bool.false_eq_true, if_false, hvalue,
          map_some]
        exact ⟨_, rfl, h.set hlist' (entryFor_put hnil hparse)
          fun k' hk rs' he => entryFor_put_other he hk⟩
    · obtain ⟨out, hloop, -⟩ := unindexLoop_absent (hold.parsesIn le_rfl) hmem false .nil
      simp only [hloop, bind_some]
      refine ⟨table, rfl, h.set hlist' ?_ fun _ _ _ he => he⟩
      rwa [filter_ne_eq_self hmem]

theorem represents_exec (ord : KeyOrdering) (h : Represents table live) {c : Call}
    (hc : c.checked) :
    ∃ table', c.exec ord table = some table' ∧ Represents table' (c.note ord live) := by
  cases c with
  | insert key id => exact represents_insert h hc.1 hc.2
  | unindex key id => exact represents_unindex h

theorem represents_run (ord : KeyOrdering) {calls : List Call} (h : Represents table live)
    (hc : ∀ c ∈ calls, c.checked) :
    ∃ table', Transition.run (Call.exec ord) calls table = some table' ∧
      Represents table' (calls.foldl (fun live c => c.note ord live) live) := by
  induction calls generalizing table live with
  | nil => exact ⟨table, rfl, h⟩
  | cons c calls ih =>
    obtain ⟨u, hu, hrep⟩ := represents_exec ord h (hc c (by simp))
    obtain ⟨table', hrun, hrep'⟩ := ih hrep (forall_mem_cons.mp hc).2
    exact ⟨table', by rw [Transition.run, hu, bind_some, hrun], hrep'⟩

theorem represents_empty : Represents SortedMap.empty fun _ _ => none :=
  fun _ => ⟨[], ⟨.nil, by simp, by simp⟩, rfl⟩

end Steps

/-! What callers see. -/

/-- The value under `k` lists the live ids in increasing order, each with the type bits of the
key object it came with; there is no value when no id is live. -/
structure ExactEntry (ord : KeyOrdering) (table : Table) (live : Live) (k : Bytes) : Prop where
  absent : table.find k = none ↔ ∀ id, live k id = none
  listed : ∀ value, table.find k = some value →
    ∃ records, decodeRecords value.length value = some records ∧
      (records.Pairwise fun a b => a.1 < b.1) ∧
      (∀ id, id ∈ records.map Prod.fst ↔ live k id ≠ none) ∧
      ∀ r ∈ records, ∀ key, live k r.1 = some key → r.2.ReadBack (keyString ord key).typeBits

section Results
variable {ord : KeyOrdering} {table : Table} {live : Live} {k value : Bytes} {rs : List Record}
  {records : List (RecordId × TypeBits)}

theorem decodeRecords_eq {fuel : Nat} (h : ParsesIn fuel value rs) :
    ∃ records, decodeRecords fuel value = some records ∧ List.Forall₂ Denotes records rs := by
  induction h with
  | @nil fuel => exact ⟨[], by cases fuel <;> rfl, .nil⟩
  | @cons fuel b t rest rest' id bits bs rs hid hbits henc _ ih =>
    obtain ⟨records, hrecords, hdenotes⟩ := ih
    refine ⟨(id, bits) :: records, ?_, .cons ⟨rfl, henc⟩ hdenotes⟩
    rw [decodeRecords, hid, bind_some, hbits, bind_some, hrecords]
    rfl

theorem map_fst_eq (h : List.Forall₂ Denotes records rs) :
    records.map Prod.fst = rs.map Prod.fst := by
  induction h with
  | nil => rfl
  | cons ha _ ih => rw [map_cons, map_cons, ih, ha.1]

theorem exists_denoted {a : RecordId × TypeBits} (h : List.Forall₂ Denotes records rs)
    (ha : a ∈ records) : ∃ r ∈ rs, Denotes a r := by
  induction h with
  | nil => cases ha
  | @cons b r records rs hb _ ih =>
    rcases mem_cons.mp ha with rfl | ha
    · exact ⟨r, by simp, hb⟩
    · obtain ⟨r', hr', hd⟩ := ih ha
      exact ⟨r', by simp [hr'], hd⟩

theorem exactEntry_of_lists (hlist : Lists live k rs) (hentry : EntryFor table k rs) :
    ExactEntry ord table live k := by
  have hids : ∀ id, id ∈ rs.map Prod.fst ↔ live k id ≠ none := fun id =>
    hlist.mem_ids.trans isSome_iff_ne_none
  unfold EntryFor at hentry
  cases hfind : table.find k with
  | none =>
    rw [hfind] at hentry
    obtain rfl : rs = [] := hentry
    refine ⟨⟨fun _ id => ?_, fun _ => hfind⟩, fun value hv => by cases hfind.symm.trans hv⟩
    by_contra hne
    cases (hids id).mpr hne
  | some value =>
    rw [hfind] at hentry
    obtain ⟨hne, hparse⟩ := hentry
    refine ⟨⟨fun hc => ?_, fun hnone => ?_⟩, fun value' hv => ?_⟩
    · cases hfind.symm.trans hc
    · obtain ⟨r, hr⟩ := exists_mem_of_ne_nil rs hne
      exact absurd (hnone r.1) ((hids r.1).mp (mem_map_of_mem hr))
    · obtain rfl := some.inj (hfind.symm.trans hv)
      obtain ⟨records, hrecords, hdenotes⟩ := decodeRecords_eq (hparse.parsesIn le_rfl)
      have hfst := map_fst_eq hdenotes
      refine ⟨records, hrecords, ?_, fun id => by rw [hfst]; exact hids id, ?_⟩
      · have hsorted := pairwise_map.mpr hlist.sorted
        rw [← hfst] at hsorted
        exact pairwise_map.mp hsorted
      · intro a ha key hkey
        obtain ⟨r, hr, hid, henc⟩ := exists_denoted hdenotes ha
        have hbits := (hlist.mem r).mp hr
        rw [← hid, hkey] at hbits
        rw [keyString_eq]
        have hr2 : keyBits key.fields = r.2 := some.inj hbits
        rw [hr2]
        exact henc.readBack (hlist.storable r hr).2

theorem isDup_eq (h : Represents table live) (key : KeyObject) (id : RecordId) :
    ∃ b, Unique.isDup ord table key.fields id = some b ∧
      (b = true ↔ (∃ id', live (keyString ord key).buffer id' ≠ none) ∧
        live (keyString ord key).buffer id = none) := by
  obtain ⟨rs, hlist, hentry⟩ := h (keyString ord key).buffer
  have hids : ∀ id, id ∈ rs.map Prod.fst ↔ live (keyString ord key).buffer id ≠ none :=
    fun id => hlist.mem_ids.trans isSome_iff_ne_none
  unfold EntryFor at hentry
  rw [Unique.isDup, resetToKey_eq_keyString, bind_some]
  cases hfind : table.find (keyString ord key).buffer with
  | none =>
    rw [hfind] at hentry
    obtain rfl : rs = [] := hentry
    refine ⟨false, rfl, by simp, ?_⟩
    rintro ⟨⟨id', hid'⟩, -⟩
    cases (hids id').mpr hid'
  | some value =>
    rw [hfind] at hentry
    obtain ⟨hne, hparse⟩ := hentry
    refine ⟨_, isDupLoop_eq (hparse.parsesIn le_rfl), ?_⟩
    rw [decide_eq_true_eq, hids id, not_not]
    obtain ⟨r, hr⟩ := exists_mem_of_ne_nil rs hne
    exact (and_iff_right ⟨r.1, (hids r.1).mp (mem_map_of_mem hr)⟩).symm

/-- After any calls on an empty index, the value under every key is exact, and `isDup` tells
whether a key is taken by other records only. -/
theorem idLists_exact (ord : KeyOrdering) (calls : List Call) (h : ∀ c ∈ calls, c.checked) :
    ∃ table, Transition.run (Call.exec ord) calls SortedMap.empty = some table ∧
      (∀ k, ExactEntry ord table (liveAfter ord calls) k) ∧
      ∀ key id, ∃ b, Unique.isDup ord table key.fields id = some b ∧
        (b = true ↔ (∃ id', liveAfter ord calls (keyString ord key).buffer id' ≠ none) ∧
          liveAfter ord calls (keyString ord key).buffer id = none) := by
  obtain ⟨table, hrun, hrep⟩ := represents_run ord represents_empty h
  refine ⟨table, hrun, fun k => ?_, fun key id => isDup_eq hrep key id⟩
  obtain ⟨rs, hlist, hentry⟩ := hrep k
  exact exactEntry_of_lists hlist hentry

/-- A string, the symbol that is encoded like it, and the string removed again. -/
def stringAndSymbol : List Call :=
  [.insert (singleKey (.string [97]) storable_a) ⟨5⟩, .insert (singleKey (.symbol [97]) rfl) ⟨3⟩,
    .unindex (singleKey (.string [97]) storable_a) ⟨5⟩]

theorem idLists_exact_stringAndSymbol : (∀ c ∈ stringAndSymbol, c.checked) ∧
    ∃ table, Transition.run (Call.exec ⟨0⟩) stringAndSymbol SortedMap.empty = some table ∧
      ∃ b, Unique.isDup ⟨0⟩ table (singleKey (.string [97]) storable_a).fields ⟨5⟩ = some b ∧
        (b = true ↔ (∃ id', liveAfter ⟨0⟩ stringAndSymbol
            (keyString ⟨0⟩ (singleKey (.string [97]) storable_a)).buffer id' ≠ none) ∧
          liveAfter ⟨0⟩ stringAndSymbol
            (keyString ⟨0⟩ (singleKey (.string [97]) storable_a)).buffer ⟨5⟩ = none) := by
  have hchecked : ∀ c ∈ stringAndSymbol, c.checked := by
    intro c hc
    simp only [stringAndSymbol, mem_cons, not_mem_nil, or_false] at hc
    rcases hc with rfl | rfl | rfl
    · exact ⟨by decide, rfl⟩
    · exact ⟨by decide, rfl⟩
    · exact (by decide : RecordId.isNormal ⟨5⟩ = true)
  obtain ⟨table, hrun, -, hdup⟩ := idLists_exact ⟨0⟩ stringAndSymbol hchecked
  exact ⟨hchecked, table, hrun, hdup _ _⟩

end Results

end MongolDb.WiredTiger
