import Mathlib.Data.List.Sort
import MongolDb.WiredTiger.Index

/-! The list of records under a key of a unique index, and what each loop over it does. -/
namespace MongolDb.WiredTiger
open ByteOrder KeyString List Option

/-- A record id with the type bits of the key it was inserted under. -/
abbrev Record := RecordId × List Bool

/-- A record that can be stored: a normal id, and type bits whose size fits the size byte. -/
def Storable (r : Record) : Prop := r.1.isNormal = true ∧ r.2.length ≤ TypeBits.kMaxStoredBits

def recordBytes (r : Record) : Bytes :=
  recordIdBytes r.1.value ++ (TypeBits.reset.appendBits r.2).getBuffer

/-- `a` is how a program variable holds the record `r`. -/
def Denotes (a : RecordId × TypeBits) (r : Record) : Prop := a.1 = r.1 ∧ a.2.Encodes r.2

/-- Reading records one after the other uses up `value` and gives `rs`. -/
inductive Parses : Bytes → List Record → Prop where
  | nil : Parses [] []
  | cons {value rest rest' : Bytes} {id : RecordId} {bits : TypeBits} {bs : List Bool}
      {rs : List Record} (hid : decodeRecordId value = some (id, rest))
      (hbits : TypeBits.fromBuffer rest = some (bits, rest')) (henc : bits.Encodes bs)
      (hlt : rest'.length < value.length) (hrs : Parses rest' rs) : Parses value ((id, bs) :: rs)

/-- A loop over `value` reads the records within so many rounds. -/
inductive ParsesIn : Nat → Bytes → List Record → Prop where
  | nil {fuel : Nat} : ParsesIn fuel [] []
  | cons {fuel : Nat} {b : UInt8} {t rest rest' : Bytes} {id : RecordId} {bits : TypeBits}
      {bs : List Bool} {rs : List Record} (hid : decodeRecordId (b :: t) = some (id, rest))
      (hbits : TypeBits.fromBuffer rest = some (bits, rest')) (henc : bits.Encodes bs)
      (hrs : ParsesIn fuel rest' rs) : ParsesIn (fuel + 1) (b :: t) ((id, bs) :: rs)

section
variable {r : Record} {rs : List Record} {value rest : Bytes} {bits : TypeBits}

theorem encodes_of_storable (h : Storable r) : (TypeBits.reset.appendBits r.2).Encodes r.2 := by
  have hmax : TypeBits.kMaxStoredBits = 504 := rfl
  have hneeded : TypeBits.kMaxBytesNeeded = 127 := rfl
  have := h.2
  exact TypeBits.encodes_appendBits (by omega)

theorem appendRecord_eq (h : Storable r) (hbits : bits.Encodes r.2) (value : Bytes) :
    appendRecord value r.1 bits = some (value ++ recordBytes r) := by
  rw [appendRecord, appendRecordId_of_isNormal h.1, map_some, recordBytes,
    hbits.getBuffer_eq (encodes_of_storable h) h.2, append_assoc]

theorem recordIdBytes_ne_nil (v : Nat) : recordIdBytes v ≠ [] := by
  simp [recordIdBytes]

theorem Parses.parsesIn {fuel : Nat} (h : Parses value rs) (hfuel : value.length ≤ fuel) :
    ParsesIn fuel value rs := by
  induction h generalizing fuel with
  | nil => exact .nil
  | @cons value _ _ _ _ _ _ hid hbits henc hlt _ ih =>
    cases value with
    | nil => cases hlt
    | cons b t =>
      cases fuel with
      | zero => cases hfuel
      | succ fuel =>
        refine .cons hid hbits henc (ih ?_)
        exact (Nat.le_of_lt_succ hlt).trans (Nat.le_of_succ_le_succ hfuel)

/-- A record in front of others. -/
theorem Parses.recordBytes_append (h : Storable r) (hrs : Parses rest rs) :
    Parses (recordBytes r ++ rest) (r :: rs) := by
  obtain ⟨bits, hbits, henc⟩ := (encodes_of_storable h).fromBuffer h.2 rest
  have hid := decodeRecordId_append (RecordId.repr_nonneg h.1)
    ((TypeBits.reset.appendBits r.2).getBuffer ++ rest)
  rw [← append_assoc] at hid
  refine .cons hid hbits henc ?_ hrs
  have hpos := length_pos_iff.mpr (recordIdBytes_ne_nil r.1.value)
  simp only [recordBytes, length_append]
  omega

theorem parses_flatMap (h : ∀ r ∈ rs, Storable r) : Parses (rs.flatMap recordBytes) rs := by
  induction rs with
  | nil => exact .nil
  | cons r rs ih =>
    exact (ih (forall_mem_cons.mp h).2).recordBytes_append (h r (by simp))

/-- The only record under a key, with all-zero type bits left out. -/
theorem parses_onlyRecord (h : Storable r) (hbits : bits.Encodes r.2) :
    ∃ value, onlyRecord r.1 bits = some value ∧ Parses value [r] := by
  have hpos := length_pos_iff.mpr (recordIdBytes_ne_nil r.1.value)
  rw [onlyRecord, appendRecordId_of_isNormal h.1]
  refine ⟨_, rfl, ?_⟩
  cases hz : bits.isAllZeros with
  | true =>
    have hid := decodeRecordId_append (RecordId.repr_nonneg h.1) []
    rw [append_nil] at hid
    exact .cons hid rfl (TypeBits.encodes_reset (hbits.zeros.symm.trans hz)) hpos .nil
  | false =>
    have hvalue := Parses.nil.recordBytes_append h
    rw [append_nil, recordBytes, ← hbits.getBuffer_eq (encodes_of_storable h) h.2] at hvalue
    exact hvalue

end

theorem ParsesIn.nil_iff {fuel : Nat} {value : Bytes} {rs : List Record}
    (h : ParsesIn fuel value rs) : value = [] ↔ rs = [] := by
  cases h <;> simp

/-! The loops. Each is followed by induction on the records that it reads. -/

section
variable {value : Bytes} {rs : List Record} {id : RecordId} {bits : TypeBits} {fuel : Nat}

section
variable (h : ParsesIn fuel value rs)
include h

theorem isDupLoop_eq : Unique.isDupLoop id fuel value = some (decide (id ∉ rs.map Prod.fst)) := by
  induction h with
  | @nil fuel => cases fuel <;> rfl
  | cons hid hbits _ _ ih =>
    rw [Unique.isDupLoop, hid, bind_some, hbits, bind_some]
    simp only
    split
    · rename_i heq
      simp [heq]
    · rename_i hne
      rw [ih]
      simp [Ne.symm hne]

/-- An id that is listed already ends the copying. -/
theorem insertLoop_mem {bs : List Bool} (hrs : ∀ r ∈ rs, Storable r)
    (hnew : Storable (id, bs)) (hbits : bits.Encodes bs) (hmem : id ∈ rs.map Prod.fst)
    (insertedId : Bool) (acc : Bytes) :
    insertLoop id bits fuel value insertedId acc = some .alreadyInIndex := by
  induction h generalizing insertedId acc with
  | nil => cases hmem
  | @cons fuel b t rest rest' id' bits' bs' rs hid hbits' henc _ ih =>
    rw [insertLoop, hid, bind_some]
    by_cases heq : id = id'
    · rw [if_pos heq]
    · have hrest : id ∈ rs.map Prod.fst := (mem_cons.mp hmem).resolve_left heq
      rw [if_neg heq, hbits']
      have hcopy := fun acc => appendRecord_eq (hrs (id', bs') (by simp)) henc acc
      have hput := fun acc => appendRecord_eq hnew hbits acc
      cases (!insertedId && decide (id < id')) with
      | false =>
        simp only [Bool.false_eq_true, if_false, bind_some, hcopy]
        exact ih (forall_mem_cons.mp hrs).2 hrest _ _
      | true =>
        simp only [if_true, bind_some, hcopy, hput]
        exact ih (forall_mem_cons.mp hrs).2 hrest _ _

/-- Once the new id is in place the rest is copied. -/
theorem insertLoop_inserted (hrs : ∀ r ∈ rs, Storable r)
    (hmem : id ∉ rs.map Prod.fst) (acc : Bytes) : insertLoop id bits fuel value true acc =
      some (.value true (acc ++ rs.flatMap recordBytes)) := by
  induction h generalizing acc with
  | @nil fuel => cases fuel <;> simp [insertLoop]
  | @cons fuel b t rest rest' id' bits' bs' rs hid hbits' henc _ ih =>
    have hcopy := appendRecord_eq (hrs (id', bs') (by simp)) henc acc
    simp only [map_cons, mem_cons, not_or] at hmem
    rw [insertLoop, hid, bind_some, if_neg hmem.1, hbits']
    simp only [Bool.not_true, Bool.false_and, Bool.false_eq_true, if_false, bind_some,
      hcopy, Bool.or_false]
    rw [ih (forall_mem_cons.mp hrs).2 hmem.2, flatMap_cons, append_assoc]

/-- A new id is put among the others, in its place. -/
theorem insertLoop_new {bs : List Bool} (hrs : ∀ r ∈ rs, Storable r)
    (hnew : Storable (id, bs)) (hbits : bits.Encodes bs) (hmem : id ∉ rs.map Prod.fst)
    (acc : Bytes) :
    ∃ insertedId acc', insertLoop id bits fuel value false acc = some (.value insertedId acc') ∧
      finishInsert id bits insertedId acc' = some
        (acc ++ (rs.orderedInsert (fun a b => a.1 ≤ b.1) (id, bs)).flatMap recordBytes) := by
  induction h generalizing acc with
  | @nil fuel =>
    refine ⟨false, acc, by cases fuel <;> rfl, ?_⟩
    have hput := appendRecord_eq hnew hbits acc
    simpa [finishInsert] using hput
  | @cons fuel b t rest rest' id' bits' bs' rs hid hbits' henc hparse ih =>
    have hcopy := fun acc => appendRecord_eq (hrs (id', bs') (by simp)) henc acc
    have hput := appendRecord_eq hnew hbits acc
    have hrs' : ∀ r ∈ rs, Storable r := (forall_mem_cons.mp hrs).2
    simp only [map_cons, mem_cons, not_or] at hmem
    rw [insertLoop, hid, bind_some, if_neg hmem.1, hbits']
    by_cases hlt' : id < id'
    · refine ⟨true, acc ++ recordBytes (id, bs) ++ recordBytes (id', bs') ++
        rs.flatMap recordBytes, ?_, ?_⟩
      · simp only [Bool.not_false, Bool.true_and, hlt', decide_true, if_true, bind_some,
          hput, hcopy, Bool.or_true]
        exact insertLoop_inserted hparse hrs' hmem.2 _
      · rw [orderedInsert, if_pos hlt'.le]
        simp [finishInsert]
    · obtain ⟨insertedId, acc', hloop, hfinish⟩ := ih hrs' hmem.2 (acc ++ recordBytes (id', bs'))
      refine ⟨insertedId, acc', ?_, ?_⟩
      · simpa only [Bool.not_false, Bool.true_and, hlt', decide_false, Bool.false_eq_true,
          if_false, bind_some, hcopy, Bool.or_false] using hloop
      · have hle : ¬ id ≤ id' := fun hle => hlt' (lt_of_le_of_ne hle hmem.1)
        rw [hfinish, orderedInsert, if_neg hle, flatMap_cons, append_assoc]

/-- Without the id, every record is collected. -/
theorem unindexLoop_absent (hmem : id ∉ rs.map Prod.fst)
    (foundId : Bool) {acc : List (RecordId × TypeBits)} {as : List Record}
    (hacc : List.Forall₂ Denotes acc as) :
    ∃ out, unindexLoop id fuel value foundId acc = some (.records foundId out) ∧
      List.Forall₂ Denotes out (as ++ rs) := by
  induction h generalizing acc as with
  | @nil fuel => exact ⟨acc, by cases fuel <;> rfl, by rwa [append_nil]⟩
  | @cons fuel b t rest rest' id' bits' bs' rs hid hbits' henc _ ih =>
    simp only [map_cons, mem_cons, not_or] at hmem
    have hone : List.Forall₂ Denotes [(id', bits')] [(id', bs')] := .cons ⟨rfl, henc⟩ .nil
    obtain ⟨out, hloop, hout⟩ := ih hmem.2 (rel_append hacc hone)
    refine ⟨out, ?_, by rwa [append_assoc] at hout⟩
    rw [unindexLoop, hid, bind_some, hbits', bind_some, if_neg hmem.1, hloop]

omit h in
theorem filter_ne_eq_self (h : id ∉ rs.map Prod.fst) : rs.filter (fun r => decide (r.1 ≠ id)) = rs := by
  rw [filter_eq_self]
  intro r hr
  have hne : r.1 ≠ id := fun he => h (mem_map.mpr ⟨r, hr, he⟩)
  simpa using hne

/-- With the id, the other records are collected, unless there are none. -/
theorem unindexLoop_present (hnodup : (rs.map Prod.fst).Nodup)
    (hmem : id ∈ rs.map Prod.fst) {acc : List (RecordId × TypeBits)} {as : List Record}
    (hacc : List.Forall₂ Denotes acc as) : let others := as ++ rs.filter fun r => decide (r.1 ≠ id)
    (others = [] → unindexLoop id fuel value false acc = some .onlyId) ∧
      (others ≠ [] → ∃ out, unindexLoop id fuel value false acc = some (.records true out) ∧
        List.Forall₂ Denotes out others) := by
  induction h generalizing acc as with
  | nil => cases hmem
  | @cons fuel b t rest rest' id' bits' bs' rs hid hbits' henc hparse ih =>
    obtain ⟨hfresh, hnodup⟩ := nodup_cons.mp hnodup
    by_cases heq : id = id'
    · subst heq
      have hothers : ((id, bs') :: rs).filter (fun r => decide (r.1 ≠ id)) = rs := by
        rw [filter_cons_of_neg (by simp), filter_ne_eq_self hfresh]
      simp only [hothers]
      constructor
      · intro hnil
        obtain ⟨rfl, rfl⟩ := append_eq_nil_iff.mp hnil
        obtain rfl := hparse.nil_iff.mpr rfl
        cases hacc
        rw [unindexLoop, hid, bind_some, hbits', bind_some, if_pos rfl]
        rfl
      · intro hne
        have hmore : (acc.isEmpty && rest'.isEmpty) = false := by
          cases hacc with
          | cons _ _ => rfl
          | nil =>
            cases rest' with
            | cons _ _ => rfl
            | nil => exact absurd (hparse.nil_iff.mp rfl) hne
        obtain ⟨out, hloop, hout⟩ := unindexLoop_absent hparse hfresh true hacc
        refine ⟨out, ?_, hout⟩
        rw [unindexLoop, hid, bind_some, hbits', bind_some, if_pos rfl]
        simp only [hmore, Bool.false_eq_true, if_false, hloop]
    · have hrest : id ∈ rs.map Prod.fst := (mem_cons.mp hmem).resolve_left heq
      have hone : List.Forall₂ Denotes [(id', bits')] [(id', bs')] := .cons ⟨rfl, henc⟩ .nil
      have hnext := ih hnodup hrest (rel_append hacc hone)
      have hothers : as ++ ((id', bs') :: rs).filter (fun r => decide (r.1 ≠ id)) =
          as ++ [(id', bs')] ++ rs.filter fun r => decide (r.1 ≠ id) := by
        rw [filter_cons_of_pos (by simpa using Ne.symm heq), append_assoc]
        rfl
      simp only [hothers]
      rw [unindexLoop, hid, bind_some, hbits', bind_some, if_neg heq]
      exact hnext

end

theorem appendRecords_eq {records : List (RecordId × TypeBits)}
    (h : List.Forall₂ Denotes records rs) (hrs : ∀ r ∈ rs, Storable r) (acc : Bytes) :
    appendRecords acc records = some (acc ++ rs.flatMap recordBytes) := by
  induction h generalizing acc with
  | nil => simp [appendRecords]
  | @cons a r records rs ha _ ih =>
    obtain ⟨id, bits⟩ := a
    obtain ⟨rfl, henc⟩ : id = r.1 ∧ bits.Encodes r.2 := ha
    rw [appendRecords, appendRecord_eq (hrs r (by simp)) henc, bind_some,
      ih (forall_mem_cons.mp hrs).2, flatMap_cons, append_assoc]

/-- The records put back are the ones read from the new value. -/
theorem parses_recordsValue {records : List (RecordId × TypeBits)}
    (h : List.Forall₂ Denotes records rs) (hrs : ∀ r ∈ rs, Storable r) :
    ∃ value, recordsValue records = some value ∧ Parses value rs := by
  cases h with
  | nil => exact ⟨[], rfl, .nil⟩
  | @cons a r records rs ha hrest =>
    cases hrest with
    | nil =>
      obtain ⟨id, bits⟩ := a
      obtain ⟨rfl, henc⟩ : id = r.1 ∧ bits.Encodes r.2 := ha
      exact parses_onlyRecord (hrs r (by simp)) henc
    | cons hb hrest =>
      have hvalue := appendRecords_eq (.cons ha (.cons hb hrest)) hrs []
      rw [nil_append] at hvalue
      exact ⟨_, hvalue, parses_flatMap hrs⟩

end

end MongolDb.WiredTiger
