import MongolDb.Bson.Grammar

/-! The metrics of diagnostic samples (db/ftdc/util.cpp). Samples are documents as they stand in a
buffer; how a double or a decimal is cast to 64 bits is left open. -/
namespace MongolDb.Ftdc
open Bson ByteOrder ByteLayout

inductive ErrorCode where
  | badValue
  | invalidLength
  deriving DecidableEq

/-- How a function ends that does not come to its result. -/
inductive Failure where
  | status (code : ErrorCode) (reason : String)
  /-- A value could not be read from the rest of the buffer. -/
  | load
  /-- The validator refuses the reference document. -/
  | invalid
  /-- The value of a `StatusWith` is asked for that has none. -/
  | noValue
  /-- An array is written outside its bounds. -/
  | outside
  /-- There is no memory for a vector: an exception is thrown. -/
  | badAlloc
  /-- Bytes that nobody has checked are no document: anything may happen. -/
  | unchecked
  deriving DecidableEq

def kMaxRecursion : Nat := 10

def recursionLimit : Failure := .status .badValue "Recursion limit reached."

def isNumber : BSONType → Bool
  | .numberInt | .numberDouble | .numberDecimal | .numberLong => true
  | _ => false

/-- The types of two elements match: any numeric type matches any other. -/
def typesMatch (current reference : BSONType) : Bool :=
  current = reference || (isNumber reference && isNumber current == isNumber reference)

/-- The object of an element that has one. -/
def obj : RawValue → RawObj
  | .document _ _ elems => elems
  | _ => []

section
variable (toLong : BSONType → Bytes → UInt64)

/-- What a value of a fixed size adds to the metrics. -/
def fixedMetrics (v : Fixed) : List UInt64 :=
  match v.type with
  | .numberDouble | .numberDecimal => [toLong v.type v.bytes]
  | .numberInt => [(Int64.ofInt (toInt32 (ofLe v.bytes))).toUInt64]
  | .numberLong | .date => [UInt64.ofNat (ofLe v.bytes)]
  | .bool => [if v.bytes = [0] then 0 else 1]
  | .bsonTimestamp => [UInt64.ofNat (ofLe v.bytes / 2 ^ 32), UInt64.ofNat (ofLe v.bytes % 2 ^ 32)]
  | _ => []

/-- Name and type of the current element are those of the reference element. -/
def elementsMatch (current : CString × RawValue) : Option (CString × RawValue) → Bool
  | none => false
  | some reference =>
    decide (reference.1.chars = current.1.chars) && typesMatch current.2.type reference.2.type

mutual
/-- The loop of `extractMetricsFromDocument`, with the metrics that it leaves behind when it fails. -/
def extractElems (recursion : Nat) :
    RawObj → Bool → RawObj → List UInt64 → Except Failure Bool × List UInt64
  | [], matching, itReference, metrics => (.ok (matching && itReference.isEmpty), metrics)
  | (name, v) :: itCurrent, matching, itReference, metrics =>
    -- the current document is longer than the reference document
    let matching := matching && !itReference.isEmpty
    let referenceElement := if matching then itReference.head? else none
    let itReference := if matching then itReference.tail else itReference
    let matching := matching && elementsMatch (name, v) referenceElement
    match extractValue recursion v matching referenceElement metrics with
    | (.error err, metrics) => (.error err, metrics)
    | (.ok matching, metrics) => extractElems recursion itCurrent matching itReference metrics
/-- The switch over the type of the current element. -/
def extractValue (recursion : Nat) :
    RawValue → Bool → Option (CString × RawValue) → List UInt64 → Except Failure Bool × List UInt64
  | .fixed v, matching, _, metrics => (.ok matching, metrics ++ fixedMetrics toLong v)
  | .document _ _ elems, matching, referenceElement, metrics =>
    let reference := if matching then (referenceElement.map fun e => obj e.2).getD [] else []
    if recursion + 1 > kMaxRecursion then (.error recursionLimit, metrics)
    else
      match extractElems (recursion + 1) elems matching reference metrics with
      | (.error err, metrics) => (.error err, metrics)
      | (.ok sub, metrics) => (.ok (matching && sub), metrics)
  | _, matching, _, metrics => (.ok matching, metrics)
end

def extractMetricsFromDocument (referenceDoc currentDoc : RawObj) (metrics : List UInt64) :
    Except Failure Bool × List UInt64 :=
  extractElems toLong 0 currentDoc true referenceDoc metrics

end

section Construct
variable (metrics : List UInt64)

def moreMetrics : Failure :=
  .status .badValue "There are more metrics in the reference document then expected."

theorem width_le_eight {t : BSONType} (h : t.width = some 8) (n : Nat) :
    t.width = some (le 8 n).length := by
  rw [h, length_le]

/-- A value of eight bytes that is not a boolean. -/
def eightBytes (t : BSONType) (h : t.width = some 8) (ht : t ≠ .bool) (n : Nat) : RawValue :=
  .fixed ⟨t, le 8 n, width_le_eight h n, fun hbool => absurd hbool ht⟩

def boolByte (metric : UInt64) : Bytes := [if metric = 0 then 0 else 1]

theorem boolByte_eq (metric : UInt64) : boolByte metric = [0] ∨ boolByte metric = [1] := by
  rw [boolByte]
  split
  · exact .inl rfl
  · exact .inr rfl

def boolValue (metric : UInt64) : RawValue :=
  .fixed ⟨.bool, boolByte metric, rfl, fun _ => boolByte_eq metric⟩

/-- One value of a fixed size, from the metrics at `pos` on. -/
def constructFixed (v : Fixed) (pos : Nat) : Except Failure (RawValue × Nat) :=
  match v.type with
  | .numberDouble | .numberInt | .numberLong | .numberDecimal =>
    match metrics[pos]? with
    | none => .error moreMetrics
    | some metric => .ok (eightBytes .numberLong rfl (by decide) metric.toNat, pos + 1)
  | .bool =>
    match metrics[pos]? with
    | none => .error moreMetrics
    | some metric => .ok (boolValue metric, pos + 1)
  | .date =>
    match metrics[pos]? with
    | none => .error moreMetrics
    | some metric => .ok (eightBytes .date rfl (by decide) metric.toNat, pos + 1)
  | .bsonTimestamp =>
    -- the second metric is asked for first: without it neither is read
    match metrics[pos]?, metrics[pos + 1]? with
    | some seconds, some increment =>
      .ok (eightBytes .bsonTimestamp rfl (by decide)
        (seconds.toNat % 2 ^ 32 * 2 ^ 32 + increment.toNat % 2 ^ 32), pos + 2)
    | _, _ => .error moreMetrics
  | _ => .ok (.fixed v, pos)

mutual
def constructElems (recursion : Nat) : RawObj → Nat → Except Failure (RawObj × Nat)
  | [], pos => .ok ([], pos)
  | (name, v) :: ref, pos => do
    let (v, pos) ← constructValue recursion v pos
    let (elems, pos) ← constructElems recursion ref pos
    return ((name, v) :: elems, pos)
def constructValue (recursion : Nat) : RawValue → Nat → Except Failure (RawValue × Nat)
  | .fixed v, pos => constructFixed metrics v pos
  | .document t ht elems, pos =>
    if recursion + 1 > kMaxRecursion then .error recursionLimit
    else do
      let (sub, pos) ← constructElems (recursion + 1) elems pos
      return (.document t ht sub, pos)
  | v, pos => .ok (v, pos)
end

def constructDocumentFromMetrics (ref : RawObj) : Except Failure RawObj := do
  let (doc, _) ← constructElems metrics 0 ref 0
  return doc

end Construct

/-! What the two functions come to. -/

mutual
/-- The levels of documents inside a value. -/
def valueDepth : RawValue → Nat
  | .document _ _ elems => elemsDepth elems + 1
  | _ => 0
def elemsDepth : RawObj → Nat
  | [] => 0
  | (_, v) :: elems => max (valueDepth v) (elemsDepth elems)
end

section Spec
variable (toLong : BSONType → Bytes → UInt64)

mutual
def valueMetrics : RawValue → List UInt64
  | .fixed v => fixedMetrics toLong v
  | .document _ _ elems => elemsMetrics elems
  | _ => []
def elemsMetrics : RawObj → List UInt64
  | [] => []
  | (_, v) :: elems => valueMetrics v ++ elemsMetrics elems
end

mutual
/-- The documents inside two values have the same schema. -/
def sameValueSchema : RawValue → RawValue → Bool
  | .document _ _ elems, reference => sameSchema elems (obj reference)
  | _, _ => true
/-- Two documents have the same names and types in the same places. -/
def sameSchema : RawObj → RawObj → Bool
  | [], reference => reference.isEmpty
  | _ :: _, [] => false
  | (name, v) :: current, (name', v') :: reference =>
    elementsMatch (name, v) (some (name', v')) && sameValueSchema v v' && sameSchema current reference
end

/-- How many metrics a value of a type that is not a document has. -/
def metricCount : BSONType → Nat
  | .numberDouble | .numberDecimal | .numberInt | .numberLong | .date | .bool => 1
  | .bsonTimestamp => 2
  | _ => 0

theorem length_fixedMetrics (v : Fixed) : (fixedMetrics toLong v).length = metricCount v.type := by
  unfold fixedMetrics metricCount
  cases v.type <;> rfl

mutual
theorem extractValue_eq (recursion : Nat) (v reference : RawValue) (matching : Bool)
    (referenceElement : Option (CString × RawValue)) (metrics : List UInt64)
    (href : matching = true → referenceElement.map Prod.snd = some reference)
    (h : recursion + valueDepth v ≤ kMaxRecursion) :
    extractValue toLong recursion v matching referenceElement metrics =
      (.ok (matching && sameValueSchema v reference), metrics ++ valueMetrics toLong v) := by
  cases v with
  | fixed v => simp [extractValue, sameValueSchema, valueMetrics]
  | document t ht elems =>
    rw [valueDepth] at h
    have hdepth : ¬ recursion + 1 > kMaxRecursion := by omega
    have hobj : (if matching then (referenceElement.map fun e => obj e.2).getD [] else []) =
        if matching then obj reference else [] := by
      split
      next hmatching =>
        have hsnd := congrArg (fun r => (r.map obj).getD []) (href hmatching)
        simpa [Function.comp_def] using hsnd
      next => rfl
    have hsub := extractElems_eq (recursion + 1) elems matching
      (if matching then obj reference else []) metrics (by omega)
    rw [extractValue, hobj, if_neg hdepth, hsub, valueMetrics, sameValueSchema]
    cases matching <;> simp
  | text | dbRef | regEx | binData | codeWScope =>
    simp [extractValue, sameValueSchema, valueMetrics]
/-- All metrics of the current document are extracted, whether or not it has the schema of the
reference document. -/
theorem extractElems_eq (recursion : Nat) (current : RawObj) (matching : Bool) (reference : RawObj)
    (metrics : List UInt64) (h : recursion + elemsDepth current ≤ kMaxRecursion) :
    extractElems toLong recursion current matching reference metrics =
      (.ok (matching && sameSchema current reference), metrics ++ elemsMetrics toLong current) := by
  cases current with
  | nil => simp [extractElems, sameSchema, elemsMetrics]
  | cons e current =>
    obtain ⟨name, v⟩ := e
    rw [elemsDepth] at h
    have hv : recursion + valueDepth v ≤ kMaxRecursion := by omega
    have hcurrent : recursion + elemsDepth current ≤ kMaxRecursion := by omega
    have hvalue := extractValue_eq recursion v v false none metrics (by simp) hv
    cases matching with
    | false =>
      -- the reference document is not looked at again
      have helems := extractElems_eq recursion current false reference
        (metrics ++ valueMetrics toLong v) hcurrent
      simp [extractElems, elemsMetrics, hvalue, helems]
    | true =>
      cases reference with
      | nil =>
        have helems := extractElems_eq recursion current false []
          (metrics ++ valueMetrics toLong v) hcurrent
        simp [extractElems, elemsMetrics, sameSchema, hvalue, helems]
      | cons r reference =>
        have hvalue := extractValue_eq recursion v r.2 (elementsMatch (name, v) (some r)) (some r)
          metrics (by simp) hv
        have helems := extractElems_eq recursion current
          (elementsMatch (name, v) (some r) && sameValueSchema v r.2) reference
          (metrics ++ valueMetrics toLong v) hcurrent
        simp [extractElems, elemsMetrics, sameSchema, hvalue, helems]
end

theorem extractMetricsFromDocument_eq {reference current : RawObj} (metrics : List UInt64)
    (h : elemsDepth current ≤ kMaxRecursion) :
    extractMetricsFromDocument toLong reference current metrics =
      (.ok (sameSchema current reference), metrics ++ elemsMetrics toLong current) := by
  rw [extractMetricsFromDocument, extractElems_eq toLong 0 current true reference metrics (by omega),
    Bool.true_and]

theorem eq_or_isNumber {t t' : BSONType} (h : typesMatch t t' = true) :
    t = t' ∨ isNumber t = true ∧ isNumber t' = true := by
  rw [typesMatch, Bool.or_eq_true, decide_eq_true_iff, Bool.and_eq_true, beq_iff_eq] at h
  exact h.imp_right fun ⟨h', he⟩ => ⟨he.trans h', h'⟩

/-- Documents of one schema have the same number of metrics. -/
theorem metricCount_of_typesMatch {t t' : BSONType} (h : typesMatch t t' = true) :
    metricCount t = metricCount t' := by
  have hone : ∀ t : BSONType, isNumber t = true → metricCount t = 1 := by
    intro t
    cases t <;> decide
  rcases eq_or_isNumber h with rfl | ⟨h, h'⟩
  · rfl
  · rw [hone t h, hone t' h']

theorem isDocument_of_typesMatch {t t' : BSONType} (h : typesMatch t t' = true) :
    t.isDocument = t'.isDocument := by
  have hnone : ∀ t : BSONType, isNumber t = true → t.isDocument = false := by
    intro t
    cases t <;> decide
  rcases eq_or_isNumber h with rfl | ⟨h, h'⟩
  · rfl
  · rw [hnone t h, hnone t' h']

theorem not_document_of_isText {t : BSONType} (h : t.isText = true) :
    t.isDocument = false ∧ metricCount t = 0 := by
  revert h
  cases t <;> decide

theorem not_document_of_width {t : BSONType} {n : Nat} (h : t.width = some n) :
    t.isDocument = false := by
  cases t <;> first
    | rfl
    | cases h

/-- A value is a document, or its type says how many metrics it has. -/
theorem document_or_plain (v : RawValue) :
    (∃ t ht, v = .document t ht (obj v)) ∨
      (v.type.isDocument = false ∧ (valueMetrics toLong v).length = metricCount v.type) := by
  cases v with
  | document t ht elems => exact .inl ⟨t, ht, rfl⟩
  | fixed v =>
    rw [valueMetrics]
    exact .inr ⟨not_document_of_width v.size, length_fixedMetrics toLong v⟩
  | text t ht s =>
    obtain ⟨hdoc, hcount⟩ := not_document_of_isText ht
    exact .inr ⟨hdoc, by simp [valueMetrics, RawValue.type, hcount]⟩
  | dbRef | regEx | binData | codeWScope =>
    exact .inr ⟨rfl, by simp [valueMetrics, RawValue.type, metricCount]⟩

/-- Values that are not documents and whose types match have the same number of metrics. -/
theorem length_eq_of_plain {v reference : RawValue} (h : v.type.isDocument = false)
    (htypes : typesMatch v.type reference.type = true) :
    (valueMetrics toLong v).length = (valueMetrics toLong reference).length := by
  have hboth : ∀ v : RawValue, v.type.isDocument = false →
      (valueMetrics toLong v).length = metricCount v.type := by
    intro v hv
    rcases document_or_plain toLong v with ⟨t, ht, hdoc⟩ | ⟨-, hcount⟩
    · rw [hdoc, RawValue.type, ht] at hv
      cases hv
    · exact hcount
  rw [hboth v h, hboth reference ((isDocument_of_typesMatch htypes).symm.trans h),
    metricCount_of_typesMatch htypes]

/-- Documents of one schema have the same number of metrics. -/
theorem length_elemsMetrics_eq : ∀ {current reference : RawObj}, sameSchema current reference = true →
    (elemsMetrics toLong current).length = (elemsMetrics toLong reference).length
  | [], reference, h => by
    rw [sameSchema, List.isEmpty_iff] at h
    rw [h]
  | (_, _) :: _, [], h => by
    rw [sameSchema] at h
    cases h
  | (name, v) :: current, (name', reference) :: references, h => by
    simp only [sameSchema, Bool.and_eq_true, elementsMatch] at h
    obtain ⟨⟨⟨-, htypes⟩, hvalue⟩, hrest⟩ := h
    have hv : (valueMetrics toLong v).length = (valueMetrics toLong reference).length := by
      rcases document_or_plain toLong v with ⟨t, ht, hdoc⟩ | ⟨hplain, -⟩
      · have hdocument := isDocument_of_typesMatch htypes
        rw [hdoc, RawValue.type, ht] at hdocument
        rcases document_or_plain toLong reference with ⟨t', ht', hdoc'⟩ | ⟨hplain', -⟩
        · rw [hdoc, sameValueSchema] at hvalue
          rw [hdoc, hdoc', valueMetrics, valueMetrics]
          exact length_elemsMetrics_eq hvalue
        · rw [hplain'] at hdocument
          cases hdocument
      · exact length_eq_of_plain toLong hplain htypes
    simp only [elemsMetrics, List.length_append, hv, length_elemsMetrics_eq hrest]
termination_by current => sizeOf current
decreasing_by
  · have hsize := congrArg sizeOf hdoc
    simp only [RawValue.document.sizeOf_spec, List.cons.sizeOf_spec, Prod.mk.sizeOf_spec] at hsize ⊢
    omega
  · simp only [List.cons.sizeOf_spec]
    omega

/-- No value has more metrics than bytes. -/
theorem metricCount_le_width {t : BSONType} {n : Nat} (h : t.width = some n) : metricCount t ≤ n := by
  cases t <;> cases h <;> decide

mutual
theorem length_valueMetrics_le (v : RawValue) :
    (valueMetrics toLong v).length ≤ v.encode.length := by
  cases v with
  | fixed v =>
    rw [valueMetrics, length_fixedMetrics, RawValue.encode]
    exact metricCount_le_width v.size
  | document t ht elems =>
    rw [valueMetrics, encode_document, length_encodeDocument]
    exact (length_elemsMetrics_le elems).trans (Nat.le_add_right _ _)
  | _ => simp [valueMetrics]
theorem length_elemsMetrics_le (elems : RawObj) :
    (elemsMetrics toLong elems).length ≤ (encodeElems elems).length := by
  cases elems with
  | nil => simp [elemsMetrics]
  | cons e elems =>
    obtain ⟨name, v⟩ := e
    have hv := length_valueMetrics_le v
    have helems := length_elemsMetrics_le elems
    rw [elemsMetrics, encodeElems_cons, List.length_append, List.length_append, length_encodeElement]
    dsimp only
    omega
end

end Spec

section
variable (toLong : BSONType → Bytes → UInt64) (metrics : List UInt64)

theorem constructFixed_ok (v : Fixed) {pos : Nat} (h : pos + metricCount v.type ≤ metrics.length) :
    ∃ v', constructFixed metrics v pos = .ok (v', pos + metricCount v.type) := by
  have hget : ∀ i < metrics.length, ∃ metric, metrics[i]? = some metric :=
    fun i hi => ⟨_, List.getElem?_eq_getElem hi⟩
  unfold constructFixed
  generalize v.type = t at h
  cases t
  case bsonTimestamp =>
    rw [metricCount] at h
    obtain ⟨seconds, hseconds⟩ := hget pos (by omega)
    obtain ⟨increment, hincrement⟩ := hget (pos + 1) (by omega)
    simp [hseconds, hincrement, metricCount]
  all_goals first
    | exact ⟨_, rfl⟩
    | (rw [metricCount] at h
       obtain ⟨metric, hmetric⟩ := hget pos (by omega)
       simp [hmetric, metricCount])

mutual
theorem constructValue_ok (recursion : Nat) (v : RawValue) (pos : Nat)
    (h : pos + (valueMetrics toLong v).length ≤ metrics.length)
    (hdepth : recursion + valueDepth v ≤ kMaxRecursion) :
    ∃ v', constructValue metrics recursion v pos = .ok (v', pos + (valueMetrics toLong v).length) := by
  cases v with
  | fixed v =>
    rw [valueMetrics, length_fixedMetrics] at h ⊢
    rw [constructValue]
    exact constructFixed_ok metrics v h
  | document t ht elems =>
    rw [valueMetrics] at h ⊢
    rw [valueDepth] at hdepth
    obtain ⟨doc, hdoc⟩ := constructElems_ok (recursion + 1) elems pos h (by omega)
    rw [constructValue, if_neg (by omega), hdoc]
    exact ⟨_, rfl⟩
  | _ => simp [constructValue, valueMetrics]
/-- With metrics for each of its values, the document is built. -/
theorem constructElems_ok (recursion : Nat) (ref : RawObj) (pos : Nat)
    (h : pos + (elemsMetrics toLong ref).length ≤ metrics.length)
    (hdepth : recursion + elemsDepth ref ≤ kMaxRecursion) :
    ∃ doc, constructElems metrics recursion ref pos =
      .ok (doc, pos + (elemsMetrics toLong ref).length) := by
  cases ref with
  | nil => simp [constructElems, elemsMetrics]
  | cons e ref =>
    obtain ⟨name, v⟩ := e
    rw [elemsMetrics, List.length_append, ← Nat.add_assoc] at h ⊢
    rw [elemsDepth] at hdepth
    obtain ⟨v', hv⟩ := constructValue_ok recursion v pos (by omega) (by omega)
    obtain ⟨doc, hdoc⟩ := constructElems_ok recursion ref _ h (by omega)
    rw [constructElems, hv]
    simp only [bind, Except.bind, hdoc]
    exact ⟨_, rfl⟩
end

theorem constructDocumentFromMetrics_ok {ref : RawObj}
    (h : metrics.length = (elemsMetrics toLong ref).length) (hdepth : elemsDepth ref ≤ kMaxRecursion) :
    ∃ doc, constructDocumentFromMetrics metrics ref = .ok doc := by
  obtain ⟨doc, hdoc⟩ := constructElems_ok toLong metrics 0 ref 0 (by omega) (by omega)
  rw [constructDocumentFromMetrics, hdoc]
  exact ⟨doc, rfl⟩

end

end MongolDb.Ftdc
