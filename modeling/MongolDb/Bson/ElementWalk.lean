import MongolDb.Bson.ValidDocuments

/-! Walking a buffer from element to element by the sizes of the elements (`BSONElement::size` in
bson/bsonelement.cpp). Readers do not check these sizes against the buffer. -/
namespace MongolDb.Bson
open ByteOrder ByteLayout Outcome Buffer RawValue List

section Reader
variable (b : Bytes)

/-- An integer of four bytes. -/
def intAt (p : Nat) : Except Halt Int := return toInt32 (ofLe (← Buffer.read b 4 p))

/-- The C function: a text that does not end in the buffer is read past it. -/
def cstrlen (p : Nat) : Except Halt Nat :=
  match strlen b p with
  | some n => .ok n
  | none => .error .outside

/-! An element is given by its position. -/
namespace BSONElement

/-- `fieldNameSize`, with the NUL byte, of an element that is not the end of an object. -/
def fieldNameSize (e : Nat) : Except Halt Nat := return (← cstrlen b (e + 1)) + 1

/-- `value`: where the value starts. -/
def value (e : Nat) : Except Halt Nat := return e + (← fieldNameSize b e) + 1

/-- The switch of `size`: the size of the value at `p`. -/
def valueSize (type : Option BSONType) (p : Nat) : Except Halt Int :=
  match type with
  | some .undefined | some .jstNULL | some .maxKey | some .minKey => return 0
  | some .bool => return 1
  | some .numberInt => return 4
  | some .bsonTimestamp | some .date | some .numberDouble | some .numberLong => return 8
  | some .numberDecimal => return 16
  | some .jstOID => return 12
  | some .symbol | some .code | some .string => return (← intAt b p) + 4
  | some .dbRef => return (← intAt b p) + 4 + 12
  | some .codeWScope | some .object | some .array => intAt b p
  | some .binData => return (← intAt b p) + 4 + 1
  | some .regEx => do
    let len1 ← cstrlen b p
    let len2 ← cstrlen b (p + len1 + 1)
    return (len1 + 1 + len2 + 1 : Nat)
  | none => .error (.thrown 10320)

def size (e : Nat) : Except Halt Int := do
  let type ← byteAt b e
  if type = 0 then return 1
  else do
    let x ← valueSize b (BSONType.ofByte type) (← value b e)
    return x + (← fieldNameSize b e) + 1

/-- Where the document within an element starts, if there is one (`embeddedObject`,
`codeWScopeObject`). -/
def embedded (e : Nat) : Except Halt (Option Nat) := do
  match BSONType.ofByte (← byteAt b e) with
  | some .object | some .array => return some (← value b e)
  | some .codeWScope => do
    let p ← value b e
    return some (p + 4 + 4 + (← intAt b (p + 4))).toNat
  | _ => return none

end BSONElement

/-- An element that is visited, and the document around it. -/
structure Visit where
  docStart : Nat
  docSize : Int
  pos : Nat
  size : Int
  deriving DecidableEq

/-- The elements of the document within an element. -/
def walkInner (walk : Nat → Int → Nat → Except Halt (List Visit)) :
    Option Nat → Except Halt (List Visit)
  | some start => do walk start (← intAt b start) (start + 4)
  | none => return []

/-- The elements from `pos` on of the document at `docStart`, each followed by those within it. -/
def walk : Nat → Nat → Int → Nat → Except Halt (List Visit)
  | 0, _, _, _ => .error .outOfFuel
  | fuel + 1, docStart, docSize, pos =>
    if (pos : Int) < docStart + docSize - 1 then do
      let size ← BSONElement.size b pos
      let inner ← walkInner b (walk fuel) (← BSONElement.embedded b pos)
      let rest ← walk fuel docStart docSize (pos + size).toNat
      return ⟨docStart, docSize, pos, size⟩ :: (inner ++ rest)
    else return []

/-- The elements of the buffer's document, in as many steps as there are bytes. -/
def walkDocument : Except Halt (List Visit) := do walk b b.length 0 (← intAt b 0) 4

end Reader

/-! The elements of the grammar's parse. -/

mutual
/-- Those within a value at `p`. -/
def RawValue.visits : RawValue → Nat → List Visit
  | .document _ _ elems, p => elemsVisits p ((encodeElems elems).length + 5) elems (p + 4)
  | .codeWScope code scope, p =>
    let start := p + 4 + (encodeText code).length
    elemsVisits start ((encodeElems scope).length + 5) scope (start + 4)
  | _, _ => []
/-- Those of a list of elements at `p`, in a document of this size. -/
def elemsVisits (docStart docSize : Nat) : List (CString × RawValue) → Nat → List Visit
  | [], _ => []
  | (name, v) :: elems, p =>
    let size := 1 + name.encode.length + v.encode.length
    ⟨docStart, docSize, p, size⟩ ::
      (v.visits (p + 1 + name.encode.length) ++ elemsVisits docStart docSize elems (p + size))
end

def documentVisits (elems : RawObj) : List Visit := elemsVisits 0 (encodeDocument elems).length elems 4

section Walk
variable {b u : Bytes} {p : Nat} {e : CString × RawValue} {elems : RawObj}

theorem intAt_eq (hu : u.length = 4) (hat : At b p u) : intAt b p = .ok (toInt32 (ofLe u)) := by
  have hbound := hat.bound (by rintro rfl; cases hu)
  have hread := hat.take_eq
  rw [hu] at hbound hread
  rw [intAt, Buffer.read, if_pos (.inr hbound), hread]
  rfl

theorem CString.length_encode (s : CString) : s.encode.length = s.chars.length + 1 := by
  rw [CString.encode, length_append, length_singleton]

theorem cstrlen_eq {s : CString} (h : At b p s.encode) : cstrlen b p = .ok s.chars.length := by
  rw [cstrlen, strlen_eq h s.noNul]

theorem value_eq {t : BSONType} {name : CString} (h : At b p (t.byte :: name.encode)) :
    BSONElement.fieldNameSize b p = .ok name.encode.length ∧
      BSONElement.value b p = .ok (p + 1 + name.encode.length) := by
  have hsize : BSONElement.fieldNameSize b p = .ok name.encode.length := by
    rw [BSONElement.fieldNameSize, cstrlen_eq (at_cons.mp h).2, CString.length_encode]
    rfl
  refine ⟨hsize, ?_⟩
  rw [BSONElement.value, hsize]
  change Except.ok _ = _
  congr 1
  omega

section
variable (hlen : b.length < 2 ^ 31)
include hlen

theorem intAt_text {s : Bytes} (h : At b p (encodeText s)) :
    intAt b p = .ok (s.length + 1 : Nat) := by
  have hbound := h.bound (by simp [encodeText])
  rw [length_encodeText] at hbound
  rw [encodeText, append_assoc] at h
  rw [intAt_eq (length_le 4 _) (at_append.mp h).1, toInt32_le (by omega)]

omit hlen in
theorem valueSize_fixed {v : Fixed} :
    BSONElement.valueSize b (some v.type) p = .ok v.bytes.length := by
  obtain ⟨t, bytes, hsize, -⟩ := v
  have hwidth : ∀ n : Nat, t.width = some n → (.ok (n : Int) : Except Halt Int) = .ok bytes.length := by
    intro n hn
    rw [hsize] at hn
    rw [Option.some.inj hn]
  cases t with
  | minKey | maxKey | jstNULL | undefined => exact hwidth 0 rfl
  | bool => exact hwidth 1 rfl
  | numberInt => exact hwidth 4 rfl
  | numberDouble | numberLong | bsonTimestamp | date => exact hwidth 8 rfl
  | jstOID => exact hwidth 12 rfl
  | numberDecimal => exact hwidth 16 rfl
  | _ => cases hsize

theorem intAt_document (h : At b p (encodeDocument elems)) :
    intAt b p = .ok (encodeDocument elems).length := by
  have hbound := h.bound (by simp [encodeDocument])
  rw [length_encodeDocument] at hbound ⊢
  rw [encodeDocument, append_assoc] at h
  rw [intAt_eq (length_le 4 _) (at_append.mp h).1, toInt32_le (by omega)]

theorem intAt_codeWScope {code : Bytes} (h : At b p (RawValue.codeWScope code elems).encode) :
    intAt b p = .ok (RawValue.codeWScope code elems).encode.length := by
  rw [encode_codeWScope] at h ⊢
  have hbound := h.bound (by simp [encodeDocument])
  rw [append_assoc] at h
  simp only [length_append, length_le] at hbound ⊢
  rw [intAt_eq (length_le 4 _) (at_append.mp h).1, toInt32_le (by omega)]

theorem valueSize_eq {v : RawValue} (h : At b p v.encode) :
    BSONElement.valueSize b (some v.type) p = .ok v.encode.length := by
  cases v with
  | fixed v =>
    rw [encode]
    exact valueSize_fixed
  | text t ht s =>
    rw [encode] at h ⊢
    have hsize : (do return (← intAt b p) + 4 : Except Halt Int) = .ok (encodeText s).length := by
      rw [intAt_text hlen h, length_encodeText]
      rfl
    cases t <;> first | exact hsize | cases ht
  | dbRef ns oid hoid =>
    rw [encode] at h ⊢
    rw [type, BSONElement.valueSize, intAt_text hlen (at_append.mp h).1, length_append, hoid,
      length_encodeText]
    rfl
  | regEx pattern flags =>
    rw [encode] at h ⊢
    obtain ⟨hpattern, hflags⟩ := at_append.mp h
    rw [CString.length_encode, ← Nat.add_assoc] at hflags
    rw [type, BSONElement.valueSize, cstrlen_eq hpattern, ok_bind]
    simp only [cstrlen_eq hflags, length_append, CString.length_encode]
    rfl
  | binData subtype data =>
    have hbound := h.bound (by simp [encode])
    rw [encode] at h hbound ⊢
    rw [length_append, length_le, length_cons] at hbound ⊢
    rw [type, BSONElement.valueSize, intAt_eq (length_le 4 _) (at_append.mp h).1,
      toInt32_le (by omega)]
    change Except.ok _ = Except.ok _
    congr 1
    omega
  | codeWScope code scope => exact intAt_codeWScope hlen h
  | document t ht elems =>
    rw [encode_document] at h ⊢
    have hsize := intAt_document hlen h
    cases t <;> first | exact hsize | cases ht

theorem size_eq (h : At b p (encodeElement e)) :
    BSONElement.size b p = .ok (encodeElement e).length := by
  obtain ⟨name, v⟩ := e
  obtain ⟨hheader, hv⟩ := at_element.mp h
  obtain ⟨hsize, hvalue⟩ := value_eq hheader
  rw [BSONElement.size, byteAt, (at_cons.mp hheader).1]
  change (if v.type.byte = 0 then _ else _) = _
  rw [if_neg v.type.byte_ne_zero, BSONType.ofByte_byte, hvalue, hsize]
  change (BSONElement.valueSize b (some v.type) (p + 1 + name.encode.length) >>= _) = _
  rw [valueSize_eq hlen hv, length_element]
  change Except.ok _ = Except.ok _
  congr 1
  omega

end

/-- The document within a value, and where it starts. -/
def RawValue.inner (p : Nat) : RawValue → Option (Nat × RawObj)
  | .document _ _ elems => some (p, elems)
  | .codeWScope code scope => some (p + 4 + (encodeText code).length, scope)
  | _ => none

theorem embedded_eq (hlen : b.length < 2 ^ 31) {name : CString} {v : RawValue}
    (h : At b p (encodeElement (name, v))) :
    BSONElement.embedded b p = .ok ((v.inner (p + 1 + name.encode.length)).map Prod.fst) := by
  obtain ⟨hheader, hv⟩ := at_element.mp h
  obtain ⟨-, hvalue⟩ := value_eq hheader
  rw [BSONElement.embedded, byteAt, (at_cons.mp hheader).1, ok_bind]
  rw [BSONType.ofByte_byte]
  cases v with
  | fixed v =>
    obtain ⟨t, bytes, hsize, -⟩ := v
    cases t <;> first | rfl | cases hsize
  | text t ht s => cases t <;> first | rfl | cases ht
  | dbRef | regEx | binData => rfl
  | document t ht elems =>
    have hstart : (do return some (← BSONElement.value b p) : Except Halt (Option Nat)) =
        .ok (some (p + 1 + name.encode.length)) := by
      rw [hvalue]
      rfl
    cases t <;> first | exact hstart | cases ht
  | codeWScope code scope =>
    rw [encode_codeWScope, append_assoc, at_append, length_le, at_append] at hv
    change (BSONElement.value b p >>= _) = _
    rw [hvalue, ok_bind]
    rw [intAt_text hlen hv.2.1]
    change Except.ok (some (Int.toNat _)) = Except.ok (some _)
    rw [length_encodeText]
    congr 2
    omega

theorem RawValue.inner_spec {v : RawValue} {start : Nat} (h : At b p v.encode)
    (hinner : v.inner p = some (start, elems)) :
    At b start (encodeDocument elems) ∧ p ≤ start ∧
      start + (encodeDocument elems).length = p + v.encode.length ∧
      v.visits p = elemsVisits start (encodeDocument elems).length elems (start + 4) := by
  cases v with
  | document t ht inner =>
    cases hinner
    rw [encode_document] at h ⊢
    exact ⟨h, le_rfl, rfl, by rw [visits, length_encodeDocument]⟩
  | codeWScope code scope =>
    cases hinner
    rw [encode_codeWScope] at h ⊢
    rw [at_append, length_append, length_le, ← Nat.add_assoc] at h
    refine ⟨h.2, by omega, ?_, by rw [visits, length_encodeDocument]⟩
    simp only [length_append, length_le]
    omega
  | _ => cases hinner

theorem RawValue.visits_of_inner_none {v : RawValue} (hinner : v.inner p = none) : v.visits p = [] := by
  cases v with
  | document | codeWScope => cases hinner
  | _ => simp [visits]

theorem walk_eq (hlen : b.length < 2 ^ 31) {fuel start size : Nat} (hat : At b p (encodeElems elems))
    (hend : p + (encodeElems elems).length + 1 = start + size) (hfuel : (encodeElems elems).length < fuel) :
    walk b fuel start size p = .ok (elemsVisits start size elems p) := by
  induction fuel generalizing p start size elems with
  | zero => omega
  | succ fuel ih =>
    rw [walk]
    cases elems with
    | nil =>
      rw [encodeElems_nil, length_nil] at hend
      rw [if_neg (by omega), elemsVisits]
      rfl
    | cons e elems =>
      obtain ⟨name, v⟩ := e
      rw [encodeElems_cons, at_append] at hat
      rw [encodeElems_cons, length_append] at hend hfuel
      have hsize := length_element name v
      have hv := (at_element.mp hat.1).2
      have hrest := @ih _ elems start size hat.2 (by omega) (by omega)
      rw [if_pos (by omega), size_eq hlen hat.1, ok_bind]
      rw [embedded_eq hlen hat.1, ok_bind]
      rw [elemsVisits, ← hsize, bind_eq_ok]
      refine ⟨v.visits (p + 1 + name.encode.length), ?_, ?_⟩
      · cases hinner : v.inner (p + 1 + name.encode.length) with
        | none =>
          rw [visits_of_inner_none hinner]
          rfl
        | some doc =>
          obtain ⟨start', inner⟩ := doc
          obtain ⟨hdoc, hstart, hstop, hvisits⟩ := inner_spec hv hinner
          rw [length_encodeDocument] at hstop
          change (intAt b start' >>= _) = _
          rw [intAt_document hlen hdoc, hvisits, bind_eq_ok]
          refine ⟨_, rfl, ih (at_elems hdoc) ?_ (by omega)⟩
          rw [length_encodeDocument]
          omega
      · have hnext : (p + ((encodeElement (name, v)).length : Int)).toNat =
            p + (encodeElement (name, v)).length := by omega
        rw [hnext, hrest]
        rfl

theorem walkDocument_eq (hlen : b.length < 2 ^ 31) (hat : At b 0 (encodeDocument elems)) :
    walkDocument b = .ok (documentVisits elems) := by
  have hbound := hat.bound (by simp [encodeDocument])
  rw [length_encodeDocument] at hbound
  rw [walkDocument, intAt_document hlen hat, bind_eq_ok]
  refine ⟨_, rfl, walk_eq hlen (at_elems hat) ?_ (by omega)⟩
  rw [length_encodeDocument]
  omega

end Walk

/-- The element lies between the size and the end of its document, and the document lies in the
given range. -/
structure Visit.Inside (start size : Nat) (v : Visit) : Prop where
  document : start ≤ v.docStart ∧ v.docStart + v.docSize ≤ start + size
  element : v.docStart + 4 ≤ v.pos ∧ v.pos + v.size ≤ v.docStart + v.docSize - 1

section
variable {b : Bytes} {p start size : Nat} {elems : RawObj} {visit : Visit}

theorem Visit.Inside.mono {start' size' : Nat} (h : visit.Inside start size) (hstart : start' ≤ start)
    (hend : start + size ≤ start' + size') : visit.Inside start' size' := by
  obtain ⟨hfrom, hto⟩ := h.document
  exact ⟨⟨by omega, by omega⟩, h.element⟩

theorem inside_of_mem_elemsVisits (hat : At b p (encodeElems elems)) (hp : start + 4 ≤ p)
    (hend : p + (encodeElems elems).length + 1 = start + size)
    (hmem : visit ∈ elemsVisits start size elems p) : visit.Inside start size := by
  induction hn : (encodeElems elems).length using Nat.strongRecOn generalizing p start size elems with
  | ind n ih =>
    cases elems with
    | nil =>
      rw [elemsVisits] at hmem
      cases hmem
    | cons e elems =>
      obtain ⟨name, v⟩ := e
      have hsize := length_element name v
      rw [encodeElems_cons, at_append] at hat
      rw [encodeElems_cons, length_append] at hend hn
      have hv := (at_element.mp hat.1).2
      rw [elemsVisits, ← hsize, mem_cons, mem_append] at hmem
      rcases hmem with rfl | hmem | hmem
      · exact ⟨⟨le_rfl, le_rfl⟩, by dsimp only; omega, by dsimp only; omega⟩
      · -- within the value of the first element
        cases hinner : v.inner (p + 1 + name.encode.length) with
        | none =>
          rw [visits_of_inner_none hinner] at hmem
          cases hmem
        | some doc =>
          obtain ⟨hdoc, hstart, hstop, hvisits⟩ := inner_spec hv hinner
          rw [hvisits] at hmem
          rw [length_encodeDocument] at hstop hmem
          have hinside := ih _ (by omega) (at_elems hdoc) le_rfl (by omega) hmem rfl
          exact hinside.mono (by omega) (by omega)
      · exact ih _ (by omega) hat.2 (by omega) (by omega) hmem rfl

end

/-- The validator accepts a buffer if and only if it starts with a document of the grammar. Walking an
accepted buffer by the sizes of its elements visits the elements of the parse, and stays inside the
size of the document at each level. -/
theorem validateBSON_iff_document (decimal : Bool) (b : Bytes) (hlen : b.length < 2 ^ 31) :
    (validateBSON decimal b = .ok () ↔
      ∃ elems, elemsKnown decimal elems = true ∧ encodeDocument elems <+: b) ∧
    (validateBSON decimal b = .ok () → ∀ elems, encodeDocument elems <+: b →
      walkDocument b = .ok (documentVisits elems) ∧
      ∀ visit ∈ documentVisits elems, visit.Inside 0 (encodeDocument elems).length) := by
  refine ⟨⟨?_, ?_⟩, ?_⟩
  · intro haccepted
    have hholds := @validateBSON_holds decimal b hlen
    rw [haccepted] at hholds
    exact hholds
  · rintro ⟨elems, hknown, hat⟩
    exact validateBSON_eq_ok hlen hknown hat
  · intro _ elems hat
    have hat : At b 0 (encodeDocument elems) := hat
    refine ⟨walkDocument_eq hlen hat, ?_⟩
    intro visit hmem
    apply inside_of_mem_elemsVisits (at_elems hat) le_rfl ?_ hmem
    rw [length_encodeDocument]
    omega

/-- The buffer `{a: 1, b: {c: true}}`, with two bytes behind it. -/
theorem validateBSON_iff_document_nested :
    validateBSON false
      [24, 0, 0, 0, 16, 97, 0, 1, 0, 0, 0, 3, 98, 0, 9, 0, 0, 0, 8, 99, 0, 1, 0, 0, 7, 7] = .ok () ∧
    walkDocument
      [24, 0, 0, 0, 16, 97, 0, 1, 0, 0, 0, 3, 98, 0, 9, 0, 0, 0, 8, 99, 0, 1, 0, 0, 7, 7] =
        .ok [⟨0, 24, 4, 7⟩, ⟨0, 24, 11, 12⟩, ⟨14, 9, 18, 4⟩] := by
  let c : CString × RawValue := (⟨[99], by decide⟩, .fixed ⟨.bool, [1], rfl, fun _ => .inr rfl⟩)
  let a : CString × RawValue := (⟨[97], by decide⟩, .fixed ⟨.numberInt, [1, 0, 0, 0], rfl, nofun⟩)
  let b : CString × RawValue := (⟨[98], by decide⟩, .document .object rfl [c])
  have hat : encodeDocument [a, b] <+:
      [24, 0, 0, 0, 16, 97, 0, 1, 0, 0, 0, 3, 98, 0, 9, 0, 0, 0, 8, 99, 0, 1, 0, 0, 7, 7] :=
    ⟨[7, 7], by simp [a, b, c, encodeDocument, encodeElems, encode, type,
      CString.encode, le, BSONType.byte]⟩
  have hiff := validateBSON_iff_document false
    [24, 0, 0, 0, 16, 97, 0, 1, 0, 0, 0, 3, 98, 0, 9, 0, 0, 0, 8, 99, 0, 1, 0, 0, 7, 7] (by decide)
  have haccepted := hiff.1.mpr ⟨[a, b], rfl, hat⟩
  exact ⟨haccepted, (hiff.2 haccepted [a, b] hat).1⟩

end MongolDb.Bson
