import MongolDb.Bson.Validate
import MongolDb.Lib.Outcome

/-! What the validator's reads find, and what one round of its loop does. -/
namespace MongolDb.Bson
open ByteOrder ByteLayout Outcome Buffer List RawValue

/-- The validator does not come to a status. -/
def Halt.Astray : Halt → Prop
  | .status _ | .makeError .. => False
  | _ => True

theorem not_astray {msg : String} {idElem : Option Nat} : ¬ (Halt.makeError msg idElem).Astray :=
  not_false

section Reads
variable {b : Bytes} {pos : Nat} {idElem : Option Nat} {failed : Halt}

theorem readInt_holds (hf : ¬ failed.Astray) :
    Holds Halt.Astray (fun r => ∃ u : Bytes, u.length = 4 ∧ At b pos u ∧
      r = (toInt32 (ofLe u), pos + 4)) (readInt b pos failed) := by
  rw [readInt]
  split
  · exact hf
  next h =>
    have hle : pos + 4 ≤ b.length := by omega
    rw [Buffer.read, if_pos (.inr hle)]
    exact ⟨_, length_take_drop hle, at_take b pos 4, rfl⟩

theorem readByte_holds (hf : ¬ failed.Astray) :
    Holds Halt.Astray (fun r => b[pos]? = some r.1 ∧ r.2 = pos + 1 ∧ pos + 1 ≤ b.length)
      (readByte b pos failed) := by
  rw [readByte]
  split
  · exact hf
  next h =>
    have hlt : pos < b.length := by omega
    rw [byteAt, List.getElem?_eq_getElem hlt]
    exact ⟨rfl, rfl, hlt⟩

theorem readCString_holds (h : pos ≤ b.length) :
    Holds Halt.Astray (fun r => ∃ s : CString, At b pos s.encode ∧
      r = pos + s.encode.length ∧ r ≤ b.length) (readCString b pos idElem) := by
  rw [readCString, if_neg (by omega)]
  cases hlen : strlen b pos with
  | none => exact not_false
  | some n =>
    obtain ⟨s, rfl, hs, hat⟩ := exists_of_strlen hlen
    have hbound := hat.bound (by simp)
    rw [length_append] at hbound
    exact ⟨⟨s, hs⟩, hat, by simp [CString.encode, Nat.add_assoc], hbound⟩

theorem skip_holds (hf : ¬ failed.Astray) (n : Nat) :
    Holds Halt.Astray (fun r => r = pos + n ∧ r < b.length) (skip b n pos failed) := by
  rw [skip]
  split
  next h => exact ⟨rfl, h⟩
  · exact hf

theorem readUTF8String_holds :
    Holds Halt.Astray (fun r => ∃ s : Bytes, At b pos (encodeText s) ∧
      r = pos + (encodeText s).length ∧ r ≤ b.length) (readUTF8String b pos idElem) := by
  rw [readUTF8String]
  refine (readInt_holds not_astray).bind ?_
  rintro ⟨sz, p⟩ ⟨u, hlen, hu, hr⟩
  cases hr
  dsimp only
  split
  · exact not_false
  next hpos =>
    refine (skip_holds not_astray _).bind ?_
    rintro p ⟨rfl, hp⟩
    refine (readByte_holds not_astray).bind ?_
    rintro ⟨c, p⟩ ⟨hc, rfl, hbound⟩
    split
    · exact not_false
    next hzero =>
      obtain rfl : c = 0 := by simpa using hzero
      -- the text is what lies between the size and the NUL byte
      generalize hn : (toInt32 (ofLe u) - 1).toNat = n at *
      have hsize : toInt32 (ofLe u) = (n + 1 : Nat) := by omega
      have htext := length_take_drop (b := b) (p := pos + 4) (n := n) (by omega)
      refine ⟨(b.drop (pos + 4)).take n, ?_, ?_, hbound⟩
      · rw [encodeText, htext, ← eq_le_of_toInt32 hlen hsize, at_append, at_append, hlen,
          length_append, hlen, htext, at_singleton, ← Nat.add_assoc]
        exact ⟨⟨hu, at_take _ _ _⟩, hc⟩
      · rw [length_encodeText, htext]
        omega

end Reads

/-- What starts at `pos` in an object, for each state that it leads to. -/
inductive ElementInfo (decimal : Bool) (b : Bytes) (pos : Nat) : ValidationState → Nat → Prop where
  | eoo (h : b[pos]? = some 0) : ElementInfo decimal b pos .endObj (pos + 1)
  | value (e : CString × RawValue) (hknown : e.2.known decimal = true)
      (hat : At b pos (encodeElement e)) (hbound : pos + (encodeElement e).length ≤ b.length) :
      ElementInfo decimal b pos .withinObj (pos + (encodeElement e).length)
  /-- A reference whose object id goes past the end of the buffer. -/
  | truncated (name : CString) (hat : At b pos (BSONType.dbRef.byte :: name.encode)) (p : Nat)
      (hbound : b.length < p) : ElementInfo decimal b pos .withinObj p
  | scope (name : CString) (hat : At b pos (BSONType.codeWScope.byte :: name.encode)) :
      ElementInfo decimal b pos .beginCodeWScope (pos + 1 + name.encode.length)
  | document (t : BSONType) (ht : t.isDocument = true) (name : CString)
      (hat : At b pos (t.byte :: name.encode)) :
      ElementInfo decimal b pos .beginObj (pos + 1 + name.encode.length)

section Element
variable {b : Bytes} {pos : Nat} {idElem : Option Nat} {decimal : Bool} {name : CString}
  {t : BSONType}

theorem ElementInfo.of_value (hat : At b pos (t.byte :: name.encode)) (v : RawValue)
    (ht : v.type = t) (hv : At b (pos + 1 + name.encode.length) v.encode) {p : Nat}
    (hp : p = pos + 1 + name.encode.length + v.encode.length) (hbound : p ≤ b.length)
    (hknown : v.known decimal = true := by simp [RawValue.known]) :
    ElementInfo decimal b pos .withinObj p := by
  subst ht
  obtain rfl : p = pos + (encodeElement (name, v)).length := by
    rw [length_element]
    omega
  exact .value (name, v) hknown (at_element.mpr ⟨hat, hv⟩) hbound

theorem ElementInfo.of_fixed (hat : At b pos (t.byte :: name.encode)) {n p : Nat}
    (hw : t.width = some n) (hb : t ≠ .bool) (hd : decimal = true ∨ t ≠ .numberDecimal)
    (hp : p = pos + 1 + name.encode.length + n) (hbound : p ≤ b.length) :
    ElementInfo decimal b pos .withinObj p := by
  have hlen := length_take_drop (b := b) (p := pos + 1 + name.encode.length) (n := n) (by omega)
  refine .of_value hat (.fixed ⟨t, (b.drop (pos + 1 + name.encode.length)).take n, ?_,
    fun h => absurd h hb⟩) rfl ?_ ?_ hbound ?_
  · rw [hlen, hw]
  · rw [encode]
    exact at_take _ _ _
  · rw [encode, hlen, hp]
  · simpa [known] using hd

/-- What a step finds of the element at `pos`. -/
def FindsElement (decimal : Bool) (b : Bytes) (pos : Nat) :
    Except Halt (ValidationState × Nat) → Prop :=
  Holds Halt.Astray fun r => ElementInfo decimal b pos r.1 r.2

/-- The types of a fixed size, but for booleans. -/
theorem finds_fixed (hat : At b pos (t.byte :: name.encode)) {n : Nat} {failed : Halt}
    (hf : ¬ failed.Astray) (hw : t.width = some n) (hb : t ≠ .bool)
    (hd : decimal = true ∨ t ≠ .numberDecimal) : FindsElement decimal b pos
      (do return (.withinObj, ← skip b n (pos + 1 + name.encode.length) failed)) := by
  refine (skip_holds hf n).bind ?_
  rintro p ⟨rfl, hlt⟩
  exact .of_fixed hat hw hb hd rfl hlt.le

theorem finds_text (hat : At b pos (t.byte :: name.encode)) (ht : t.isText = true) :
    FindsElement decimal b pos
      (do return (.withinObj, ← readUTF8String b (pos + 1 + name.encode.length) idElem)) := by
  refine readUTF8String_holds.bind ?_
  rintro p ⟨s, hs, rfl, hle⟩
  exact .of_value hat (.text t ht s) rfl (by rwa [encode]) (by rw [encode]) hle

theorem finds_bool (hat : At b pos (BSONType.bool.byte :: name.encode)) : FindsElement decimal b pos
    (validateValue decimal b (some .bool) (pos + 1 + name.encode.length) .withinObj idElem) := by
  rw [validateValue]
  refine (readByte_holds not_astray).bind ?_
  rintro ⟨c, p⟩ ⟨hc, rfl, hle⟩
  dsimp only at *
  split
  · exact not_false
  next hval =>
    have hval : c = 0 ∨ c = 1 := by
      by_contra hnot
      exact hval (not_or.mp hnot)
    refine .of_value hat (.fixed ⟨.bool, [c], rfl, fun _ => ?_⟩) rfl ?_ ?_ hle
    · rcases hval with rfl | rfl
      · exact .inl rfl
      · exact .inr rfl
    · rw [encode, at_singleton]
      exact hc
    · rw [encode, length_singleton]

theorem finds_dbRef (hat : At b pos (BSONType.dbRef.byte :: name.encode)) : FindsElement decimal b pos
    (validateValue decimal b (some .dbRef) (pos + 1 + name.encode.length) .withinObj idElem) := by
  rw [validateValue]
  refine readUTF8String_holds.bind ?_
  rintro p ⟨ns, hns, rfl, hle⟩
  by_cases hend : pos + 1 + name.encode.length + (encodeText ns).length + 12 ≤ b.length
  · have hlen := length_take_drop hend
    refine .of_value hat (.dbRef ns _ hlen) rfl ?_ ?_ hend
    · rw [encode, at_append]
      exact ⟨hns, at_take _ _ _⟩
    · rw [encode, length_append, hlen, Nat.add_assoc]
  · exact .truncated name hat _ (by omega)

theorem finds_regEx (hat : At b pos (BSONType.regEx.byte :: name.encode))
    (hbound : pos + 1 + name.encode.length ≤ b.length) : FindsElement decimal b pos
    (validateValue decimal b (some .regEx) (pos + 1 + name.encode.length) .withinObj idElem) := by
  rw [validateValue]
  refine (readCString_holds hbound).bind ?_
  rintro p ⟨pattern, hpattern, rfl, hle⟩
  refine (readCString_holds hle).bind ?_
  rintro p ⟨flags, hflags, rfl, hle⟩
  refine .of_value hat (.regEx pattern flags) rfl ?_ ?_ hle
  · rw [encode, at_append]
    exact ⟨hpattern, hflags⟩
  · rw [encode, length_append, Nat.add_assoc _ pattern.encode.length]

theorem finds_binData (hat : At b pos (BSONType.binData.byte :: name.encode)) :
    FindsElement decimal b pos
      (validateValue decimal b (some .binData) (pos + 1 + name.encode.length) .withinObj idElem) := by
  rw [validateValue]
  refine (readInt_holds not_astray).bind ?_
  rintro ⟨sz, p⟩ ⟨u, hlen, hu, hr⟩
  cases hr
  dsimp only
  split
  · exact not_false
  next hsz =>
    refine (skip_holds not_astray _).bind ?_
    rintro p ⟨rfl, hlt⟩
    generalize hn : (toInt32 (ofLe u)).toNat = n at *
    have hsize : toInt32 (ofLe u) = (n : Nat) := by omega
    generalize hq : pos + 1 + name.encode.length = q at *
    have hq5 : q + 4 < b.length := by omega
    have hdata := length_take_drop (b := b) (p := q + 4 + 1) (n := n) (by omega)
    have hencode : (binData b[q + 4] ((b.drop (q + 4 + 1)).take n)).encode =
        u ++ [b[q + 4]] ++ (b.drop (q + 4 + 1)).take n := by
      rw [encode, hdata, ← eq_le_of_toInt32 hlen hsize, append_assoc,
        singleton_append]
    refine .of_value hat (.binData b[q + 4] ((b.drop (q + 4 + 1)).take n)) rfl ?_ ?_ hlt.le
    · rw [hencode, at_append, at_append, hq, hlen, length_append, hlen, length_singleton,
        at_singleton, ← Nat.add_assoc]
      exact ⟨⟨hu, List.getElem?_eq_getElem hq5⟩, at_take _ _ _⟩
    · simp only [hencode, length_append, hlen, hdata, length_singleton, hq]
      omega

theorem validateValue_holds (hat : At b pos (t.byte :: name.encode))
    (hbound : pos + 1 + name.encode.length ≤ b.length) :
    FindsElement decimal b pos
      (validateValue decimal b (some t) (pos + 1 + name.encode.length) .withinObj idElem) := by
  have hempty : t.width = some 0 → t ≠ .bool → t ≠ .numberDecimal →
      ElementInfo decimal b pos .withinObj (pos + 1 + name.encode.length) :=
    fun hw hb hd => .of_fixed hat hw hb (.inr hd) rfl hbound
  cases t with
  | minKey | maxKey | jstNULL | undefined => exact hempty rfl nofun nofun
  | jstOID | numberInt | numberDouble | numberLong | bsonTimestamp | date =>
    exact finds_fixed hat not_astray rfl nofun (.inr nofun)
  | string | code | symbol => exact finds_text hat rfl
  | object | array => exact .document _ rfl name hat
  | codeWScope => exact .scope name hat
  | numberDecimal =>
    cases decimal with
    | true => exact finds_fixed hat not_astray rfl nofun (.inl rfl)
    | false => exact not_false
  | bool => exact finds_bool hat
  | dbRef => exact finds_dbRef hat
  | regEx => exact finds_regEx hat hbound
  | binData => exact finds_binData hat

theorem validateElementInfo_holds (pos : Nat) :
    FindsElement decimal b pos (validateElementInfo decimal b pos .withinObj idElem) := by
  rw [validateElementInfo]
  refine (readByte_holds not_astray).bind ?_
  rintro ⟨c, p⟩ ⟨hc, rfl, hle⟩
  dsimp only at *
  split
  next hzero => exact .eoo (hzero ▸ hc)
  · refine (readCString_holds hle).bind ?_
    rintro p ⟨name, hname, rfl, hle⟩
    cases htype : BSONType.ofByte c with
    | none => exact not_false
    | some t =>
      have hat : At b pos (t.byte :: name.encode) := by
        rw [at_cons, BSONType.byte_of_ofByte htype]
        exact ⟨hc, hname⟩
      exact validateValue_holds hat hle

end Element

end MongolDb.Bson
