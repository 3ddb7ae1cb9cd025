import MongolDb.KeyString.DecodeNumbers

/-! What decoding an encoded key returns, and when that is the key. -/
namespace MongolDb.KeyString
open ByteOrder Bson List Option

/-! Values as they are read back. -/

mutual
def decoded (inverted : Bool) : Value → Value
  | .numberDouble d => .numberDouble (quieted d)
  | .string s => .string (decodedText inverted s)
  | .symbol s => .symbol (decodedText inverted s)
  | .code s => .code (decodedText inverted s)
  | .codeWScope code scope =>
    .codeWScope (decodedText inverted code) (decodedFields inverted scope)
  | .object fields => .object (decodedFields inverted fields)
  | .array fields => .array (decodedFields inverted fields)
  | v => v
def decodedFields (inverted : Bool) : List (Bytes × Value) → List (Bytes × Value)
  | [] => []
  | (name, v) :: rest => (name, decoded inverted v) :: decodedFields inverted rest
end

section Scalars

variable {c : UInt8}

/-- A value without type bits. -/
theorem reads_plain {p : Bytes} {v : Bool → Value} (h : ∀ inverted rest r, Follows inverted rest →
      toBsonScalar c inverted ⟨flipIf inverted p ++ rest, r⟩ = some (v inverted, ⟨rest, r⟩)) :
    Reads c p [] v :=
  fun inverted rest r _ hf hs => ⟨r, h inverted rest r hf, hs⟩

/-- A value that is its type byte. -/
theorem reads_single {v : Value}
    (h : ∀ inverted input, toBsonScalar c inverted input = some (v, input)) :
    Reads c [] [] fun _ => v := by
  apply reads_plain
  intro inverted rest r _
  rw [flipIf_nil, nil_append]
  exact h inverted _

theorem reads_stringLike {lo : Bool} {s : Bytes} :
    Reads CType.kStringLike (escape s) [lo] fun inverted =>
      if [lo] = TypeBits.kString then .string (decodedText inverted s)
      else .symbol (decodedText inverted s) := by
  intro inverted rest r bs hf hs
  obtain ⟨h1, h2⟩ := hs.readStringLike
  refine ⟨_, ?_, h2⟩
  change toBsonStringLike _ _ = _
  simp only [toBsonStringLike, readText_flipIf hf, h1]
  rfl

theorem reads_date (d : Int64) :
    Reads CType.kDate (be 8 (d.toUInt64 ^^^ ((1 : UInt64) <<< 63)).toNat) []
      fun _ => .date d := by
  apply reads_plain
  intro inverted rest r _
  have hval : ofBe (be 8 (d.toUInt64 ^^^ ((1 : UInt64) <<< 63)).toNat) =
      (d.toUInt64 ^^^ ((1 : UInt64) <<< 63)).toNat := ofBe_be (n := 8) (UInt64.toNat_lt _)
  change Option.map _ (Option.map _ (readBytes 8 inverted _)) = _
  rw [readBytes_flipIf (length_be _ _)]
  simp only [map_some, hval, UInt64.ofNat_toNat, UInt64.xor_assoc, UInt64.xor_self,
    UInt64.xor_zero]
  rfl

theorem reads_timestamp (t : UInt64) :
    Reads CType.kTimestamp (be 8 t.toNat) [] fun _ => .timestamp t := by
  apply reads_plain
  intro inverted rest r _
  have hval : ofBe (be 8 t.toNat) = t.toNat := ofBe_be (n := 8) (UInt64.toNat_lt _)
  change Option.map _ (Option.map _ (readBytes 8 inverted _)) = _
  rw [readBytes_flipIf (length_be _ _)]
  simp [hval]

theorem reads_binData {t : UInt8} {d : Bytes} (h : d.length < 2 ^ 31) :
    Reads CType.kBinData (lengthBytes d.length ++ (t :: d)) [] fun _ => .binData t d := by
  apply reads_plain
  intro inverted rest r _
  change Option.map _ (toBsonBinData _ _) = _
  rw [flipIf_append, append_assoc, toBsonBinData]
  unfold lengthBytes
  by_cases hlen : d.length < 0xff
  · have hn : (UInt8.ofNat d.length).toNat = d.length := by
      rw [UInt8.toNat_ofNat', Nat.mod_eq_of_lt (by omega)]
    have hne : UInt8.ofNat d.length ≠ 0xff := by
      intro he
      have := congrArg UInt8.toNat he
      rw [hn] at this
      exact absurd this (Nat.ne_of_lt hlen)
    rw [if_pos hlen, readByte_flipIf]
    simp [if_neg hne, hn, flipIf_nil, readByte_flipIf, readBytes_flipIf]
  · have hval : ofBe (be 4 d.length) = d.length := ofBe_be (by omega)
    rw [if_neg hlen, singleton_append, readByte_flipIf]
    simp [readBytes_flipIf, length_be, hval, readByte_flipIf]

theorem reads_regEx {p f : Bytes} (hp : cstring p) (hf : cstring f) :
    Reads CType.kRegEx ((p ++ [0]) ++ (f ++ [0])) [] fun _ => .regEx p f := by
  apply reads_plain
  intro inverted rest r _
  change Option.map _ (toBsonRegEx _ _) = _
  rw [flipIf_append, append_assoc, toBsonRegEx, readName_flipIf hp]
  simp only [bind_eq_bind, bind_some, readName_flipIf hf, map_some]

theorem reads_dbRef {ns : Bytes} (o : OID) (h : ns.length < 2 ^ 31) :
    Reads CType.kDBRef (be 4 ns.length ++ (ns ++ o.bytes)) [] fun _ => .dbRef ns o := by
  apply reads_plain
  intro inverted rest r _
  change Option.map _ (toBsonDBRef _ _) = _
  have hval : ofBe (be 4 ns.length) = ns.length := ofBe_be (by omega)
  simp only [flipIf_append, append_assoc, toBsonDBRef, readBytes_flipIf (length_be _ _)]
  simp [hval, readBytes_flipIf, readOID_flipIf]

theorem reads_code {s : Bytes} :
    Reads CType.kCode (escape s) [] fun inverted => .code (decodedText inverted s) := by
  apply reads_plain
  intro inverted rest r hf
  change Option.map _ (Option.map _ (readText _ _)) = _
  rw [readText_flipIf hf]
  rfl

theorem reads_oid (o : OID) : Reads CType.kOID o.bytes [] fun _ => .oid o := by
  apply reads_plain
  intro inverted rest r _
  change Option.map _ (Option.map _ (readOID _ _)) = _
  rw [readOID_flipIf]
  rfl

theorem reads_numberInt (n : Int32) :
    ∃ c p, valueBytes (.numberInt n) = c :: p ∧
      Reads c p (appendBsonValue (.numberInt n) false).bits fun _ => .numberInt n := by
  have h1 := n.le_toInt
  have h2 := n.toInt_lt
  obtain ⟨c, p, hb, hr⟩ := reads_appendInteger (n := n.toInt)
    (by omega) (by omega) (.inl ⟨(rfl : [false, false] = _), by omega⟩)
  refine ⟨c, p, hb, ?_⟩
  change Reads c p ([false, false] ++ (appendInteger n.toInt false).bits) _
  rw [bits_appendInteger, append_nil]
  have hv : integerValue [false, false] n.toInt = .numberInt n :=
    congrArg Value.numberInt (Int32.ofInt_toInt n)
  rwa [hv] at hr

theorem reads_numberLong (n : Int64) :
    ∃ c p, valueBytes (.numberLong n) = c :: p ∧
      Reads c p (appendBsonValue (.numberLong n) false).bits fun _ => .numberLong n := by
  obtain ⟨c, p, hb, hr⟩ := reads_appendInteger (n := n.toInt)
    n.le_toInt n.toInt_lt (.inr (rfl : [false, true] = _))
  refine ⟨c, p, hb, ?_⟩
  change Reads c p ([false, true] ++ (appendInteger n.toInt false).bits) _
  rw [bits_appendInteger, append_nil]
  have hv : integerValue [false, true] n.toInt = .numberLong n :=
    congrArg Value.numberLong (Int64.ofInt_toInt n)
  rwa [hv] at hr

theorem bits_appendStringLike (s : Bytes) (invert : Bool) :
    (appendStringLike s invert).bits = [] := by
  induction s with
  | nil => rfl
  | cons c s ih => by_cases hc : c = 0 <;> simp [appendStringLike, hc, ih]

theorem scalar_reads {v : Value} (hw : v.storable) (hn : nested v = false) :
    ∃ c p, valueBytes v = c :: p ∧
      Reads c p (appendBsonValue v false).bits fun inverted => decoded inverted (kept v) := by
  cases v with
  | object _ | array _ | codeWScope _ _ => cases hn
  | minKey | maxKey | undefined | null => exact ⟨_, _, rfl, reads_single fun _ _ => rfl⟩
  | bool b => cases b <;> exact ⟨_, _, rfl, reads_single fun _ _ => rfl⟩
  | numberDouble d => exact reads_numberDouble d
  | numberInt n => exact reads_numberInt n
  | numberLong n => exact reads_numberLong n
  | string s =>
    have hb : (appendBsonValue (.string s) false).bits = [false] :=
      congrArg (false :: ·) (bits_appendStringLike s false)
    rw [hb]
    exact ⟨_, _, congrArg (CType.kStringLike :: ·) (bytes_appendStringLike s), reads_stringLike⟩
  | symbol s =>
    have hb : (appendBsonValue (.symbol s) false).bits = [true] :=
      congrArg (true :: ·) (bits_appendStringLike s false)
    rw [hb]
    exact ⟨_, _, congrArg (CType.kStringLike :: ·) (bytes_appendStringLike s), reads_stringLike⟩
  | code s =>
    have hb : (appendBsonValue (.code s) false).bits = [] := bits_appendStringLike s false
    rw [hb]
    exact ⟨_, _, congrArg (CType.kCode :: ·) (bytes_appendStringLike s), reads_code⟩
  | date d => exact ⟨_, _, rfl, reads_date d⟩
  | timestamp t => exact ⟨_, _, rfl, reads_timestamp t⟩
  | oid o => exact ⟨_, _, rfl, reads_oid o⟩
  | binData t d =>
    simp only [Value.storable, decide_eq_true_eq] at hw
    have hb : (appendBsonValue (.binData t d) false).bits = [] := by
      by_cases hlen : d.length < 0xff <;> simp [appendBsonValue, appendBinData, hlen]
    rw [hb]
    exact ⟨_, _, bytes_binData t d, reads_binData hw⟩
  | regEx p f =>
    simp only [Value.storable, Bool.and_eq_true] at hw
    exact ⟨_, _, bytes_regEx p f, reads_regEx hw.1 hw.2⟩
  | dbRef ns o =>
    simp only [Value.storable, decide_eq_true_eq] at hw
    exact ⟨_, _, bytes_dbRef ns o, reads_dbRef o ((length_dbrefNS_le ns).trans_lt hw)⟩

end Scalars

theorem follows_of_stops {inverted : Bool} {u : Bytes} (h : Stops u) (rest : Bytes) :
    Follows inverted (flipIf inverted u ++ rest) := by
  rw [Follows, flipIf_append, flipIf_flipIf]
  exact h.append _

theorem ctypeRange_of_scalar {v : Value} (hn : nested v = false) :
    (ctypeRange v).2 < 70 ∨ 80 < (ctypeRange v).1 ∧ (ctypeRange v).2 < 170 ∨
      170 < (ctypeRange v).1 := by
  cases v with
  | object _ | array _ | codeWScope _ _ => cases hn
  | _ => exact of_decide_eq_true rfl

theorem head_range {v : Value} {p : Bytes} (h : valueBytes v = c :: p) :
    (ctypeRange v).1 ≤ c.toNat ∧ c.toNat ≤ (ctypeRange v).2 := by
  obtain ⟨a, t, ha, hr⟩ := head_value v
  rw [h] at ha
  obtain ⟨rfl, -⟩ := cons.inj ha
  exact hr

theorem toBsonValue_scalar {v : Value} (hn : nested v = false) {p : Bytes}
    (h : valueBytes v = c :: p) (fuel : Nat) (inverted : Bool) (input : Input) :
    toBsonValue (fuel + 1) c inverted input = toBsonScalar c inverted input := by
  have hr := head_range h
  have hrange := ctypeRange_of_scalar hn
  have ne : ∀ b : UInt8, c.toNat ≠ b.toNat → c ≠ b := fun b hb he => hb (by rw [he])
  rw [toBsonValue, if_neg (ne CType.kCodeWithScope (show c.toNat ≠ 170 by omega)),
    if_neg (ne CType.kObject (show c.toNat ≠ 70 by omega)),
    if_neg (ne CType.kArray (show c.toNat ≠ 80 by omega))]

theorem generic_ne_zero (v : Value) : bsonTypeToGenericKeyStringType v ≠ 0 := by
  intro h
  have h1 := ctypeRange_bounds v
  have h2 := generic_eq v
  rw [h] at h2
  have h3 : (0 : UInt8).toNat = 0 := rfl
  omega

theorem head_ne_zero {v : Value} {p : Bytes} (h : valueBytes v = c :: p) : c ≠ 0 := by
  rintro rfl
  have hr := head_range h
  have h1 := ctypeRange_bounds v
  have h3 : (0 : UInt8).toNat = 0 := rfl
  omega

/-- The statement about one value that the induction carries through documents. -/
def ValueReads (v : Value) : Prop :=
  ∀ fuel inverted rest r bs,
    (valueBytes v).length ≤ fuel → Follows inverted rest →
    TypeBits.Serves r ((appendBsonValue v false).bits ++ bs) →
    ∃ c p r', valueBytes v = c :: p ∧
      toBsonValue fuel c inverted ⟨flipIf inverted p ++ rest, r⟩ =
        some (decoded inverted (kept v), ⟨rest, r'⟩) ∧ TypeBits.Serves r' bs

def FieldsRead (fields : List (Bytes × Value)) : Prop :=
  ∀ fuel inverted rest r bs,
    (fieldsBytes fields).length ≤ fuel →
    TypeBits.Serves r ((appendBson fields false).bits ++ bs) →
    ∃ r', toBsonFields fuel inverted ⟨flipIf inverted (fieldsBytes fields) ++ rest, r⟩ =
      some (decodedFields inverted (keptFields fields), ⟨rest, r'⟩) ∧ TypeBits.Serves r' bs

def ElementsRead (i : Nat) (fields : List (Bytes × Value)) : Prop :=
  ∀ fuel inverted rest r bs,
    (elementsBytes fields).length ≤ fuel →
    TypeBits.Serves r ((appendArray fields false).bits ++ bs) →
    ∃ r', toBsonArray fuel i inverted ⟨flipIf inverted (elementsBytes fields) ++ rest, r⟩ =
      some (decodedFields inverted (keptElements i fields), ⟨rest, r'⟩) ∧ TypeBits.Serves r' bs

theorem exists_fuel {n fuel : Nat} (h : n + 1 ≤ fuel) : ∃ k, fuel = k + 1 ∧ n ≤ k :=
  ⟨fuel - 1, by omega, by omega⟩

theorem valueReads_scalar {v : Value} (hw : v.storable) (hn : nested v = false) :
    ValueReads v := by
  intro fuel inverted rest r bs hf hfol hs
  obtain ⟨c, p, hb, hr⟩ := scalar_reads hw hn
  rw [hb] at hf
  obtain ⟨k, rfl, -⟩ := exists_fuel hf
  obtain ⟨r', he, hs'⟩ := hr inverted rest r bs hfol hs
  exact ⟨c, p, r', hb, (toBsonValue_scalar hn hb k inverted _).trans he, hs'⟩

theorem valueReads_object {fields : Obj} (h : FieldsRead fields) :
    ValueReads (.object fields) := by
  intro fuel inverted rest r bs hf _ hs
  obtain ⟨k, rfl, hk⟩ := exists_fuel hf
  obtain ⟨r', he, hs'⟩ := h k inverted rest r bs hk hs
  refine ⟨_, _, r', rfl, ?_, hs'⟩
  change Option.map _ (toBsonFields k inverted ⟨flipIf inverted (fieldsBytes fields) ++ rest, r⟩) = _
  rw [he]
  rfl

theorem valueReads_array {fields : Obj} (h : ElementsRead 0 fields) :
    ValueReads (.array fields) := by
  intro fuel inverted rest r bs hf _ hs
  obtain ⟨k, rfl, hk⟩ := exists_fuel hf
  obtain ⟨r', he, hs'⟩ := h k inverted rest r bs hk hs
  refine ⟨_, _, r', rfl, ?_, hs'⟩
  change Option.map _
    (toBsonArray k 0 inverted ⟨flipIf inverted (elementsBytes fields) ++ rest, r⟩) = _
  rw [he]
  rfl

theorem bytes_codeWScope (code : Bytes) (scope : Obj) :
    valueBytes (.codeWScope code scope) =
      CType.kCodeWithScope :: (escape code ++ fieldsBytes scope) := by
  simp [valueBytes, appendBsonValue, bytes_appendStringLike, fieldsBytes]

theorem valueReads_codeWScope {code : Bytes} {scope : Obj} (h : FieldsRead scope) :
    ValueReads (.codeWScope code scope) := by
  intro fuel inverted rest r bs hf _ hs
  rw [bytes_codeWScope] at hf
  obtain ⟨k, rfl, hk⟩ := exists_fuel hf
  have hbits : (appendBsonValue (.codeWScope code scope) false).bits =
      (appendBson scope false).bits := by
    simp [appendBsonValue, bits_appendStringLike]
  rw [hbits] at hs
  rw [length_append] at hk
  obtain ⟨r', he, hs'⟩ := h k inverted rest r bs (by omega) hs
  have hfollows : Follows inverted (flipIf inverted (fieldsBytes scope) ++ rest) :=
    follows_of_stops (stops_fields scope) rest
  have htext := readText_flipIf hfollows code
  refine ⟨_, _, r', bytes_codeWScope code scope, ?_, hs'⟩
  rw [flipIf_append, append_assoc]
  change Option.bind (readText inverted _) _ = _
  rw [htext, bind_some]
  change Option.map _ (toBsonFields k inverted ⟨flipIf inverted (fieldsBytes scope) ++ rest, r⟩) = _
  rw [he]
  rfl

theorem fieldsRead_nil : FieldsRead [] := by
  intro fuel inverted rest r bs hf hs
  obtain ⟨k, rfl, -⟩ := exists_fuel hf
  refine ⟨r, ?_, hs⟩
  rw [toBsonFields]
  change Option.bind (readByte inverted (flipIf inverted [0] ++ rest)) _ = _
  rw [readByte_flipIf, flipIf_nil, nil_append]
  rfl

theorem fieldsRead_cons {name : Bytes} {v : Value} {fs : Obj} (hname : cstring name)
    (hv : ValueReads v) (hfs : FieldsRead fs) : FieldsRead ((name, v) :: fs) := by
  intro fuel inverted rest r bs hf hs
  rw [fieldsBytes_cons, singleton_append, length_cons, length_append,
    @length_append _ (valueBytes v)] at hf
  obtain ⟨k, rfl, hk⟩ := exists_fuel hf
  have hbits : (appendBson ((name, v) :: fs) false).bits ++ bs =
      (appendBsonValue v false).bits ++ ((appendBson fs false).bits ++ bs) := by
    simp [appendBson]
  rw [hbits] at hs
  obtain ⟨c, p, r₁, hb, he₁, hs₁⟩ := hv k inverted (flipIf inverted (fieldsBytes fs) ++ rest) r _
    (by omega) (follows_of_stops (stops_fields fs) rest) hs
  obtain ⟨r₂, he₂, hs₂⟩ := hfs k inverted rest r₁ bs (by omega) hs₁
  refine ⟨r₂, ?_, hs₂⟩
  have h1 : readByte inverted (flipIf inverted (fieldsBytes ((name, v) :: fs)) ++ rest) =
      some (bsonTypeToGenericKeyStringType v, flipIf inverted ((name ++ [0]) ++
        (valueBytes v ++ fieldsBytes fs)) ++ rest) := by
    rw [fieldsBytes_cons, singleton_append, readByte_flipIf]
  have h2 : readName inverted (flipIf inverted ((name ++ [0]) ++
        (valueBytes v ++ fieldsBytes fs)) ++ rest) =
      some (name, flipIf inverted (valueBytes v ++ fieldsBytes fs) ++ rest) := by
    rw [flipIf_append, append_assoc, readName_flipIf hname]
  have h3 : readByte inverted (flipIf inverted (valueBytes v ++ fieldsBytes fs) ++ rest) =
      some (c, flipIf inverted p ++ (flipIf inverted (fieldsBytes fs) ++ rest)) := by
    rw [hb, cons_append, readByte_flipIf, flipIf_append, append_assoc]
  simp only [toBsonFields, h1, bind_some, if_neg (generic_ne_zero v), h2, h3, he₁, he₂]
  rfl

theorem elementsRead_nil (i : Nat) : ElementsRead i [] := by
  intro fuel inverted rest r bs hf hs
  obtain ⟨k, rfl, -⟩ := exists_fuel hf
  refine ⟨r, ?_, hs⟩
  rw [toBsonArray]
  change Option.bind (readByte inverted (flipIf inverted [0] ++ rest)) _ = _
  rw [readByte_flipIf, flipIf_nil, nil_append]
  rfl

theorem elementsRead_cons {i : Nat} {name : Bytes} {v : Value} {fs : Obj} (hv : ValueReads v)
    (hfs : ElementsRead (i + 1) fs) : ElementsRead i ((name, v) :: fs) := by
  intro fuel inverted rest r bs hf hs
  have hlen : (elementsBytes ((name, v) :: fs)).length =
      (valueBytes v).length + (elementsBytes fs).length := by
    rw [elementsBytes_cons, length_append]
  have hpos : 1 ≤ (elementsBytes fs).length := by
    obtain ⟨a, t, h, -⟩ := stops_elements fs
    rw [h]
    exact Nat.succ_pos _
  have hpos' : 1 ≤ (valueBytes v).length := by
    obtain ⟨a, t, h, -⟩ := head_value v
    rw [h]
    exact Nat.succ_pos _
  obtain ⟨k, rfl⟩ : ∃ k, fuel = k + 1 := ⟨fuel - 1, by omega⟩
  have hbits : (appendArray ((name, v) :: fs) false).bits ++ bs =
      (appendBsonValue v false).bits ++ ((appendArray fs false).bits ++ bs) := by
    simp [appendArray]
  rw [hbits] at hs
  obtain ⟨c, p, r₁, hb, he₁, hs₁⟩ := hv k inverted (flipIf inverted (elementsBytes fs) ++ rest) r _
    (by omega) (follows_of_stops (stops_elements fs) rest) hs
  obtain ⟨r₂, he₂, hs₂⟩ := hfs k inverted rest r₁ bs (by omega) hs₁
  refine ⟨r₂, ?_, hs₂⟩
  have h1 : readByte inverted (flipIf inverted (elementsBytes ((name, v) :: fs)) ++ rest) =
      some (c, flipIf inverted p ++ (flipIf inverted (elementsBytes fs) ++ rest)) := by
    rw [elementsBytes_cons, hb, cons_append, readByte_flipIf, flipIf_append,
      append_assoc]
  simp only [toBsonArray, h1, bind_some, if_neg (head_ne_zero hb), he₁, he₂]
  rfl

mutual
theorem value_reads : ∀ v : Value, v.storable → ValueReads v
  | .object fields, hw => valueReads_object (fields_read fields hw)
  | .array fields, hw => valueReads_array (elements_read 0 fields hw)
  | .codeWScope _ scope, hw => valueReads_codeWScope (fields_read scope hw)
  | .minKey, hw | .maxKey, hw | .undefined, hw | .null, hw | .numberDouble _, hw
  | .numberInt _, hw | .numberLong _, hw | .string _, hw | .symbol _, hw | .binData _ _, hw
  | .oid _, hw | .bool _, hw | .date _, hw | .timestamp _, hw | .regEx _ _, hw
  | .dbRef _ _, hw | .code _, hw => valueReads_scalar hw rfl
theorem fields_read : ∀ fields : List (Bytes × Value), fieldsStorable fields →
    FieldsRead fields
  | [], _ => fieldsRead_nil
  | (name, v) :: fs, hw => by
    simp only [fieldsStorable, Bool.and_eq_true] at hw
    exact fieldsRead_cons hw.1.1 (value_reads v hw.1.2) (fields_read fs hw.2)
theorem elements_read : ∀ (i : Nat) (fields : List (Bytes × Value)),
    fieldsStorable fields → ElementsRead i fields
  | i, [], _ => elementsRead_nil i
  | i, (name, v) :: fs, hw => by
    simp only [fieldsStorable, Bool.and_eq_true] at hw
    exact elementsRead_cons (value_reads v hw.1.2) (elements_read (i + 1) fs hw.2)
end
/-! Whole keys. -/
section
variable {ord : KeyOrdering}
/-- The key as it is read back, from field `i` on. -/
def decodedKey (ord : KeyOrdering) : Nat → Obj → Obj
  | _, [] => []
  | i, (_, v) :: rest => ([], decoded (ord.inverts i) (kept v)) :: decodedKey ord (i + 1) rest
theorem head_not_marker {v : Value} {p : Bytes} (h : valueBytes v = c :: p) :
    ¬ (c = kLess ∨ c = kGreater) ∧ c ≠ kEnd := by
  have hr := head_range h
  have h1 := ctypeRange_bounds v
  have ne : ∀ b : UInt8, c.toNat ≠ b.toNat → c ≠ b := fun b hb he => hb (by rw [he])
  refine ⟨?_, ne kEnd (show c.toNat ≠ 4 by omega)⟩
  rintro (he | he)
  · exact ne kLess (show c.toNat ≠ 1 by omega) he
  · exact ne kGreater (show c.toNat ≠ 254 by omega) he

/-- The end byte is never inverted, but it is read as if it belonged to one more field. -/
theorem toBsonFrom_keyBytes (fields : Obj) (hw : fieldsStorable fields) {i fuel : Nat}
    (hf : fields.length < fuel) {r : TypeBits.Reader}
    (hs : TypeBits.Serves r (keyBits fields)) :
    toBsonFrom fuel ord i ⟨keyBytes ord i fields, r⟩ =
      if ord.inverts (i + fields.length) then none else some (decodedKey ord i fields) := by
  induction fields generalizing i fuel r with
  | nil =>
    obtain ⟨k, rfl, -⟩ := exists_fuel hf
    simp only [toBsonFrom, keyBytes, length_nil, Nat.add_zero]
    cases ord.inverts i with
    | false | true => rfl
  | cons f fs ih =>
    obtain ⟨name, v⟩ := f
    obtain ⟨k, rfl, hk⟩ := exists_fuel hf
    simp only [fieldsStorable, Bool.and_eq_true] at hw
    have hfollows : Follows (ord.inverts i) (keyBytes ord (i + 1) fs) := by
      cases ord.inverts i with
      | false => exact (stops_keyBytes (i + 1) fs).1
      | true => exact (stops_keyBytes (i + 1) fs).2
    obtain ⟨c, p, hb, -⟩ := head_value v
    obtain ⟨c', p', r₁, hb', he₁, hs₁⟩ := value_reads v hw.1.2
      (flipIf (ord.inverts i) p ++ keyBytes ord (i + 1) fs).length.succ (ord.inverts i)
      (keyBytes ord (i + 1) fs) r (keyBits fs) (by simp [hb]) hfollows hs
    obtain ⟨rfl, rfl⟩ := cons.inj (hb.symm.trans hb')
    have hrest := ih hw.2 (i := i + 1)
      (Nat.lt_of_lt_of_le (Nat.lt_succ_self _) hk) hs₁
    have hread : readByte (ord.inverts i) (keyBytes ord i ((name, v) :: fs)) =
        some (c, flipIf (ord.inverts i) p ++ keyBytes ord (i + 1) fs) := by
      rw [keyBytes, hb, readByte_flipIf]
    have hne : (keyBytes ord i ((name, v) :: fs)).isEmpty = false := by
      have hstops : Stops (keyBytes ord i ((name, v) :: fs)) := (stops_keyBytes i _).1
      obtain ⟨a, t, h, -⟩ := hstops
      rw [h]
      rfl
    obtain ⟨hm, hend⟩ := head_not_marker hb
    simp only [toBsonFrom, hne, hread, bind_some, if_neg hm, if_neg hend, he₁, hrest]
    rw [if_neg Bool.false_ne_true, length_cons,
      show i + 1 + fs.length = i + (fs.length + 1) by omega]
    cases ord.inverts (i + (fs.length + 1)) with
    | false | true => rfl

end

end MongolDb.KeyString
