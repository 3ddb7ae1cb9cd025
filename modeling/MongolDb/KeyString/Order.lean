import MongolDb.KeyString.Inversion
import MongolDb.KeyString.Kept
import MongolDb.KeyString.Numeric

/-! KeyStrings compare as the keys they encode. -/
namespace MongolDb.KeyString
open ByteOrder Bson

/-! The bytes of a value in an ascending field. -/

def valueBytes (v : Value) : Bytes := (appendBsonValue v false).bytes

def fieldsBytes (fields : Obj) : Bytes := (appendBson fields false).bytes

def elementsBytes (fields : Obj) : Bytes := (appendArray fields false).bytes

/-- The least and the greatest type byte of the values of one canonical type. -/
def ctypeRange : Value → Nat × Nat
  | .numberDouble _ | .numberInt _ | .numberLong _ => (30, 51)
  | .bool _ => (110, 111)
  | v => ((bsonTypeToGenericKeyStringType v).toNat, (bsonTypeToGenericKeyStringType v).toNat)

/-- The ranges of all canonical types. -/
def ctypeTable : List (Int × Nat × Nat) :=
  [(-1, 10, 10), (0, 15, 15), (5, 20, 20), (10, 30, 51), (15, 60, 60), (20, 70, 70),
    (25, 80, 80), (30, 90, 90), (35, 100, 100), (40, 110, 111), (45, 120, 120), (47, 130, 130),
    (50, 140, 140), (55, 150, 150), (60, 160, 160), (65, 170, 170), (127, 240, 240)]

theorem mem_ctypeTable (v : Value) : (v.canonicalType, ctypeRange v) ∈ ctypeTable := by
  cases v <;> exact List.mem_of_elem_eq_true rfl

theorem ctypeTable_ordered : ∀ e ∈ ctypeTable, ∀ e' ∈ ctypeTable,
    10 ≤ e.2.1 ∧ e.2.1 ≤ e.2.2 ∧ e.2.2 ≤ 240 ∧ (e.1 < e'.1 → e.2.2 < e'.2.1) ∧
      (e.1 = e'.1 → e = e') := by
  decide

theorem generic_eq (v : Value) :
    (bsonTypeToGenericKeyStringType v).toNat = (ctypeRange v).1 := by
  cases v <;> rfl

theorem ctypeRange_bounds (v : Value) :
    10 ≤ (ctypeRange v).1 ∧ (ctypeRange v).1 ≤ (ctypeRange v).2 ∧ (ctypeRange v).2 ≤ 240 := by
  have h := ctypeTable_ordered _ (mem_ctypeTable v) _ (mem_ctypeTable v)
  exact ⟨h.1, h.2.1, h.2.2.1⟩

theorem ctypeRange_lt {l r : Value} (h : l.canonicalType < r.canonicalType) :
    (ctypeRange l).2 < (ctypeRange r).1 :=
  (ctypeTable_ordered _ (mem_ctypeTable l) _ (mem_ctypeTable r)).2.2.2.1 h

theorem generic_inj {l r : Value} (h : l.canonicalType = r.canonicalType) :
    bsonTypeToGenericKeyStringType l = bsonTypeToGenericKeyStringType r := by
  have he := (ctypeTable_ordered _ (mem_ctypeTable l) _ (mem_ctypeTable r)).2.2.2.2 h
  apply UInt8.toNat_inj.mp
  rw [generic_eq, generic_eq, (Prod.mk.inj he).2]

/-- The generic type bytes of two values are ordered as their canonical types. -/
theorem ordered_generic (l r : Value) :
    Ordered (compare l.canonicalType r.canonicalType)
      [bsonTypeToGenericKeyStringType l] [bsonTypeToGenericKeyStringType r] := by
  have hl := ctypeRange_bounds l
  have hr := ctypeRange_bounds r
  apply ordered_compare
  · intro h
    have := ctypeRange_lt h
    exact below_cons (by rw [generic_eq, generic_eq]; omega)
  · intro h
    rw [generic_inj h]
  · intro h
    have := ctypeRange_lt h
    exact below_cons (by rw [generic_eq, generic_eq]; omega)

theorem numCode_value {v : Value} (h : v.isNumber) : NumCode v.numericKey (valueBytes v) := by
  cases v <;> simp [Value.isNumber] at h
  case numberDouble d => exact numCode_appendNumberDouble d
  case numberInt n =>
    have h1 := n.le_toInt
    have h2 := n.toInt_lt
    exact numCode_appendInteger (by omega) (by omega)
  case numberLong n => exact numCode_appendInteger n.le_toInt n.toInt_lt

/-- A value's bytes start with a type byte of its canonical type. -/
theorem head_value (v : Value) : ∃ a t, valueBytes v = a :: t ∧
    (ctypeRange v).1 ≤ a.toNat ∧ a.toNat ≤ (ctypeRange v).2 := by
  by_cases hn : v.isNumber
  · obtain ⟨a, t, h, ha⟩ := (numCode_value hn).head
    refine ⟨a, t, h, ?_⟩
    cases v <;> simp [Value.isNumber] at hn
    all_goals exact ⟨ha.2.1, ha.2.2.1⟩
  · cases v <;> simp [Value.isNumber] at hn
    case bool b => cases b <;> exact ⟨_, _, rfl, by decide⟩
    all_goals exact ⟨_, _, rfl, le_rfl, le_rfl⟩

theorem stops_value (v : Value) (x : Bytes) :
    Stops (valueBytes v ++ x) ∧ Stops (flip (valueBytes v ++ x)) := by
  obtain ⟨a, t, h, ha⟩ := head_value v
  have hb := ctypeRange_bounds v
  rw [h]
  refine ⟨stops_cons ?_ _, stops_cons ?_ _⟩
  · rintro rfl
    have : (255 : UInt8).toNat = 255 := rfl
    omega
  · intro (he : ~~~a = 255)
    have hc := toNat_complement a
    rw [he] at hc
    have : (255 : UInt8).toNat = 255 := rfl
    omega

/-! Values of one canonical type. -/

theorem bytes_appendStringLike (s : Bytes) : (appendStringLike s false).bytes = escape s := by
  induction s with
  | nil => rfl
  | cons c s ih =>
    by_cases hc : c = 0
    · simp [appendStringLike, escape, hc, ih]
    · simp [appendStringLike, escape, hc, ih]

theorem compareStrings_eq (l r : Bytes) : compareStrings l r = lex l r := lex_append_nul l r

theorem codes_stringLike (c : UInt8) (l r : Bytes) :
    Codes (compareStrings l r) (c :: (appendStringLike l false).bytes)
      (c :: (appendStringLike r false).bytes) := by
  simp only [compareStrings_eq, bytes_appendStringLike]
  exact Ordered.then (u := [c]) (v := [c]) (o := .eq) rfl fun _ => codes_escape l r

theorem xor_top {x : Nat} (h : x < 2 ^ 64) :
    x ^^^ 2 ^ 63 = if x < 2 ^ 63 then x + 2 ^ 63 else x - 2 ^ 63 := by
  have hq : (x ^^^ 2 ^ 63) / 2 ^ 63 = x / 2 ^ 63 ^^^ 1 := Nat.xor_div_two_pow
  have hr : (x ^^^ 2 ^ 63) % 2 ^ 63 = x % 2 ^ 63 ^^^ 0 := Nat.xor_mod_two_pow
  rw [Nat.xor_zero] at hr
  have hm := Nat.div_add_mod (x ^^^ 2 ^ 63) (2 ^ 63)
  rw [hq, hr] at hm
  rw [← hm]
  by_cases hlt : x < 2 ^ 63
  · rw [if_pos hlt, Nat.div_eq_of_lt hlt, Nat.mod_eq_of_lt hlt, Nat.zero_xor]
    omega
  · have h1 : x / 2 ^ 63 = 1 := by omega
    rw [if_neg hlt, h1, Nat.xor_self]
    omega

theorem date_bias (d : Int64) :
    ((d.toUInt64 ^^^ ((1 : UInt64) <<< 63)).toNat : Int) = d.toInt + 2 ^ 63 := by
  have hx : (d.toUInt64 ^^^ ((1 : UInt64) <<< 63)).toNat = d.toUInt64.toNat ^^^ 2 ^ 63 := by
    rw [UInt64.toNat_xor]
    rfl
  have hi : d.toInt = if 2 * d.toUInt64.toNat < 2 ^ 64 then (d.toUInt64.toNat : Int)
      else d.toUInt64.toNat - (2 ^ 64 : Nat) := BitVec.toInt_eq_toNat_cond d.toBitVec
  have hlt := d.toUInt64.toNat_lt
  rw [hx, xor_top hlt, hi]
  split <;> split <;> omega

theorem ordered_date (l r : Int64) :
    Ordered (compareLongs l.toInt r.toInt) (valueBytes (.date l)) (valueBytes (.date r)) := by
  obtain ⟨x, hx⟩ : ∃ x, x = (l.toUInt64 ^^^ ((1 : UInt64) <<< 63)).toNat := ⟨_, rfl⟩
  obtain ⟨y, hy⟩ : ∃ y, y = (r.toUInt64 ^^^ ((1 : UInt64) <<< 63)).toNat := ⟨_, rfl⟩
  have hl := date_bias l
  have hr := date_bias r
  have hc : compareLongs l.toInt r.toInt = compare x y := by
    rw [← hx] at hl
    rw [← hy] at hr
    rw [compareLongs_eq]
    exact ThreeWay.compare_congr (by omega) (by omega)
  rw [hc]
  change Ordered _ ([CType.kDate] ++ be 8 _) ([CType.kDate] ++ be 8 _)
  rw [← hx, ← hy]
  refine Ordered.then_ordered (o := .eq) rfl fun _ => ordered_be ?_ ?_
  · rw [hx]
    exact UInt64.toNat_lt _
  · rw [hy]
    exact UInt64.toNat_lt _

theorem ordered_bool (l r : Bool) :
    Ordered (compare l.toNat r.toNat) (valueBytes (.bool l)) (valueBytes (.bool r)) := by
  cases l <;> cases r
  · exact rfl
  · exact below_cons (by decide)
  · exact below_cons (by decide)
  · exact rfl

/-- The bytes of a length: one, or the escape and four. -/
def lengthBytes (n : Nat) : Bytes :=
  if n < 0xff then [UInt8.ofNat n] else [0xff] ++ be 4 n

theorem ordered_lengthBytes {m n : Nat} (hm : m < 2 ^ 31) (hn : n < 2 ^ 31) :
    Ordered (compare m n) (lengthBytes m) (lengthBytes n) := by
  have byte : ∀ {k : Nat}, k < 0xff → (UInt8.ofNat k).toNat = k := by
    intro k hk
    rw [UInt8.toNat_ofNat', Nat.mod_eq_of_lt (by omega)]
  unfold lengthBytes
  by_cases h1 : m < 0xff
  · by_cases h2 : n < 0xff
    · rw [if_pos h1, if_pos h2]
      have h := ordered_byte (UInt8.ofNat m) (UInt8.ofNat n)
      rwa [byte h1, byte h2] at h
    · rw [if_pos h1, if_neg h2, Nat.compare_eq_lt.mpr (by omega)]
      refine below_cons ?_
      rw [byte h1]
      exact h1
  · by_cases h2 : n < 0xff
    · rw [if_neg h1, if_pos h2, Nat.compare_eq_gt.mpr (by omega)]
      refine below_cons ?_
      rw [byte h2]
      exact h2
    · rw [if_neg h1, if_neg h2]
      exact Ordered.then_ordered (o := .eq) rfl fun _ => ordered_be (by omega) (by omega)

theorem bytes_binData (t : UInt8) (d : Bytes) :
    valueBytes (.binData t d) = [CType.kBinData] ++ (lengthBytes d.length ++ (t :: d)) := by
  change ([CType.kBinData] ++ Output.bytes (if _ then _ else _) ++ [t] ++ d) = _
  rw [apply_ite Output.bytes]
  simp [lengthBytes]

theorem ordered_binData {lt rt : UInt8} {ld rd : Bytes} (hl : ld.length < 2 ^ 31)
    (hr : rd.length < 2 ^ 31) :
    Ordered ((compare ld.length rd.length).then (lex (lt :: ld) (rt :: rd)))
      (valueBytes (.binData lt ld)) (valueBytes (.binData rt rd)) := by
  simp only [bytes_binData]
  refine Ordered.then_ordered (o := .eq) rfl fun _ => ?_
  refine (ordered_lengthBytes hl hr).then_ordered fun h => ordered_of_length_eq ?_
  simp [Nat.compare_eq_eq.mp h]

theorem bytes_dbRef (ns : Bytes) (o : OID) :
    valueBytes (.dbRef ns o) =
      [CType.kDBRef] ++ (be 4 (dbrefNS ns).length ++ (dbrefNS ns ++ o.bytes)) := by
  simp [valueBytes, appendBsonValue, appendDBRef]

theorem ordered_dbRef {ln rn : Bytes} (lo ro : OID) (hl : ln.length < 2 ^ 31)
    (hr : rn.length < 2 ^ 31) :
    Ordered ((compare (4 + ln.length + 1 + 12) (4 + rn.length + 1 + 12)).then
        (lex (dbRefBytes ln lo) (dbRefBytes rn ro)))
      ([CType.kDBRef] ++ (be 4 ln.length ++ (ln ++ lo.bytes)))
      ([CType.kDBRef] ++ (be 4 rn.length ++ (rn ++ ro.bytes))) := by
  have hc : compare (4 + ln.length + 1 + 12) (4 + rn.length + 1 + 12) =
      compare ln.length rn.length := ThreeWay.compare_congr (by omega) (by omega)
  rw [hc]
  refine Ordered.then_ordered (o := .eq) rfl fun _ => ?_
  refine (ordered_be (by omega) (by omega)).then_ordered fun h => ?_
  have he : ln.length = rn.length := Nat.compare_eq_eq.mp h
  have hlex : lex (dbRefBytes ln lo) (dbRefBytes rn ro) = lex (ln ++ lo.bytes) (rn ++ ro.bytes) := by
    unfold dbRefBytes
    rw [he, lex_append_of_length_eq (by simp [he]), lex_append_of_length_eq (by simp [he]),
      lex_append_left, lex_append_of_length_eq he, lex_self]
    cases lex ln rn <;> rfl
  rw [hlex]
  exact ordered_of_length_eq (by simp [he, lo.size, ro.size])

theorem bytes_regEx (p f : Bytes) :
    valueBytes (.regEx p f) = [CType.kRegEx] ++ ((p ++ [0]) ++ (f ++ [0])) := by
  simp [valueBytes, appendBsonValue, appendRegex]

theorem ordered_regEx {lp lf rp rf : Bytes} (h1 : cstring lp) (h2 : cstring lf) (h3 : cstring rp)
    (h4 : cstring rf) :
    Ordered ((strcmp lp rp).then (strcmp lf rf)) (valueBytes (.regEx lp lf))
      (valueBytes (.regEx rp rf)) := by
  rw [bytes_regEx, bytes_regEx]
  refine Ordered.then_ordered (o := .eq) rfl fun _ => ?_
  exact (ordered_cstring (cstring_iff.mp h1) (cstring_iff.mp h3)).then_ordered fun _ =>
    ordered_cstring (cstring_iff.mp h2) (cstring_iff.mp h4)

theorem isNumber_of_canonicalType {l r : Value} (h : l.canonicalType = r.canonicalType)
    (hl : l.isNumber) : r.isNumber := by
  have h10 : l.canonicalType = 10 := by
    cases l <;> simp [Value.isNumber] at hl <;> rfl
  rw [h10] at h
  cases r <;> simp [Value.canonicalType] at h <;> rfl

/-- Values that hold other documents. -/
def nested : Value → Bool
  | .object _ | .array _ | .codeWScope _ _ => true
  | _ => false

theorem kept_of_isNumber {v : Value} (h : v.isNumber) : kept v = v := by
  cases v <;> simp [Value.isNumber] at h <;> rfl

theorem codes_scalar {l r : Value} (hl : l.storable) (hr : r.storable)
    (hc : l.canonicalType = r.canonicalType) (hn : nested l = false) :
    Codes (compareElementValues compareAsUnsigned (kept l) (kept r)) (valueBytes l)
      (valueBytes r) := by
  by_cases hnum : l.isNumber
  · have hnum' := isNumber_of_canonicalType hc hnum
    rw [kept_of_isNumber hnum, kept_of_isNumber hnum', compareElementValues_numeric _ hnum hnum']
    exact ((numCode_value hnum).ordered (numCode_value hnum')).codes
  · cases l <;> simp [Value.isNumber, nested] at hnum hn <;> cases r <;>
      simp [Value.canonicalType] at hc
    case minKey.minKey | maxKey.maxKey | undefined.undefined | null.null => exact rfl
    case string.string l r | string.symbol l r | symbol.string l r | symbol.symbol l r
        | code.code l r => exact codes_stringLike _ l r
    case binData.binData lt ld rt rd =>
      simp only [Value.storable, decide_eq_true_eq] at hl hr
      exact (ordered_binData hl hr).codes
    case oid.oid l r =>
      refine Ordered.then (u := [CType.kOID]) (v := [CType.kOID]) (o := .eq) rfl fun _ => ?_
      exact (ordered_of_length_eq (l.size.trans r.size.symm)).codes
    case bool.bool l r => exact (ordered_bool l r).codes
    case date.date l r => exact (ordered_date l r).codes
    case timestamp.timestamp l r =>
      refine Ordered.then (u := [CType.kTimestamp]) (v := [CType.kTimestamp]) (o := .eq) rfl
        fun _ => ?_
      exact (ordered_be l.toNat_lt r.toNat_lt).codes
    case regEx.regEx lp lf rp rf =>
      simp only [Value.storable, Bool.and_eq_true] at hl hr
      exact (ordered_regEx hl.1 hl.2 hr.1 hr.2).codes
    case dbRef.dbRef ln lo rn ro =>
      simp only [Value.storable, decide_eq_true_eq] at hl hr
      rw [bytes_dbRef, bytes_dbRef]
      exact (ordered_dbRef lo ro ((length_dbrefNS_le ln).trans_lt hl)
        ((length_dbrefNS_le rn).trans_lt hr)).codes

/-! Values of any types, and documents of them. -/

/-- Values of different types are told apart by their type bytes. -/
theorem codes_element {l r : Value}
    (h : l.canonicalType = r.canonicalType →
      Codes (compareElementValues compareAsUnsigned (kept l) (kept r)) (valueBytes l)
        (valueBytes r)) :
    Codes (woCompareElement compareAsUnsigned (kept l) (kept r)) (valueBytes l)
      (valueBytes r) := by
  rw [woCompareElement_eq, canonicalType_kept, canonicalType_kept]
  obtain ⟨a, t, ha, hla⟩ := head_value l
  obtain ⟨b, t', hb, hrb⟩ := head_value r
  rcases Int.lt_trichotomy l.canonicalType r.canonicalType with hc | hc | hc
  · have := ctypeRange_lt hc
    rw [compare_lt_iff_lt.mpr hc, ha, hb]
    exact Ordered.codes (o := .lt) (below_cons (by omega))
  · rw [compare_eq_iff_eq.mpr hc]
    exact h hc
  · have := ctypeRange_lt hc
    rw [compare_gt_iff_gt.mpr hc, ha, hb]
    exact Ordered.codes (o := .gt) (below_cons (by omega))

theorem fieldsBytes_cons (name : Bytes) (v : Value) (rest : Obj) :
    fieldsBytes ((name, v) :: rest) = [bsonTypeToGenericKeyStringType v] ++
      ((name ++ [0]) ++ (valueBytes v ++ fieldsBytes rest)) := by
  simp [fieldsBytes, appendBson, valueBytes]

theorem elementsBytes_cons (name : Bytes) (v : Value) (rest : Obj) :
    elementsBytes ((name, v) :: rest) = valueBytes v ++ elementsBytes rest := rfl

theorem stops_fields (fields : Obj) : Stops (fieldsBytes fields) := by
  cases fields with
  | nil => exact stops_cons (by decide) _
  | cons f rest =>
    obtain ⟨name, v⟩ := f
    rw [fieldsBytes_cons]
    refine stops_cons ?_ _
    intro he
    have h1 := ctypeRange_bounds v
    have h2 := generic_eq v
    have h3 : (0xff : UInt8).toNat = 255 := rfl
    rw [he] at h2
    omega

theorem stops_elements (fields : Obj) : Stops (elementsBytes fields) := by
  cases fields with
  | nil => exact stops_cons (by decide) _
  | cons f rest => exact (stops_value f.2 _).1

/-- The end of a document comes before a further field of another. -/
theorem below_fields (name : Bytes) (v : Value) (rest : Obj) :
    Below (fieldsBytes []) (fieldsBytes ((name, v) :: rest)) := by
  have h1 := ctypeRange_bounds v
  have h2 := generic_eq v
  rw [fieldsBytes_cons]
  exact below_cons (show 0 < _ by omega)

theorem below_elements (v : Value) (rest : Obj) {name : Bytes} :
    Below (elementsBytes []) (elementsBytes ((name, v) :: rest)) := by
  obtain ⟨a, t, h, ha⟩ := head_value v
  have hb := ctypeRange_bounds v
  rw [elementsBytes_cons, h]
  exact below_cons (show 0 < _ by omega)

mutual
theorem codes_value : ∀ l r : Value, l.storable → r.storable →
    l.canonicalType = r.canonicalType →
    Codes (compareElementValues compareAsUnsigned (kept l) (kept r)) (valueBytes l) (valueBytes r)
  | .object l, r, hl, hr, hc => by
    cases r <;> simp [Value.canonicalType] at hc
    case object r =>
      exact Ordered.then (u := [CType.kObject]) (v := [CType.kObject]) (o := .eq) rfl
        fun _ => codes_fields l r hl hr
  | .array l, r, hl, hr, hc => by
    cases r <;> simp [Value.canonicalType] at hc
    case array r =>
      exact Ordered.then (u := [CType.kArray]) (v := [CType.kArray]) (o := .eq) rfl
        fun _ => codes_elements 0 l r hl hr
  | .codeWScope lc ls, r, hl, hr, hc => by
    cases r <;> simp [Value.canonicalType] at hc
    case codeWScope rc rs =>
      have h : ∀ c s, valueBytes (.codeWScope c s) =
          [CType.kCodeWithScope] ++ (escape c ++ fieldsBytes s) := by
        intro c s
        simp [valueBytes, appendBsonValue, bytes_appendStringLike, fieldsBytes]
      rw [h, h]
      exact Ordered.then (o := .eq) rfl fun _ => (codes_escape lc rc).then
        (fun _ => codes_fields ls rs hl hr) (stops_fields ls) (stops_fields rs)
  | .minKey, _, hl, hr, hc
  | .maxKey, _, hl, hr, hc
  | .undefined, _, hl, hr, hc
  | .null, _, hl, hr, hc
  | .numberDouble _, _, hl, hr, hc
  | .numberInt _, _, hl, hr, hc
  | .numberLong _, _, hl, hr, hc
  | .string _, _, hl, hr, hc
  | .symbol _, _, hl, hr, hc
  | .binData _ _, _, hl, hr, hc
  | .oid _, _, hl, hr, hc
  | .bool _, _, hl, hr, hc
  | .date _, _, hl, hr, hc
  | .timestamp _, _, hl, hr, hc
  | .regEx _ _, _, hl, hr, hc
  | .dbRef _ _, _, hl, hr, hc
  | .code _, _, hl, hr, hc => codes_scalar hl hr hc rfl
theorem codes_fields : ∀ l r : List (Bytes × Value), fieldsStorable l → fieldsStorable r →
    Codes (woCompare compareAsUnsigned (keptFields l) (keptFields r)) (fieldsBytes l)
      (fieldsBytes r)
  | [], [], _, _ => rfl
  | [], (rn, r) :: rs, _, _ => Ordered.codes (o := .lt) (below_fields rn r rs)
  | (ln, l) :: ls, [], _, _ => Ordered.codes (o := .gt) (below_fields ln l ls)
  | (ln, l) :: ls, (rn, r) :: rs, hl, hr => by
    simp only [fieldsStorable, Bool.and_eq_true] at hl hr
    simp only [keptFields, woCompare_cons, canonicalType_kept, fieldsBytes_cons,
      Ordering.then_assoc]
    refine (ordered_generic l r).then fun hc => ?_
    refine (ordered_cstring (cstring_iff.mp hl.1.1) (cstring_iff.mp hr.1.1)).then fun _ => ?_
    exact (codes_value l r hl.1.2 hr.1.2 (compare_eq_iff_eq.mp hc)).then
      (fun _ => codes_fields ls rs hl.2 hr.2) (stops_fields ls) (stops_fields rs)
theorem codes_elements : ∀ (i : Nat) (l r : List (Bytes × Value)), fieldsStorable l →
    fieldsStorable r →
    Codes (woCompare compareAsUnsigned (keptElements i l) (keptElements i r)) (elementsBytes l)
      (elementsBytes r)
  | _, [], [], _, _ => rfl
  | _, [], (_, r) :: rs, _, _ => Ordered.codes (o := .lt) (below_elements r rs)
  | _, (_, l) :: ls, [], _, _ => Ordered.codes (o := .gt) (below_elements l ls)
  | i, (_, l) :: ls, (_, r) :: rs, hl, hr => by
    simp only [fieldsStorable, Bool.and_eq_true] at hl hr
    -- the names of the two elements are the same position
    have hname : strcmp (numStr i) (numStr i) = .eq := lex_self _
    rw [keptElements, keptElements, woCompare, hname]
    exact (codes_element (codes_value l r hl.1.2 hr.1.2)).then
      (fun _ => codes_elements (i + 1) ls rs hl.2 hr.2) (stops_elements ls) (stops_elements rs)
end

section Keys
variable {ord : KeyOrdering}

/-- The bytes of the fields from number `i` on, each inverted if its field is descending. -/
def keyBytes (ord : KeyOrdering) : Nat → Obj → Bytes
  | _, [] => [kEnd]
  | i, (_, v) :: rest => flipIf (ord.inverts i) (valueBytes v) ++ keyBytes ord (i + 1) rest

/-- The type bits of the fields, one after the other. -/
def keyBits : Obj → List Bool
  | [] => []
  | (_, v) :: rest => (appendBsonValue v false).bits ++ keyBits rest

theorem appendAllElementsForIndexing_eq (i : Nat) (fields : Obj)
    (h : ∀ f ∈ fields, f.1 = []) :
    appendAllElementsForIndexing ord .inclusive i fields =
      some ⟨keyBytes ord i fields, keyBits fields⟩ := by
  induction fields generalizing i with
  | nil => rfl
  | cons f rest ih =>
    obtain ⟨name, v⟩ := f
    obtain rfl : name = [] := h (name, v) (by simp)
    rw [appendAllElementsForIndexing, ih (i + 1) (List.forall_mem_cons.mp h).2]
    obtain ⟨hbytes, hbits⟩ := inverts_appendBsonValue v (ord.inverts i)
    simp only [Option.map_some, keyBytes, keyBits, valueBytes, ← hbytes, ← hbits]
    rfl

theorem stops_keyBytes (i : Nat) (fields : Obj) :
    Stops (keyBytes ord i fields) ∧ Stops (flip (keyBytes ord i fields)) := by
  cases fields with
  | nil => exact ⟨stops_cons (by decide) _, stops_cons (by decide) _⟩
  | cons f rest =>
    obtain ⟨h1, h2⟩ := stops_value f.2 []
    rw [List.append_nil] at h1 h2
    simp only [keyBytes]
    cases ord.inverts i with
    | false => exact ⟨h1.append _, by simpa using h2.append _⟩
    | true => exact ⟨h2.append _, by simpa using h1.append _⟩

/-- The end of a key comes before a further field of another, descending or not. -/
theorem below_keyBytes (i : Nat) (f : Bytes × Value) (rest : Obj) :
    Below [kEnd] (keyBytes ord i (f :: rest)) := by
  obtain ⟨a, t, h, ha⟩ := head_value f.2
  have hb := ctypeRange_bounds f.2
  have hk : kEnd.toNat = 4 := rfl
  have hc := toNat_complement a
  simp only [keyBytes, h]
  cases ord.inverts i with
  | false => exact below_cons (by omega)
  | true => exact below_cons (by simp only; omega)

/-- Byte order and the order of the keys as they are kept agree from any field on. -/
theorem ordered_keyBytes (i : Nat) (l r : Obj) (hl : i + l.length ≤ 32)
    (hls : fieldsStorable l) (hrs : fieldsStorable r) :
    Ordered (woCompareOrdered compareAsUnsigned ord i (keptFields l) (keptFields r))
      (keyBytes ord i l) (keyBytes ord i r) := by
  induction l generalizing i r with
  | nil =>
    cases r with
    | nil => rfl
    | cons f rs => exact below_keyBytes i f rs
  | cons f ls ih =>
    cases r with
    | nil => exact below_keyBytes i f ls
    | cons g rs =>
      simp only [List.length_cons, fieldsStorable, Bool.and_eq_true] at hl hls hrs
      have hcode : Codes (woCompareElement compareAsUnsigned (kept f.2) (kept g.2))
          (valueBytes f.2) (valueBytes g.2) :=
        codes_element (codes_value f.2 g.2 hls.1.2 hrs.1.2)
      have hrest := ih (i + 1) rs (by omega) hls.2 hrs.2
      have hd : ord.inverts i = ord.descending i := by
        rw [KeyOrdering.inverts, Nat.mod_eq_of_lt (by omega)]
        rfl
      simp only [keyBytes, keptFields, woCompareOrdered, hd]
      cases ord.descending i with
      | false =>
        exact hcode.ordered_append (stops_keyBytes _ _).1 (stops_keyBytes _ _).1 fun _ => hrest
      | true =>
        exact hcode.ordered_flip_append (stops_keyBytes _ _).2 (stops_keyBytes _ _).2
          fun _ => hrest

/-- The order of two keys as a table keeps them. -/
def keptOrder (ord : KeyOrdering) (a b : Obj) : Ordering :=
  woCompareOrdered compareAsUnsigned ord 0 (keptFields a) (keptFields b)

theorem ordered_keyObject (ord : KeyOrdering) (a b : KeyObject) :
    Ordered (keptOrder ord a.fields b.fields) (keyBytes ord 0 a.fields)
      (keyBytes ord 0 b.fields) :=
  ordered_keyBytes 0 a.fields b.fields (by simpa using a.length_le) a.storable b.storable

theorem IndexKey.keptOrder_eq (ord : KeyOrdering) (a b : IndexKey) :
    keptOrder ord a.fields b.fields = woCompareOrdered compareAsUnsigned ord 0 a.fields b.fields := by
  rw [keptOrder, (keptFields_eq_iff _).mpr ⟨a.positional, a.terminated⟩,
    (keptFields_eq_iff _).mpr ⟨b.positional, b.terminated⟩]

theorem compare_eq_lex (a b : KeyString) : KeyString.compare a b = lex a.buffer b.buffer := by
  have key : ∀ u v : Bytes, (lex (u.take (min u.length v.length))
      (v.take (min u.length v.length))).then (compare u.length v.length) = lex u v := by
    intro u
    induction u with
    | nil => intro v; cases v <;> rfl
    | cons a u ih =>
      intro v
      cases v with
      | nil => rfl
      | cons b v =>
        have hlen : compare (a :: u).length (b :: v).length = compare u.length v.length := by
          simp [Nat.compare_eq_ite_lt]
        rw [hlen, List.length_cons, List.length_cons, Nat.succ_min_succ, List.take_succ_cons,
          List.take_succ_cons, lex_cons, Ordering.then_assoc, ih v, lex_cons]
  exact key a.buffer b.buffer

theorem resetToKey_eq (ord : KeyOrdering) (k : KeyObject) :
    resetToKey k.fields ord .inclusive =
      some (ofOutput ⟨keyBytes ord 0 k.fields, keyBits k.fields⟩) := by
  rw [resetToKey, appendAllElementsForIndexing_eq 0 _ k.unnamed]
  rfl

/-- The encodings of two index keys stand in the order of the keys, and are the same bytes
exactly when the keys compare equal. -/
theorem compare_resetToKey (ord : KeyOrdering) (a b : IndexKey) :
    ∃ ka kb, resetToKey a.fields ord .inclusive = some ka ∧
      resetToKey b.fields ord .inclusive = some kb ∧
      KeyString.compare ka kb = woCompareOrdered compareAsUnsigned ord 0 a.fields b.fields ∧
      (ka.buffer = kb.buffer ↔
        woCompareOrdered compareAsUnsigned ord 0 a.fields b.fields = .eq) := by
  have hlex := (ordered_keyObject ord a.toKeyObject b.toKeyObject).lex_eq
  rw [IndexKey.keptOrder_eq ord a b] at hlex
  refine ⟨_, _, resetToKey_eq ord a.toKeyObject, resetToKey_eq ord b.toKeyObject, ?_, ?_⟩
  · rw [compare_eq_lex]
    exact hlex
  · rw [← hlex]
    exact lex_eq_iff.symm

end Keys

end MongolDb.KeyString
