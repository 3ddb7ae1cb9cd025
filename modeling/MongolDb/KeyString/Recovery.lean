import MongolDb.KeyString.RoundTrip

/-! The keys that decoding recovers. -/
namespace MongolDb.KeyString
open ByteOrder Bson

/-! Two documents agree up to the payloads of their NaNs when this makes them equal. -/

mutual
def quietValue : Value → Value
  | .numberDouble d => .numberDouble (quieted d)
  | .object fields => .object (quietFields fields)
  | .array fields => .array (quietFields fields)
  | .codeWScope code scope => .codeWScope code (quietFields scope)
  | v => v
def quietFields : List (Bytes × Value) → List (Bytes × Value)
  | [] => []
  | (name, v) :: rest => (name, quietValue v) :: quietFields rest
end

/-! Some string, symbol or code in a value starts with a NUL byte. -/

def leadingNul : Bytes → Bool
  | [] => false
  | c :: _ => decide (c = 0)

mutual
def startsWithNul : Value → Bool
  | .string s | .symbol s | .code s => leadingNul s
  | .codeWScope code scope => leadingNul code || fieldsStartWithNul scope
  | .object fields | .array fields => fieldsStartWithNul fields
  | _ => false
def fieldsStartWithNul : List (Bytes × Value) → Bool
  | [] => false
  | (_, v) :: rest => startsWithNul v || fieldsStartWithNul rest
end

theorem quieted_quieted (d : Binary64) : quieted (quieted d) = quieted d := by
  have hq : quietNaN.isNaN = true := by decide
  by_cases h : d.isNaN
  · simp [quieted, h, hq]
  · simp [quieted, h]

theorem decodedText_eq_iff (inverted : Bool) (s : Bytes) :
    decodedText inverted s = s ↔ (inverted && leadingNul s) = false := by
  cases s with
  | nil => simp [decodedText, leadingNul]
  | cons c s =>
    by_cases hc : c = 0
    · cases inverted with
      | false => simp [decodedText]
      | true => simp [decodedText, leadingNul, hc]
    · simp [decodedText, leadingNul, hc]

mutual
theorem quietValue_decoded (inverted : Bool) : ∀ v : Value,
    quietValue (decoded inverted (kept v)) = quietValue v ↔
      kept v = v ∧ (inverted && startsWithNul v) = false
  | .numberDouble d => by simp [kept, decoded, quietValue, startsWithNul, quieted_quieted]
  | .string s | .symbol s | .code s => by
    simpa [kept, decoded, quietValue, startsWithNul] using decodedText_eq_iff inverted s
  | .codeWScope code scope => by
    have h1 := decodedText_eq_iff inverted code
    have h2 := quietFields_decoded inverted scope
    simp only [kept, decoded, quietValue, startsWithNul, Value.codeWScope.injEq, h1, h2]
    cases inverted <;> simp; tauto
  | .object fields => by
    simpa [kept, decoded, quietValue, startsWithNul] using quietFields_decoded inverted fields
  | .array fields => by
    simpa [kept, decoded, quietValue, startsWithNul] using quietElements_decoded inverted 0 fields
  | .minKey | .maxKey | .undefined | .null | .numberInt _ | .numberLong _ | .binData _ _
  | .oid _ | .bool _ | .date _ | .timestamp _ | .regEx _ _ | .dbRef _ _ => by
    simp [kept, decoded, quietValue, startsWithNul]
theorem quietFields_decoded (inverted : Bool) : ∀ fields : List (Bytes × Value),
    quietFields (decodedFields inverted (keptFields fields)) = quietFields fields ↔
      keptFields fields = fields ∧ (inverted && fieldsStartWithNul fields) = false
  | [] => by simp [keptFields, decodedFields, fieldsStartWithNul]
  | (name, v) :: rest => by
    have h1 := quietValue_decoded inverted v
    have h2 := quietFields_decoded inverted rest
    simp only [keptFields, decodedFields, quietFields, fieldsStartWithNul, List.cons.injEq,
      Prod.mk.injEq, true_and, h1, h2]
    cases inverted <;> simp; tauto
theorem quietElements_decoded (inverted : Bool) : ∀ (i : Nat) (fields : List (Bytes × Value)),
    quietFields (decodedFields inverted (keptElements i fields)) = quietFields fields ↔
      keptElements i fields = fields ∧ (inverted && fieldsStartWithNul fields) = false
  | _, [] => by simp [keptElements, decodedFields, fieldsStartWithNul]
  | i, (name, v) :: rest => by
    have h1 := quietValue_decoded inverted v
    have h2 := quietElements_decoded inverted (i + 1) rest
    simp only [keptElements, decodedFields, quietFields, fieldsStartWithNul, List.cons.injEq,
      Prod.mk.injEq, h1, h2]
    cases inverted <;> simp; tauto
end

/-! How many type bits a key has: one for a text, two for a number, wherever they are nested. A key
below the size limit has few. -/

mutual
def typeBitCount : Value → Nat
  | .string _ | .symbol _ => 1
  | .numberDouble _ | .numberInt _ | .numberLong _ => 2
  | .object fields | .array fields | .codeWScope _ fields => fieldsTypeBitCount fields
  | _ => 0
def fieldsTypeBitCount : List (Bytes × Value) → Nat
  | [] => 0
  | (_, v) :: rest => typeBitCount v + fieldsTypeBitCount rest
end

mutual
theorem length_bits_value : ∀ v : Value,
    (appendBsonValue v false).bits.length = typeBitCount v
  | .numberDouble d => by
    have h : (appendBsonValue (.numberDouble d) false).bits = _ := bits_appendNumberDouble d false
    rw [h]
    split <;> rfl
  | .numberInt _ | .numberLong _ | .string _ | .symbol _ | .code _ => by
    simp [appendBsonValue, appendNumberInt, appendNumberLong, appendString, appendSymbol, appendCode,
      bits_appendInteger, bits_appendStringLike, typeBitCount, TypeBits.kInt, TypeBits.kLong,
      TypeBits.kString, TypeBits.kSymbol]
  | .codeWScope code scope => by
    simp [appendBsonValue, bits_appendStringLike, typeBitCount, length_bits_fields scope]
  | .object fields => by simp [appendBsonValue, typeBitCount, length_bits_fields fields]
  | .array fields => by simp [appendBsonValue, typeBitCount, length_bits_elements fields]
  | .binData t d => by
    by_cases hlen : d.length < 0xff <;> simp [appendBsonValue, appendBinData, hlen, typeBitCount]
  | .minKey | .maxKey | .undefined | .null | .oid _ | .bool _ | .date _ | .timestamp _
  | .regEx _ _ | .dbRef _ _ => rfl
theorem length_bits_fields : ∀ fields : List (Bytes × Value),
    (appendBson fields false).bits.length = fieldsTypeBitCount fields
  | [] => rfl
  | (name, v) :: rest => by
    simp [appendBson, fieldsTypeBitCount, length_bits_value v, length_bits_fields rest]
theorem length_bits_elements : ∀ fields : List (Bytes × Value),
    (appendArray fields false).bits.length = fieldsTypeBitCount fields
  | [] => rfl
  | (name, v) :: rest => by
    simp [appendArray, fieldsTypeBitCount, length_bits_value v, length_bits_elements rest]
end

mutual
theorem typeBitCount_le : ∀ v : Value, 3 * typeBitCount v ≤ v.valuesize + 2
  | .codeWScope code fields => by
    have h := fieldsTypeBitCount_le fields
    simp only [typeBitCount, Value.valuesize]
    omega
  | .object fields | .array fields => by
    have h := fieldsTypeBitCount_le fields
    simp only [typeBitCount, Value.valuesize]
    omega
  | .numberDouble _ | .numberInt _ | .numberLong _ | .string _ | .symbol _ => by
    simp [typeBitCount, Value.valuesize]
  | .code _ | .binData _ _ | .minKey | .maxKey | .undefined | .null | .oid _ | .bool _ | .date _
  | .timestamp _ | .regEx _ _ | .dbRef _ _ => Nat.zero_le _
theorem fieldsTypeBitCount_le : ∀ fields : List (Bytes × Value),
    3 * fieldsTypeBitCount fields ≤ fieldsSize fields
  | [] => Nat.zero_le _
  | (name, v) :: rest => by
    have h1 := typeBitCount_le v
    have h2 := fieldsTypeBitCount_le rest
    simp only [fieldsTypeBitCount, fieldsSize]
    omega
end

theorem length_keyBits (fields : Obj) : (keyBits fields).length = fieldsTypeBitCount fields := by
  induction fields with
  | nil => rfl
  | cons f rest ih =>
    simp only [keyBits, List.length_append, fieldsTypeBitCount, length_bits_value, ih]

theorem keyBits_le (fields : Obj) : 3 * (keyBits fields).length ≤ fieldsSize fields := by
  rw [length_keyBits]
  exact fieldsTypeBitCount_le fields

section

variable {ord : KeyOrdering}

/-- A pattern has at most 32 fields, and sets no bit beyond its own. -/
theorem makeFrom_spec {pattern : Obj} {n : Nat} {b : BitVec 32}
    (h : KeyOrdering.makeFrom n b pattern = some ord) (hn : n ≤ 32) : n + pattern.length ≤ 32 ∧
      ∀ i, n + pattern.length ≤ i → ord.bits.getLsbD i = b.getLsbD i := by
  induction pattern generalizing n b with
  | nil =>
    obtain rfl : (⟨b⟩ : KeyOrdering) = ord := Option.some.inj h
    exact ⟨hn, fun _ _ => rfl⟩
  | cons f rest ih =>
    rw [KeyOrdering.makeFrom] at h
    by_cases hle : n ≤ 31
    · rw [if_pos hle] at h
      obtain ⟨h1, h2⟩ := ih h (by omega)
      rw [List.length_cons]
      refine ⟨by omega, fun i hi => ?_⟩
      rw [h2 i (by omega)]
      split
      · have : ¬ (i - n = 0) := by omega
        simp [BitVec.getLsbD_or, BitVec.getLsbD_shiftLeft, BitVec.getLsbD_one, this]
      · rfl
    · rw [if_neg hle] at h
      cases h

theorem make_spec {pattern : Obj} (h : KeyOrdering.make pattern = some ord) : pattern.length ≤ 32 ∧
      (ord.inverts pattern.length = true ↔ pattern.length = 32 ∧ ord.inverts 0 = true) := by
  obtain ⟨h1, h2⟩ := makeFrom_spec h (Nat.zero_le _)
  rw [Nat.zero_add] at h1 h2
  refine ⟨h1, ?_⟩
  rcases Nat.lt_or_eq_of_le h1 with hlt | heq
  · have hbit := h2 pattern.length le_rfl
    rw [BitVec.getLsbD_zero] at hbit
    rw [KeyOrdering.inverts, Nat.mod_eq_of_lt hlt, hbit]
    simp only [Bool.false_eq_true, false_iff]
    omega
  · rw [heq]
    simp [KeyOrdering.inverts]

end

/-- Encoding and decoding `k` gives its values back, with the types they had. -/
def Recovers (ord : KeyOrdering) (k : KeyObject) : Prop :=
  ∃ ks r, resetToKey k.fields ord .inclusive = some ks ∧
    toBson ks.buffer ord ks.typeBits = some r ∧ quietFields r = quietFields k.fields

theorem length_lt_keyBytes (i : Nat) (fields : Obj) :
    fields.length < (keyBytes ord i fields).length := by
  induction fields generalizing i with
  | nil => exact Nat.zero_lt_one
  | cons f rest ih =>
    obtain ⟨a, t, h, -⟩ := head_value f.2
    have := ih (i + 1)
    simp only [keyBytes, List.length_cons, List.length_append, length_flipIf, h]
    omega

theorem toBson_resetToKey (ord : KeyOrdering) (k : KeyObject) (hsize : objsize k.fields < 1024) :
    toBson (keyBytes ord 0 k.fields) ord (TypeBits.reset.appendBits (keyBits k.fields)) =
      if ord.inverts k.fields.length then none else some (decodedKey ord 0 k.fields) := by
  have hbits := keyBits_le k.fields
  have hmax : TypeBits.kMaxBytesNeeded = 127 := rfl
  have hroom : (keyBits k.fields).length ≤ 8 * TypeBits.kMaxBytesNeeded := by
    unfold objsize at hsize
    omega
  have hfuel : k.fields.length < (keyBytes ord 0 k.fields).length + 1 :=
    Nat.lt_succ_of_lt (length_lt_keyBytes 0 k.fields)
  rw [← Nat.zero_add k.fields.length]
  exact toBsonFrom_keyBytes k.fields k.storable hfuel
    ((TypeBits.holds_appendBits hroom).serves hroom)

theorem quietFields_decodedKey (ord : KeyOrdering) (fields : Obj) (h : ∀ f ∈ fields, f.1 = [])
    (i : Nat) :
    quietFields (decodedKey ord i fields) = quietFields fields ↔ keptFields fields = fields ∧
      ∀ j f, fields[j]? = some f → ord.inverts (i + j) = true → startsWithNul f.2 = false := by
  induction fields generalizing i with
  | nil => simp [decodedKey, keptFields]
  | cons f rest ih =>
    obtain ⟨name, v⟩ := f
    obtain rfl : name = [] := h (name, v) (by simp)
    have hrest := ih (List.forall_mem_cons.mp h).2 (i + 1)
    have hv := quietValue_decoded (ord.inverts i) v
    simp only [decodedKey, quietFields, keptFields, List.cons.injEq, Prod.mk.injEq, true_and, hv,
      hrest, and_assoc]
    constructor
    · rintro ⟨hkept, h0, hkepts, hsucc⟩
      refine ⟨hkept, hkepts, fun j f hj hinv => ?_⟩
      cases j with
      | zero =>
        obtain rfl : ([], v) = f := by simpa using hj
        rw [Nat.add_zero] at hinv
        simpa [hinv] using h0
      | succ j => exact hsucc j f hj (by rwa [show i + 1 + j = i + (j + 1) by omega])
    · rintro ⟨hkept, hkepts, hall⟩
      refine ⟨hkept, ?_, hkepts, fun j f hj hinv => hall (j + 1) f hj ?_⟩
      · cases hinv : ord.inverts i with
        | false => rfl
        | true => exact hall 0 ([], v) rfl hinv
      · rwa [show i + (j + 1) = i + 1 + j by omega]

/-- Decoding gives a key back exactly when the elements of its arrays are named by their positions,
the namespaces of its DBRefs hold no NUL byte, no text in a descending field starts with one, and
the pattern does not both have 32 fields and start with a descending one. -/
theorem recovers_iff {pattern : Obj} {ord : KeyOrdering}
    (hord : KeyOrdering.make pattern = some ord) (k : KeyObject)
    (hlen : k.fields.length = pattern.length) (hsize : objsize k.fields < 1024) :
    Recovers ord k ↔
      fieldsPositional k.fields = true ∧ fieldsTerminated k.fields = true ∧
      (∀ i f, k.fields[i]? = some f → ord.inverts i = true → startsWithNul f.2 = false) ∧
        ¬ (pattern.length = 32 ∧ ord.inverts 0 = true) := by
  have hdec := toBson_resetToKey ord k hsize
  have hkey := quietFields_decodedKey ord k.fields k.unnamed 0
  simp only [Nat.zero_add, keptFields_eq_iff, and_assoc] at hkey
  obtain ⟨-, hend⟩ := make_spec hord
  rw [hlen] at hdec
  rw [← hend, ← and_assoc, ← and_assoc, and_assoc (c := ∀ _ _, _), ← hkey]
  constructor
  · rintro ⟨ks, r, hks, hr, hsame⟩
    obtain rfl := Option.some.inj ((resetToKey_eq ord k).symm.trans hks)
    cases hinv : ord.inverts pattern.length with
    | true =>
      rw [hinv] at hdec
      cases hdec.symm.trans hr
    | false =>
      rw [hinv] at hdec
      obtain rfl : decodedKey ord 0 k.fields = r := Option.some.inj (hdec.symm.trans hr)
      exact ⟨hsame, Bool.false_ne_true⟩
  · rintro ⟨hsame, hinv⟩
    rw [if_neg hinv] at hdec
    exact ⟨_, _, resetToKey_eq ord k, hdec, hsame⟩

def singleKey (v : Value) (h : v.storable = true) : KeyObject where
  fields := [([], v)]
  unnamed := by simp
  storable := by simp [fieldsStorable, cstring, h]
  length_le := by simp

theorem storable_a : (Value.string [97]).storable = true := rfl

/-- The pattern `{a: -1}` and the key `{"": "ab"}`. -/
theorem recovers_descending_string :
    KeyOrdering.make [([97], .numberInt (-1))] = some ⟨1#32⟩ ∧
      Recovers ⟨1#32⟩ (singleKey (.string [97, 98]) rfl) := by
  have hmake : KeyOrdering.make [([97], .numberInt (-1))] = some ⟨1#32⟩ := by decide
  refine ⟨hmake, (recovers_iff hmake _ rfl (by decide)).mpr ⟨rfl, rfl, ?_, fun h => ?_⟩⟩
  · intro i f hf _
    have hi : i < 1 := (List.getElem?_eq_some_iff.mp hf).1
    obtain rfl : i = 0 := by omega
    obtain rfl : (([], .string [97, 98]) : Bytes × Value) = f := Option.some.inj hf
    rfl
  · exact absurd h.1 (by decide)

/-- The pattern `{a: -1}` and the key `{"": "\0"}`: the string comes back as `"\xff"`. -/
theorem not_recovers_descending_nul :
    KeyOrdering.make [([97], .numberInt (-1))] = some ⟨1#32⟩ ∧
      objsize (singleKey (.string [0]) rfl).fields < 1024 ∧
      (resetToKey (singleKey (.string [0]) rfl).fields ⟨1#32⟩ .inclusive).bind
        (fun ks => toBson ks.buffer ⟨1#32⟩ ks.typeBits) = some [([], .string [0xff])] ∧
      ¬ Recovers ⟨1#32⟩ (singleKey (.string [0]) rfl) := by
  have hdec : (resetToKey (singleKey (.string [0]) rfl).fields ⟨1#32⟩ .inclusive).bind
      (fun ks => toBson ks.buffer ⟨1#32⟩ ks.typeBits) = some [([], .string [0xff])] := rfl
  refine ⟨by decide, by decide, hdec, ?_⟩
  rintro ⟨ks, r, hks, hr, hsame⟩
  rw [hks, Option.bind_some, hr] at hdec
  obtain rfl := Option.some.inj hdec
  simp [singleKey, quietFields, quietValue] at hsame

end MongolDb.KeyString
