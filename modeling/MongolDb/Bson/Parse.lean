import MongolDb.Bson.Grammar

/-! Documents read back from their bytes, element by element, as `BSONObjIterator` and the accessors
of `BSONElement` walk over them. -/
namespace MongolDb.Bson
open ByteOrder ByteLayout List

def takeBytes (n : Nat) (b : Bytes) : Option (Bytes × Bytes) :=
  if n ≤ b.length then some (b.take n, b.drop n) else none

section
variable (b : Bytes)

theorem zero_notMem_takeWhile : 0 ∉ b.takeWhile (· ≠ 0) := by
  intro h
  have hzero := all_eq_true.mp all_takeWhile 0 h
  simp at hzero

def parseCString : Option (CString × Bytes) :=
  let s : CString := ⟨b.takeWhile (· ≠ 0), zero_notMem_takeWhile b⟩
  if s.chars.length < b.length then some (s, b.drop (s.chars.length + 1)) else none

theorem width_eq_length_take {t : BSONType} {n : Nat} {b : Bytes} (ht : t.width = some n)
    (h : n ≤ b.length) : t.width = some (b.take n).length := by
  rw [ht, length_take, Nat.min_eq_left h]

def parseFixed (t : BSONType) (b : Bytes) : Option (RawValue × Bytes) :=
  match ht : t.width with
  | none => none
  | some n =>
    if h : n ≤ b.length then
      if hb : t = .bool → b.take n = [0] ∨ b.take n = [1] then
        some (.fixed ⟨t, b.take n, width_eq_length_take ht h, hb⟩, b.drop n)
      else none
    else none

def parseText : Option (Bytes × Bytes) := do
  let (size, b) ← takeBytes 4 b
  let (s, b) ← takeBytes (ofLe size - 1) b
  let (_, b) ← takeBytes 1 b
  return (s, b)

/-- The bytes of the elements of a document. -/
def parseFrame : Option (Bytes × Bytes) := do
  let (size, b) ← takeBytes 4 b
  let (elems, b) ← takeBytes (ofLe size - 5) b
  let (_, b) ← takeBytes 1 b
  return (elems, b)

theorem length_eq_of_takeBytes {n : Nat} {b : Bytes} {r : Bytes × Bytes}
    (h : takeBytes n b = some r) : r.1.length = n := by
  rw [takeBytes] at h
  split at h
  next hn =>
    cases h
    rw [length_take, Nat.min_eq_left hn]
  next => cases h

def parseDBRef : Option (RawValue × Bytes) := do
  let (ns, b) ← parseText b
  match h : takeBytes 12 b with
  | none => none
  | some r => return (.dbRef ns r.1 (length_eq_of_takeBytes h), r.2)

def parseRegEx : Option (RawValue × Bytes) := do
  let (pattern, b) ← parseCString b
  let (flags, b) ← parseCString b
  return (.regEx pattern flags, b)

def parseBinData : Option (RawValue × Bytes) := do
  let (size, b) ← takeBytes 4 b
  let (subtype, b) ← takeBytes 1 b
  let (data, b) ← takeBytes (ofLe size) b
  return (.binData (subtype.headD 0) data, b)

end

mutual
def parseValue : Nat → BSONType → Bytes → Option (RawValue × Bytes)
  | 0, _, _ => none
  | fuel + 1, t, b =>
    if ht : t.isText = true then do
      let (s, b) ← parseText b
      return (.text t ht s, b)
    else if ht : t.isDocument = true then do
      let (bytes, b) ← parseFrame b
      let elems ← parseElems fuel bytes
      return (.document t ht elems, b)
    else if t = .dbRef then parseDBRef b
    else if t = .regEx then parseRegEx b
    else if t = .binData then parseBinData b
    else if t = .codeWScope then do
      let (_, b) ← takeBytes 4 b
      let (code, b) ← parseText b
      let (bytes, b) ← parseFrame b
      let scope ← parseElems fuel bytes
      return (.codeWScope code scope, b)
    else parseFixed t b
def parseElems : Nat → Bytes → Option RawObj
  | 0, _ => none
  | _ + 1, [] => some []
  | fuel + 1, c :: b => do
    let t ← BSONType.ofByte c
    let (name, b) ← parseCString b
    let (v, b) ← parseValue fuel t b
    let elems ← parseElems fuel b
    return (name, v) :: elems
end

/-- The document at the start of a buffer, and what follows it. -/
def parseDocument (b : Bytes) : Option (RawObj × Bytes) := do
  let (bytes, rest) ← parseFrame b
  let elems ← parseElems (b.length + 1) bytes
  return (elems, rest)

section RoundTrip
variable {n fuel : Nat} {u s rest : Bytes}

theorem takeBytes_append (h : u.length = n) : takeBytes n (u ++ rest) = some (u, rest) := by
  subst h
  rw [takeBytes, if_pos (by simp), take_left, drop_left]

theorem parseCString_encode (s : CString) (rest : Bytes) :
    parseCString (s.encode ++ rest) = some (s, rest) := by
  obtain ⟨chars, hnul⟩ := s
  have hchars : (chars ++ [0] ++ rest).takeWhile (fun c => decide (c ≠ 0)) = chars := by
    have hall : ∀ c ∈ chars, decide (c ≠ 0) = true := by
      intro c hc
      apply decide_eq_true
      rintro rfl
      exact hnul hc
    rw [append_assoc, takeWhile_append_of_pos hall]
    simp
  have hdrop : (chars ++ [0] ++ rest).drop (chars.length + 1) = rest := by
    have hlen : chars.length + 1 = (chars ++ [0]).length := by simp
    rw [hlen, drop_left]
  simp only [parseCString, CString.encode, hchars, hdrop]
  rw [if_pos (by simp)]

theorem parseText_encode (h : s.length + 1 < 2 ^ 32) :
    parseText (encodeText s ++ rest) = some (s, rest) := by
  have hsize : ofLe (le 4 (s.length + 1)) - 1 = s.length := by
    rw [ofLe_le (by omega)]
    omega
  have hNul : takeBytes 1 (0 :: rest) = some ([0], rest) := takeBytes_append (u := [0]) rfl
  simp only [parseText, encodeText, append_assoc]
  simp [takeBytes_append, hsize, hNul]

theorem parseFrame_encode (h : u.length + 5 < 2 ^ 32) :
    parseFrame (le 4 (u.length + 5) ++ u ++ [0] ++ rest) = some (u, rest) := by
  have hsize : ofLe (le 4 (u.length + 5)) - 5 = u.length := by
    rw [ofLe_le (by omega)]
    omega
  have hNul : takeBytes 1 (0 :: rest) = some ([0], rest) := takeBytes_append (u := [0]) rfl
  simp only [parseFrame, append_assoc]
  simp [takeBytes_append, hsize, hNul]

theorem parseFixed_encode (v : Fixed) : parseFixed v.type (v.bytes ++ rest) = some (.fixed v, rest) := by
  obtain ⟨t, bytes, size, isBool⟩ := v
  unfold parseFixed
  split
  next hnone =>
    rw [hnone] at size
    cases size
  next n hn =>
    obtain rfl : n = bytes.length := Option.some.inj (hn.symm.trans size)
    simpa using isBool

theorem parseDBRef_encode {ns oid : Bytes} (h : oid.length = 12) (hns : ns.length + 1 < 2 ^ 32) :
    parseDBRef (encodeText ns ++ oid ++ rest) = some (.dbRef ns oid h, rest) := by
  have hoid := @takeBytes_append 12 oid rest h
  rw [parseDBRef, append_assoc, parseText_encode hns]
  simp only [Option.bind_eq_bind, Option.bind_some]
  split
  next hnone =>
    rw [hnone] at hoid
    cases hoid
  next r hr =>
    obtain rfl : r = (oid, rest) := Option.some.inj (hr.symm.trans hoid)
    rfl

theorem parseRegEx_encode (pattern flags : CString) :
    parseRegEx (pattern.encode ++ flags.encode ++ rest) = some (.regEx pattern flags, rest) := by
  rw [parseRegEx, append_assoc, parseCString_encode]
  simp [parseCString_encode]

theorem parseBinData_encode (subtype : UInt8) {data : Bytes} (h : data.length < 2 ^ 32) :
    parseBinData (le 4 data.length ++ subtype :: data ++ rest) = some (.binData subtype data, rest) := by
  have hsize : ofLe (le 4 data.length) = data.length := ofLe_le (by omega)
  have hsubtype : takeBytes 1 (subtype :: (data ++ rest)) = some ([subtype], data ++ rest) :=
    takeBytes_append (u := [subtype]) rfl
  simp only [parseBinData, append_assoc, cons_append]
  simp [takeBytes_append, hsize, hsubtype]

/-- A value whose bytes are fewer than the fuel is read back, whatever follows them. -/
def ReadsValues (fuel : Nat) : Prop :=
  ∀ (v : RawValue) (rest : Bytes), v.encode.length < fuel → v.encode.length < 2 ^ 32 →
    parseValue fuel v.type (v.encode ++ rest) = some (v, rest)

def ReadsElems (fuel : Nat) : Prop :=
  ∀ elems : RawObj, (encodeElems elems).length < fuel → (encodeElems elems).length < 2 ^ 32 →
    parseElems fuel (encodeElems elems) = some elems

theorem ReadsElems.succ (hvalues : ReadsValues fuel) (helems : ReadsElems fuel) :
    ReadsElems (fuel + 1) := by
  intro elems hfuel hlen
  cases elems with
  | nil => rw [encodeElems_nil, parseElems]
  | cons e elems =>
    obtain ⟨name, v⟩ := e
    have hsize : (encodeElems ((name, v) :: elems)).length =
        name.chars.length + 2 + v.encode.length + (encodeElems elems).length := by
      rw [encodeElems_cons, length_append, length_encodeElement]
    rw [hsize] at hfuel hlen
    have hv := hvalues v (encodeElems elems) (by omega) (by omega)
    have hrest := helems elems (by omega) (by omega)
    simp only [encodeElems_cons, encodeElement, cons_append, parseElems, append_assoc]
    simp [parseCString_encode, hv, hrest]

theorem ReadsValues.succ (helems : ReadsElems fuel) : ReadsValues (fuel + 1) := by
  intro v rest hfuel hlen
  cases v with
  | fixed v =>
    obtain ⟨t, bytes, size, isBool⟩ := v
    have hfixed := @parseFixed_encode rest ⟨t, bytes, size, isBool⟩
    cases t <;> first
      | cases size
      | exact hfixed
  | text t ht s =>
    rw [RawValue.encode, length_encodeText] at hlen
    rw [RawValue.encode, RawValue.type, parseValue, dif_pos ht, parseText_encode (by omega)]
    rfl
  | dbRef ns oid h =>
    rw [RawValue.encode, length_append, length_encodeText] at hlen
    rw [RawValue.encode]
    exact parseDBRef_encode h (by omega)
  | regEx pattern flags =>
    rw [RawValue.encode]
    exact parseRegEx_encode pattern flags
  | binData subtype data =>
    rw [RawValue.encode, length_append, length_cons] at hlen
    rw [RawValue.encode]
    exact parseBinData_encode subtype (by omega)
  | document t ht elems =>
    rw [encode_document, length_encodeDocument] at hfuel hlen
    have htext : ¬ t.isText = true := by
      revert ht
      cases t <;> decide
    rw [encode_document, RawValue.type, parseValue, dif_neg htext, dif_pos ht, encodeDocument,
      parseFrame_encode (by omega)]
    simp [helems elems (by omega) (by omega)]
  | codeWScope code scope =>
    simp only [encode_codeWScope, length_append, length_le, length_encodeText,
      length_encodeDocument] at hfuel hlen
    have hframe := @parseFrame_encode (encodeElems scope) rest (by omega)
    have hcode := @parseText_encode code (encodeDocument scope ++ rest) (by omega)
    rw [← encodeDocument] at hframe
    rw [encode_codeWScope, RawValue.type, parseValue, dif_neg (by decide), dif_neg (by decide),
      if_neg (by decide), if_neg (by decide), if_neg (by decide), if_pos rfl, append_assoc,
      append_assoc, takeBytes_append (length_le _ _)]
    simp [hcode, hframe, helems scope (by omega) (by omega)]

theorem reads_all (fuel : Nat) : ReadsValues fuel ∧ ReadsElems fuel := by
  induction fuel with
  | zero => exact ⟨fun _ _ h => absurd h (Nat.not_lt_zero _), fun _ h => absurd h (Nat.not_lt_zero _)⟩
  | succ fuel ih => exact ⟨.succ ih.2, .succ ih.1 ih.2⟩

/-- The bytes of a document are read back as the document. -/
theorem parseDocument_encode {elems : RawObj} (h : (encodeDocument elems).length < 2 ^ 32) :
    parseDocument (encodeDocument elems ++ rest) = some (elems, rest) := by
  rw [length_encodeDocument] at h
  have hfuel : (encodeElems elems).length < (encodeDocument elems ++ rest).length + 1 := by
    rw [length_append, length_encodeDocument]
    omega
  have helems := (reads_all _).2 elems hfuel (by omega)
  have hframe := @parseFrame_encode (encodeElems elems) rest (by omega)
  rw [← encodeDocument] at hframe
  rw [parseDocument, hframe]
  simp only [Option.bind_eq_bind, Option.bind_some, helems]
  rfl

end RoundTrip

end MongolDb.Bson
