import MongolDb.KeyString.Encode

/-! The KeyString decoder (key_string.cpp, decoding code). Every reader returns `none` where the
source fails an invariant or reads beyond the end of the buffer. -/
namespace MongolDb.KeyString
open ByteOrder Bson

/-! Reading bytes. -/

variable (inverted : Bool) (bytes : Bytes)

def readByte : Bytes → Option (UInt8 × Bytes)
  | [] => none
  | b :: rest => some (if inverted then ~~~b else b, rest)

def readBytes (n : Nat) (inverted : Bool) (bytes : Bytes) : Option (Bytes × Bytes) :=
  if n ≤ bytes.length then some (flipIf inverted (bytes.take n), bytes.drop n) else none

/-- The bytes up to the first `terminator`, which is skipped. -/
def readUntil (terminator : UInt8) : Bytes → Option (Bytes × Bytes)
  | [] => none
  | b :: rest =>
    if b = terminator then some ([], rest)
    else (readUntil terminator rest).map fun (s, rest) => (b :: s, rest)

def readCString : Option (Bytes × Bytes) := readUntil 0 bytes

def readInvertedCString : Option (Bytes × Bytes) :=
  (readUntil 0xff bytes).map fun (s, rest) => (flip s, rest)

/-- The loop of `readCStringWithNuls`: each `FF` in front stands for a NUL just read. -/
def readCStringWithNulsLoop : Nat → Bytes → Bytes → Option (Bytes × Bytes)
  | 0, _, _ => none
  | _ + 1, _, [] => none
  | fuel + 1, scratch, b :: rest =>
    if b = 0xff then
      (readCString rest).bind fun (nextPart, rest) =>
        readCStringWithNulsLoop fuel (scratch ++ [0] ++ nextPart) rest
    else some (scratch, b :: rest)

def readCStringWithNuls : Option (Bytes × Bytes) :=
  (readCString bytes).bind fun (initial, rest) =>
    readCStringWithNulsLoop (bytes.length + 1) initial rest

/-- The loop of `readInvertedCStringWithNuls`. Whether this is the first pass is read off `out`,
which is still empty on the second pass over a string that starts with a NUL. -/
def readInvertedCStringWithNulsLoop : Nat → Bytes → Bytes → Option (Bytes × Bytes)
  | 0, _, _ => none
  | fuel + 1, out, bytes =>
    let out' := if out.isEmpty then out else out ++ [0xff]
    let bytes' := if out.isEmpty then bytes else bytes.drop 1
    (readUntil 0xff bytes').bind fun (part, rest) =>
      match rest with
      | [] => none
      | b :: _ =>
        if b = 0 then readInvertedCStringWithNulsLoop fuel (out' ++ part) rest
        else some (flip (out' ++ part), rest)

def readInvertedCStringWithNuls : Option (Bytes × Bytes) :=
  readInvertedCStringWithNulsLoop (bytes.length + 1) [] bytes

def readText : Option (Bytes × Bytes) :=
  if inverted then readInvertedCStringWithNuls bytes else readCStringWithNuls bytes

def readName : Option (Bytes × Bytes) :=
  if inverted then readInvertedCString bytes else readCString bytes

def readOID : Option (OID × Bytes) :=
  (readBytes 12 inverted bytes).bind fun (b, rest) =>
    if h : b.length = 12 then some (⟨b, h⟩, rest) else none

/-! Reading values. -/

/-- What is left of the buffer and of the type bits. -/
structure Input where
  bytes : Bytes
  typeBits : TypeBits.Reader

/-- `std::numeric_limits<double>::quiet_NaN()`. -/
def quietNaN : Binary64 := .ofWord 0x7ff8000000000000

/-- The loop that folds the bytes of a fraction into a double under construction. -/
def foldFraction : Nat → Bytes → Nat
  | doubleBits, [] => doubleBits
  | doubleBits, b :: rest => foldFraction (doubleBits ||| (b.toNat <<< (8 * rest.length))) rest

def toBsonStringLike (input : Input) : Option (Value × Input) :=
  let (originalType, typeBits) := TypeBits.readStringLike input.typeBits
  (readText inverted input.bytes).map fun (s, rest) =>
    (if originalType = TypeBits.kString then .string s else .symbol s, ⟨rest, typeBits⟩)

def toBsonBinData : Option (Value × Bytes) := do
  let (size, rest) ← readByte inverted bytes
  let (size, rest) ← if size = 0xff then
      (readBytes 4 inverted rest).map fun (b, rest) => (ofBe b, rest)
    else some (size.toNat, rest)
  let (subType, rest) ← readByte inverted rest
  let (data, rest) ← readBytes size inverted rest
  some (.binData subType data, rest)

def toBsonRegEx : Option (Value × Bytes) := do
  let (pattern, rest) ← readName inverted bytes
  let (flags, rest) ← readName inverted rest
  some (.regEx pattern flags, rest)

def toBsonDBRef : Option (Value × Bytes) := do
  let (size, rest) ← readBytes 4 inverted bytes
  let (ns, rest) ← readBytes (ofBe size) inverted rest
  let (oid, rest) ← readOID inverted rest
  some (.dbRef ns oid, rest)

/-- The raw bits of a double, sign included, or the least long. -/
def toBsonRawDouble (input : Input) : Option (Value × Input) :=
  let (originalType, typeBits) := TypeBits.readNumeric input.typeBits
  (readBytes 8 inverted input.bytes).bind fun (b, rest) =>
    let d := Binary64.ofWord (ofBe b)
    if originalType = TypeBits.kDouble then some (.numberDouble d, ⟨rest, typeBits⟩)
    else if originalType = TypeBits.kLong ∧ d.eq (Binary64.ofInt (-2 ^ 63)) then
      some (.numberLong (Int64.ofInt (-2 ^ 63)), ⟨rest, typeBits⟩)
    else none

def toBsonZero (input : Input) : Value × Input :=
  let (originalType, typeBits) := TypeBits.readNumeric input.typeBits
  (if originalType = TypeBits.kDouble then .numberDouble (Binary64.ofNat 0)
    else if originalType = TypeBits.kInt then .numberInt 0
    else if originalType = TypeBits.kLong then .numberLong 0
    else .numberDouble (Binary64.ofNat 0).neg, ⟨input.bytes, typeBits⟩)

/-- A number with an integer part in the given count of bytes. A fraction needs an integer part
of at most 53 bits; beyond that the source's shift count wraps around. -/
def toBsonInteger (numBytes : Nat) (isNegative inverted : Bool) (input : Input) :
    Option (Value × Input) :=
  let (originalType, typeBits) := TypeBits.readNumeric input.typeBits
  (readBytes numBytes inverted input.bytes).bind fun (b, rest) =>
    let encodedIntegerPart := ofBe b
    let integerPart := encodedIntegerPart / 2
    if encodedIntegerPart % 2 = 0 then
      let signed : Int := if isNegative then -integerPart else integerPart
      if originalType = TypeBits.kDouble then
        some (.numberDouble (Binary64.ofInt signed), ⟨rest, typeBits⟩)
      else if originalType = TypeBits.kInt then
        some (.numberInt (Int32.ofInt signed), ⟨rest, typeBits⟩)
      else if originalType = TypeBits.kLong then
        some (.numberLong (Int64.ofInt signed), ⟨rest, typeBits⟩)
      else none
    else if originalType = TypeBits.kDouble ∧ integerPart.size ≤ 53 then
      let exponent := integerPart.size - 1
      let fractionalBits := 52 - exponent
      let fractionalBytes := (fractionalBits + 7) / 8
      let doubleBits := (integerPart <<< fractionalBits) &&& (2 ^ 64 - 1 - 2 ^ 52)
      let doubleBits := doubleBits ||| ((exponent + 1023) <<< 52)
      let doubleBits := if isNegative then doubleBits ||| (1 <<< 63) else doubleBits
      (readBytes fractionalBytes inverted rest).map fun (fraction, rest) =>
        (.numberDouble (.ofWord (foldFraction doubleBits fraction)), ⟨rest, typeBits⟩)
    else none

/-- The types that hold no other document. -/
def toBsonScalar (ctype : UInt8) (inverted : Bool) (input : Input) : Option (Value × Input) :=
  let plain := Option.map fun (v, rest) => ((v, ⟨rest, input.typeBits⟩) : Value × Input)
  if ctype = CType.kMinKey then some (.minKey, input)
  else if ctype = CType.kMaxKey then some (.maxKey, input)
  else if ctype = CType.kNullish then some (.null, input)
  else if ctype = CType.kUndefined then some (.undefined, input)
  else if ctype = CType.kBoolTrue then some (.bool true, input)
  else if ctype = CType.kBoolFalse then some (.bool false, input)
  else if ctype = CType.kDate then
    plain ((readBytes 8 inverted input.bytes).map fun (b, rest) =>
      (.date ((UInt64.ofNat (ofBe b) ^^^ ((1 : UInt64) <<< 63)).toInt64), rest))
  else if ctype = CType.kTimestamp then
    plain ((readBytes 8 inverted input.bytes).map fun (b, rest) =>
      (.timestamp (UInt64.ofNat (ofBe b)), rest))
  else if ctype = CType.kOID then
    plain ((readOID inverted input.bytes).map fun (o, rest) => (.oid o, rest))
  else if ctype = CType.kStringLike then toBsonStringLike inverted input
  else if ctype = CType.kCode then
    plain ((readText inverted input.bytes).map fun (s, rest) => (.code s, rest))
  else if ctype = CType.kBinData then plain (toBsonBinData inverted input.bytes)
  else if ctype = CType.kRegEx then plain (toBsonRegEx inverted input.bytes)
  else if ctype = CType.kDBRef then plain (toBsonDBRef inverted input.bytes)
  else if ctype = CType.kNumericNaN then
    let (originalType, typeBits) := TypeBits.readNumeric input.typeBits
    if originalType = TypeBits.kDouble then
      some (.numberDouble quietNaN, ⟨input.bytes, typeBits⟩)
    else none
  else if ctype = CType.kNumericZero then some (toBsonZero input)
  else if ctype = CType.kNumericNegativeLargeDouble ∨
      ctype = CType.kNumericNegativeSmallDouble then
    toBsonRawDouble (!inverted) input
  else if ctype = CType.kNumericPositiveLargeDouble ∨
      ctype = CType.kNumericPositiveSmallDouble then
    toBsonRawDouble inverted input
  else if CType.kNumericNegative8ByteInt ≤ ctype ∧ ctype ≤ CType.kNumericNegative1ByteInt then
    toBsonInteger (CType.numBytesForInt ctype) true (!inverted) input
  else if CType.kNumericPositive1ByteInt ≤ ctype ∧ ctype ≤ CType.kNumericPositive8ByteInt then
    toBsonInteger (CType.numBytesForInt ctype) false inverted input
  else none

mutual
/-- One value after its type byte. The first argument bounds the depth of the recursion; the
length of the buffer is enough. -/
def toBsonValue : Nat → UInt8 → Bool → Input → Option (Value × Input)
  | 0, _, _, _ => none
  | fuel + 1, ctype, inverted, input =>
    if ctype = CType.kCodeWithScope then
      (readText inverted input.bytes).bind fun (code, rest) =>
        (toBsonFields fuel inverted ⟨rest, input.typeBits⟩).map fun (scope, input) =>
          (.codeWScope code scope, input)
    else if ctype = CType.kObject then
      (toBsonFields fuel inverted input).map fun (fields, input) => (.object fields, input)
    else if ctype = CType.kArray then
      (toBsonArray fuel 0 inverted input).map fun (fields, input) => (.array fields, input)
    else toBsonScalar ctype inverted input
/-- Named fields up to a zero byte. The type byte in front of a name is only tested for zero. -/
def toBsonFields : Nat → Bool → Input → Option (List (Bytes × Value) × Input)
  | 0, _, _ => none
  | fuel + 1, inverted, input =>
    (readByte inverted input.bytes).bind fun (b, rest) =>
      if b = 0 then some ([], ⟨rest, input.typeBits⟩)
      else
        (readName inverted rest).bind fun (name, rest) =>
          (readByte inverted rest).bind fun (ctype, rest) =>
            (toBsonValue fuel ctype inverted ⟨rest, input.typeBits⟩).bind fun (v, input) =>
              (toBsonFields fuel inverted input).map fun (fields, input) =>
                ((name, v) :: fields, input)
/-- The elements of an array from number `index` on, up to a zero byte. -/
def toBsonArray : Nat → Nat → Bool → Input → Option (List (Bytes × Value) × Input)
  | 0, _, _, _ => none
  | fuel + 1, index, inverted, input =>
    (readByte inverted input.bytes).bind fun (elemType, rest) =>
      if elemType = 0 then some ([], ⟨rest, input.typeBits⟩)
      else
        (toBsonValue fuel elemType inverted ⟨rest, input.typeBits⟩).bind fun (v, input) =>
          (toBsonArray fuel (index + 1) inverted input).map fun (fields, input) =>
            ((numStr index, v) :: fields, input)
end

/-- The loop of `KeyString::toBson`, from field `i` on. -/
def toBsonFrom : Nat → KeyOrdering → Nat → Input → Option Obj
  | 0, _, _, _ => none
  | fuel + 1, ord, i, input =>
    if input.bytes.isEmpty then some []
    else
      let invert := ord.inverts i
      (readByte invert input.bytes).bind fun (ctype, rest) =>
        (if ctype = kLess ∨ ctype = kGreater then readByte invert rest
          else some (ctype, rest)).bind fun (ctype, rest) =>
          if ctype = kEnd then some []
          else
            (toBsonValue rest.length.succ ctype invert ⟨rest, input.typeBits⟩).bind
              fun (v, input) => (toBsonFrom fuel ord (i + 1) input).map (([], v) :: ·)

def toBson (buffer : Bytes) (ord : KeyOrdering) (typeBits : TypeBits) : Option Obj :=
  toBsonFrom (buffer.length + 1) ord 0 ⟨buffer, ⟨0, typeBits⟩⟩

end MongolDb.KeyString
