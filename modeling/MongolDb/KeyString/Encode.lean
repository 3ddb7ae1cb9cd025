import MongolDb.Bson.Compare
import MongolDb.KeyString.TypeBits

/-! The KeyString encoder (key_string.cpp, append code): bytes that compare as the keys do. -/
namespace MongolDb.KeyString
open ByteOrder Bson

namespace CType

def kMinKey : UInt8 := 10
def kUndefined : UInt8 := 15
def kNullish : UInt8 := 20
def kNumeric : UInt8 := 30
def kStringLike : UInt8 := 60
def kObject : UInt8 := 70
def kArray : UInt8 := 80
def kBinData : UInt8 := 90
def kOID : UInt8 := 100
def kBool : UInt8 := 110
def kDate : UInt8 := 120
def kTimestamp : UInt8 := 130
def kRegEx : UInt8 := 140
def kDBRef : UInt8 := 150
def kCode : UInt8 := 160
def kCodeWithScope : UInt8 := 170
def kMaxKey : UInt8 := 240

/-! Numbers carry part of their value in this byte. -/

def kNumericNaN : UInt8 := kNumeric + 0
def kNumericNegativeLargeDouble : UInt8 := kNumeric + 1
def kNumericNegative8ByteInt : UInt8 := kNumeric + 2
def kNumericNegative1ByteInt : UInt8 := kNumeric + 9
def kNumericNegativeSmallDouble : UInt8 := kNumeric + 10
def kNumericZero : UInt8 := kNumeric + 11
def kNumericPositiveSmallDouble : UInt8 := kNumeric + 12
def kNumericPositive1ByteInt : UInt8 := kNumeric + 13
def kNumericPositive8ByteInt : UInt8 := kNumeric + 20
def kNumericPositiveLargeDouble : UInt8 := kNumeric + 21
def kBoolFalse : UInt8 := kBool + 0
def kBoolTrue : UInt8 := kBool + 1

def numBytesForInt (ctype : UInt8) : Nat :=
  if kNumericPositive1ByteInt ≤ ctype then (ctype - kNumericPositive1ByteInt + 1).toNat
  else (kNumericNegative1ByteInt - ctype + 1).toNat

end CType

/-- The byte in front of a named field, the same for all values of one canonical type. -/
def bsonTypeToGenericKeyStringType : Value → UInt8
  | .minKey => CType.kMinKey
  | .null => CType.kNullish
  | .undefined => CType.kUndefined
  | .numberDouble _ | .numberInt _ | .numberLong _ => CType.kNumeric
  | .string _ | .symbol _ => CType.kStringLike
  | .object _ => CType.kObject
  | .array _ => CType.kArray
  | .binData _ _ => CType.kBinData
  | .oid _ => CType.kOID
  | .bool _ => CType.kBool
  | .date _ => CType.kDate
  | .timestamp _ => CType.kTimestamp
  | .regEx _ _ => CType.kRegEx
  | .dbRef _ _ => CType.kDBRef
  | .code _ => CType.kCode
  | .codeWScope _ _ => CType.kCodeWithScope
  | .maxKey => CType.kMaxKey

def kMinLargeDouble : Binary64 := Binary64.ofNat (2 ^ 63)
def kEnd : UInt8 := 4
def kLess : UInt8 := 1
def kGreater : UInt8 := 254

/-- What one append adds: bytes to the buffer and bits to the type bits. -/
structure Output where
  bytes : Bytes
  bits : List Bool
  deriving DecidableEq

namespace Output

instance : Append Output := ⟨fun a b => ⟨a.bytes ++ b.bytes, a.bits ++ b.bits⟩⟩

@[simp] theorem bytes_append (a b : Output) : (a ++ b).bytes = a.bytes ++ b.bytes := rfl
@[simp] theorem bits_append (a b : Output) : (a ++ b).bits = a.bits ++ b.bits := rfl

end Output

/-! The lowest level. -/

def appendBytes (source : Bytes) (invert : Bool) : Output := ⟨flipIf invert source, []⟩

def appendTypeBits (bits : List Bool) : Output := ⟨[], bits⟩

@[simp] theorem bytes_appendBytes (s : Bytes) (invert : Bool) :
    (appendBytes s invert).bytes = flipIf invert s := rfl
@[simp] theorem bits_appendBytes (s : Bytes) (invert : Bool) :
    (appendBytes s invert).bits = [] := rfl
@[simp] theorem bytes_appendTypeBits (bs : List Bool) : (appendTypeBits bs).bytes = [] := rfl
@[simp] theorem bits_appendTypeBits (bs : List Bool) : (appendTypeBits bs).bits = bs := rfl

/-- One byte at a time: a NUL becomes `00 FF`, and a lone NUL ends the text. -/
def appendStringLike : Bytes → Bool → Output
  | [], invert => appendBytes [0] invert
  | c :: str, invert =>
    if c = 0 then appendBytes [0, 0xff] invert ++ appendStringLike str invert
    else appendBytes [c] invert ++ appendStringLike str invert

def appendSmallDouble (value : Binary64) (invert : Bool) : Output :=
  if (Binary64.ofNat 0).lt value then
    appendBytes [CType.kNumericPositiveSmallDouble] invert ++
      appendBytes (be 8 value.word) invert
  else
    appendBytes [CType.kNumericNegativeSmallDouble] invert ++
      appendBytes (be 8 value.word) (!invert)

def appendLargeDouble (value : Binary64) (invert : Bool) : Output :=
  if (Binary64.ofNat 0).lt value then
    appendBytes [CType.kNumericPositiveLargeDouble] invert ++
      appendBytes (be 8 value.word) invert
  else
    appendBytes [CType.kNumericNegativeLargeDouble] invert ++
      appendBytes (be 8 value.word) (!invert)

def appendPreshiftedIntegerPortion (value : Nat) (isNegative invert : Bool) : Output :=
  let bytesNeeded := (value.size + 7) / 8
  if isNegative then
    appendBytes [CType.kNumericNegative1ByteInt - UInt8.ofNat (bytesNeeded - 1)] invert ++
      appendBytes (be bytesNeeded value) (!invert)
  else
    appendBytes [CType.kNumericPositive1ByteInt + UInt8.ofNat (bytesNeeded - 1)] invert ++
      appendBytes (be bytesNeeded value) invert

def appendInteger (num : Int) (invert : Bool) : Output :=
  -- the least long has no positive counterpart and is encoded as the double it equals
  if num = -2 ^ 63 then appendLargeDouble (Binary64.ofInt num) invert
  else if num = 0 then appendBytes [CType.kNumericZero] invert
  else appendPreshiftedIntegerPortion (num.natAbs * 2) (num < 0) invert

/-! One function for each type of value. -/

def appendBool (val : Bool) (invert : Bool) : Output :=
  appendBytes [if val then CType.kBoolTrue else CType.kBoolFalse] invert

def appendDate (val : Int64) (invert : Bool) : Output :=
  appendBytes [CType.kDate] invert ++
    appendBytes (be 8 (val.toUInt64 ^^^ ((1 : UInt64) <<< 63)).toNat) invert

def appendTimestamp (val : UInt64) (invert : Bool) : Output :=
  appendBytes [CType.kTimestamp] invert ++ appendBytes (be 8 val.toNat) invert

def appendOID (val : OID) (invert : Bool) : Output :=
  appendBytes [CType.kOID] invert ++ appendBytes val.bytes invert

def appendString (val : Bytes) (invert : Bool) : Output :=
  appendTypeBits TypeBits.kString ++ appendBytes [CType.kStringLike] invert ++
    appendStringLike val invert

def appendSymbol (val : Bytes) (invert : Bool) : Output :=
  appendTypeBits TypeBits.kSymbol ++ appendBytes [CType.kStringLike] invert ++
    appendStringLike val invert

def appendCode (val : Bytes) (invert : Bool) : Output :=
  appendBytes [CType.kCode] invert ++ appendStringLike val invert

def appendBinData (subtype : UInt8) (data : Bytes) (invert : Bool) : Output :=
  appendBytes [CType.kBinData] invert ++
    (if data.length < 0xff then appendBytes [UInt8.ofNat data.length] invert
      else appendBytes [0xff] invert ++ appendBytes (be 4 data.length) invert) ++
    appendBytes [subtype] invert ++ appendBytes data invert

def appendRegex (pattern flags : Bytes) (invert : Bool) : Output :=
  appendBytes [CType.kRegEx] invert ++ appendBytes pattern invert ++ appendBytes [0] invert ++
    appendBytes flags invert ++ appendBytes [0] invert

def appendDBRef (ns : Bytes) (oid : OID) (invert : Bool) : Output :=
  appendBytes [CType.kDBRef] invert ++ appendBytes (be 4 ns.length) invert ++
    appendBytes ns invert ++ appendBytes oid.bytes invert

def appendNumberDouble (num : Binary64) (invert : Bool) : Output :=
  let zero := Binary64.ofNat 0
  appendTypeBits (if num.eq zero && num.signbit then TypeBits.kNegativeZero
    else TypeBits.kDouble) ++
  if num.isNaN then appendBytes [CType.kNumericNaN] invert
  else if num.eq zero then appendBytes [CType.kNumericZero] invert
  else
    let isNegative := num.lt zero
    let magnitude := if isNegative then num.neg else num
    if magnitude.lt (Binary64.ofNat 1) then appendSmallDouble num invert
    else if magnitude.lt kMinLargeDouble then
      let integerPart := magnitude.trunc
      if (Binary64.ofNat integerPart).eq magnitude then
        appendPreshiftedIntegerPortion (integerPart * 2) isNegative invert
      else
        let fractionalBits := 53 - integerPart.size
        let fractionalBytes := (fractionalBits + 7) / 8
        appendPreshiftedIntegerPortion (integerPart * 2 + 1) isNegative invert ++
          appendBytes (be fractionalBytes (num.word % 2 ^ fractionalBits))
            (if isNegative then !invert else invert)
    else appendLargeDouble num invert

def appendNumberLong (num : Int64) (invert : Bool) : Output :=
  appendTypeBits TypeBits.kLong ++ appendInteger num.toInt invert

def appendNumberInt (num : Int32) (invert : Bool) : Output :=
  appendTypeBits TypeBits.kInt ++ appendInteger num.toInt invert

/-- The namespace of a DBRef is read as a C string, to its first NUL byte. -/
def dbrefNS (ns : Bytes) : Bytes := ns.takeWhile (· ≠ 0)

mutual
def appendBsonValue : Value → Bool → Output
  | .minKey, invert => appendBytes [CType.kMinKey] invert
  | .maxKey, invert => appendBytes [CType.kMaxKey] invert
  | .undefined, invert => appendBytes [CType.kUndefined] invert
  | .null, invert => appendBytes [CType.kNullish] invert
  | .numberDouble d, invert => appendNumberDouble d invert
  | .string s, invert => appendString s invert
  | .object fields, invert => appendBytes [CType.kObject] invert ++ appendBson fields invert
  | .array fields, invert => appendBytes [CType.kArray] invert ++ appendArray fields invert
  | .binData subtype data, invert => appendBinData subtype data invert
  | .oid o, invert => appendOID o invert
  | .bool b, invert => appendBool b invert
  | .date d, invert => appendDate d invert
  | .regEx pattern flags, invert => appendRegex pattern flags invert
  | .dbRef ns o, invert => appendDBRef (dbrefNS ns) o invert
  | .symbol s, invert => appendSymbol s invert
  | .code s, invert => appendCode s invert
  | .codeWScope code scope, invert =>
    appendBytes [CType.kCodeWithScope] invert ++ appendStringLike code invert ++
      appendBson scope invert
  | .numberInt n, invert => appendNumberInt n invert
  | .timestamp t, invert => appendTimestamp t invert
  | .numberLong n, invert => appendNumberLong n invert
/-- Fields in the order of type, name, value. -/
def appendBson : List (Bytes × Value) → Bool → Output
  | [], invert => appendBytes [0] invert
  | (name, v) :: rest, invert =>
    appendBytes [bsonTypeToGenericKeyStringType v] invert ++
      appendBytes (name ++ [0]) invert ++ appendBsonValue v invert ++ appendBson rest invert
/-- The elements of an array, without their names, and the closing zero. -/
def appendArray : List (Bytes × Value) → Bool → Output
  | [], invert => appendBytes [0] invert
  | (_, v) :: rest, invert => appendBsonValue v invert ++ appendArray rest invert
end

/-- Where a query key stands among the stored keys that start with it. -/
inductive Discriminator where
  | inclusive
  | exclusiveBefore
  | exclusiveAfter
  deriving DecidableEq

def discriminatorByte : Discriminator → Bytes
  | .exclusiveBefore => [kLess]
  | .exclusiveAfter => [kGreater]
  | .inclusive => []

/-- The discriminator that a field name starting with `ch` asks for, `l` or `g`. -/
def discriminatorOfName (ch : UInt8) : Option Discriminator :=
  if ch = 108 then some .exclusiveBefore
  else if ch = 103 then some .exclusiveAfter
  else none

/-- The elements from number `elemIdx` on. `none` stands for a failed invariant: a field name
other than the empty one on a field that is not the last, or with another letter. -/
def appendAllElementsForIndexing (ord : KeyOrdering) (discriminator : Discriminator) :
    Nat → Obj → Option Output
  | _, [] => some (appendBytes (discriminatorByte discriminator) false ++
      appendBytes [kEnd] false)
  | elemIdx, ([], v) :: rest =>
    (appendAllElementsForIndexing ord discriminator (elemIdx + 1) rest).map
      (appendBsonValue v (ord.inverts elemIdx) ++ ·)
  | elemIdx, (ch :: _, v) :: [] =>
    (discriminatorOfName ch).map fun d => appendBsonValue v (ord.inverts elemIdx) ++
      appendBytes (discriminatorByte d) false ++ appendBytes [kEnd] false
  | _, (_ :: _, _) :: _ :: _ => none

end MongolDb.KeyString

namespace MongolDb
open ByteOrder Bson KeyString

/-- The encoded key and the bits that its decoding needs. -/
structure KeyString where
  buffer : Bytes
  typeBits : KeyString.TypeBits
  deriving DecidableEq

namespace KeyString

def ofOutput (o : Output) : KeyString := ⟨o.bytes, TypeBits.reset.appendBits o.bits⟩

def resetToKey (obj : Obj) (ord : KeyOrdering) (discriminator : Discriminator) :
    Option KeyString :=
  (appendAllElementsForIndexing ord discriminator 0 obj).map ofOutput

/-- `memcmp` over the shorter length, then the lengths. -/
protected def compare (a b : KeyString) : Ordering :=
  let m := min a.buffer.length b.buffer.length
  (lex (a.buffer.take m) (b.buffer.take m)).then
    (compare a.buffer.length b.buffer.length)

end KeyString
end MongolDb
