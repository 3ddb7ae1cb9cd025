import MongolDb.Lib.ByteLayout

/-! The grammar of BSON documents: the values a buffer can hold and their bytes. -/
namespace MongolDb.Bson
open ByteOrder ByteLayout

/-- `BSONType` (bson/bsontypes.h), without the end of an object. -/
inductive BSONType where
  | minKey
  | numberDouble
  | string
  | object
  | array
  | binData
  | undefined
  | jstOID
  | bool
  | date
  | jstNULL
  | regEx
  | dbRef
  | code
  | symbol
  | codeWScope
  | numberInt
  | bsonTimestamp
  | numberLong
  | numberDecimal
  | maxKey
  deriving DecidableEq

namespace BSONType

/-- The byte that announces an element of the type; `MinKey` is -1. -/
def byte : BSONType → UInt8
  | minKey => 255
  | numberDouble => 1
  | string => 2
  | object => 3
  | array => 4
  | binData => 5
  | undefined => 6
  | jstOID => 7
  | bool => 8
  | date => 9
  | jstNULL => 10
  | regEx => 11
  | dbRef => 12
  | code => 13
  | symbol => 14
  | codeWScope => 15
  | numberInt => 16
  | bsonTimestamp => 17
  | numberLong => 18
  | numberDecimal => 19
  | maxKey => 127

def all : List BSONType :=
  [minKey, numberDouble, string, object, array, binData, undefined, jstOID, bool, date, jstNULL,
    regEx, dbRef, code, symbol, codeWScope, numberInt, bsonTimestamp, numberLong, numberDecimal,
    maxKey]

def ofByte (c : UInt8) : Option BSONType := all.find? fun t => t.byte = c

@[simp] theorem ofByte_byte (t : BSONType) : ofByte t.byte = some t := by
  cases t <;> rfl

theorem byte_of_ofByte {c : UInt8} {t : BSONType} (h : ofByte c = some t) : t.byte = c := by
  simpa using List.find?_some h

theorem byte_ne_zero (t : BSONType) : t.byte ≠ 0 := by
  cases t <;> decide

/-- The size of the values of a type, where they all have the same. -/
def width : BSONType → Option Nat
  | minKey | maxKey | jstNULL | undefined => some 0
  | bool => some 1
  | numberInt => some 4
  | numberDouble | numberLong | bsonTimestamp | date => some 8
  | jstOID => some 12
  | numberDecimal => some 16
  | _ => none

def isText : BSONType → Bool
  | string | code | symbol => true
  | _ => false

def isDocument : BSONType → Bool
  | object | array => true
  | _ => false

end BSONType

/-- A text without a NUL byte, which one byte more ends. -/
structure CString where
  chars : Bytes
  noNul : 0 ∉ chars

def CString.encode (s : CString) : Bytes := s.chars ++ [0]

/-- A value of a fixed size; booleans are 0 or 1. -/
structure Fixed where
  type : BSONType
  bytes : Bytes
  size : type.width = some bytes.length
  isBool : type = .bool → bytes = [0] ∨ bytes = [1]

/-- A value as it stands in a buffer. -/
inductive RawValue where
  | fixed (v : Fixed)
  | text (t : BSONType) (ht : t.isText = true) (s : Bytes)
  | dbRef (ns oid : Bytes) (h : oid.length = 12)
  | regEx (pattern flags : CString)
  | binData (subtype : UInt8) (data : Bytes)
  | codeWScope (code : Bytes) (scope : List (CString × RawValue))
  | document (t : BSONType) (ht : t.isDocument = true) (elems : List (CString × RawValue))

abbrev RawObj := List (CString × RawValue)

def RawValue.type : RawValue → BSONType
  | .fixed v => v.type
  | .text t _ _ => t
  | .dbRef .. => .dbRef
  | .regEx .. => .regEx
  | .binData .. => .binData
  | .codeWScope .. => .codeWScope
  | .document t _ _ => t

/-- A text under its size, which counts the NUL byte at its end. -/
def encodeText (s : Bytes) : Bytes := le 4 (s.length + 1) ++ s ++ [0]

mutual
def RawValue.encode : RawValue → Bytes
  | .fixed v => v.bytes
  | .text _ _ s => encodeText s
  | .dbRef ns oid _ => encodeText ns ++ oid
  | .regEx pattern flags => pattern.encode ++ flags.encode
  | .binData subtype data => le 4 data.length ++ subtype :: data
  | .codeWScope code scope =>
    let elems := encodeElems scope
    le 4 (4 + (encodeText code).length + (elems.length + 5)) ++ encodeText code ++
      (le 4 (elems.length + 5) ++ elems ++ [0])
  | .document _ _ elems =>
    let elems := encodeElems elems
    le 4 (elems.length + 5) ++ elems ++ [0]
def encodeElems : List (CString × RawValue) → Bytes
  | [] => []
  | (name, v) :: elems => (v.type.byte :: name.encode ++ v.encode) ++ encodeElems elems
end

/-- The type, the name and the value of an element. -/
def encodeElement (e : CString × RawValue) : Bytes := e.2.type.byte :: e.1.encode ++ e.2.encode

/-- A document under its size. -/
def encodeDocument (elems : RawObj) : Bytes :=
  le 4 ((encodeElems elems).length + 5) ++ encodeElems elems ++ [0]

mutual
/-- Decimal values are known only where they are enabled. -/
def RawValue.known (decimal : Bool) : RawValue → Bool
  | .fixed v => decimal || v.type ≠ .numberDecimal
  | .codeWScope _ scope => elemsKnown decimal scope
  | .document _ _ elems => elemsKnown decimal elems
  | _ => true
def elemsKnown (decimal : Bool) : List (CString × RawValue) → Bool
  | [] => true
  | (_, v) :: elems => v.known decimal && elemsKnown decimal elems
end

section
variable {decimal : Bool} {xs ys elems : RawObj} {e : CString × RawValue} {code s : Bytes}

theorem encode_document (t : BSONType) (ht : t.isDocument = true) (elems : RawObj) :
    (RawValue.document t ht elems).encode = encodeDocument elems := by
  rw [RawValue.encode, encodeDocument]

theorem encode_codeWScope (code : Bytes) (scope : RawObj) :
    (RawValue.codeWScope code scope).encode =
      le 4 (4 + (encodeText code).length + (encodeDocument scope).length) ++ encodeText code ++
        encodeDocument scope := by
  have hlen : (encodeDocument scope).length = (encodeElems scope).length + 5 := by
    simp [encodeDocument]
    omega
  rw [RawValue.encode, hlen, encodeDocument]

@[simp] theorem encodeElems_nil : encodeElems [] = [] := by rw [encodeElems]

theorem encodeElems_cons : encodeElems (e :: elems) = encodeElement e ++ encodeElems elems := by
  rw [encodeElems, encodeElement]

theorem encodeElems_append : encodeElems (xs ++ ys) = encodeElems xs ++ encodeElems ys := by
  induction xs with
  | nil => simp
  | cons e xs ih => simp only [List.cons_append, encodeElems_cons, ih, List.append_assoc]

theorem elemsKnown_append :
    elemsKnown decimal (xs ++ ys) = (elemsKnown decimal xs && elemsKnown decimal ys) := by
  induction xs with
  | nil => simp [elemsKnown]
  | cons e xs ih => simp [elemsKnown, ih, Bool.and_assoc]

@[simp] theorem length_encodeText (s : Bytes) : (encodeText s).length = s.length + 5 := by
  simp [encodeText]
  omega

@[simp] theorem length_encodeDocument (elems : RawObj) :
    (encodeDocument elems).length = (encodeElems elems).length + 5 := by
  simp [encodeDocument]
  omega

@[simp] theorem length_encodeElement (e : CString × RawValue) :
    (encodeElement e).length = e.1.chars.length + 2 + e.2.encode.length := by
  simp [encodeElement, CString.encode]
  omega

theorem length_element (name : CString) (v : RawValue) :
    (encodeElement (name, v)).length = 1 + name.encode.length + v.encode.length := by
  rw [encodeElement, List.length_append, List.length_cons]
  dsimp only
  omega

theorem at_elems {b : Bytes} {p : Nat} {elems : RawObj} (h : At b p (encodeDocument elems)) :
    At b (p + 4) (encodeElems elems) := by
  rw [encodeDocument, List.append_assoc, at_append, at_append, length_le] at h
  exact h.2.1

theorem at_element {b : Bytes} {p : Nat} {name : CString} {v : RawValue} :
    At b p (encodeElement (name, v)) ↔
      At b p (v.type.byte :: name.encode) ∧ At b (p + 1 + name.encode.length) v.encode := by
  rw [encodeElement, at_append, List.length_cons, Nat.add_comm _ 1, ← Nat.add_assoc]

end

end MongolDb.Bson
