import MongolDb.Lib.Binary64
import MongolDb.Lib.ByteOrder

/-! BSON documents as the storage layer reads them: typed values under field names. -/
namespace MongolDb.Bson
open ByteOrder

/-- The twelve bytes of an ObjectId. -/
@[ext] structure OID where
  bytes : Bytes
  size : bytes.length = 12
  deriving DecidableEq

/-- One element's value. NumberDecimal is absent: no function modelled here accepts it. -/
inductive Value where
  | minKey
  | undefined
  | null
  | numberDouble (d : Binary64)
  | numberInt (n : Int32)
  | numberLong (n : Int64)
  | string (s : Bytes)
  | symbol (s : Bytes)
  | object (fields : List (Bytes × Value))
  | array (fields : List (Bytes × Value))
  | binData (subtype : UInt8) (data : Bytes)
  | oid (o : OID)
  | bool (b : Bool)
  | date (millis : Int64)
  | timestamp (t : UInt64)
  | regEx (pattern flags : Bytes)
  | dbRef (ns : Bytes) (o : OID)
  | code (s : Bytes)
  | codeWScope (code : Bytes) (scope : List (Bytes × Value))
  | maxKey

/-- A document: field names with their values, in order. -/
abbrev Obj := List (Bytes × Value)

def Value.isNumber : Value → Bool
  | .numberDouble _ | .numberInt _ | .numberLong _ => true
  | _ => false

/-- The bracket in which values of different types are ordered. -/
def Value.canonicalType : Value → Int
  | .minKey => -1
  | .maxKey => 127
  | .undefined => 0
  | .null => 5
  | .numberDouble _ | .numberInt _ | .numberLong _ => 10
  | .string _ | .symbol _ => 15
  | .object _ => 20
  | .array _ => 25
  | .binData _ _ => 30
  | .oid _ => 35
  | .bool _ => 40
  | .date _ => 45
  | .timestamp _ => 47
  | .regEx _ _ => 50
  | .dbRef _ _ => 55
  | .code _ => 60
  | .codeWScope _ _ => 65

/-- The field name of an array's element number `i`. -/
def numStr (i : Nat) : Bytes := (Nat.toDigits 10 i).map fun c => UInt8.ofNat c.toNat

def cstring (s : Bytes) : Bool := s.all (· ≠ 0)

/-! What the format allows: zero-terminated texts hold no NUL byte, and lengths fit a signed 32-bit
field. -/

mutual
def Value.storable : Value → Bool
  | .object fields | .array fields | .codeWScope _ fields => fieldsStorable fields
  | .binData _ data => decide (data.length < 2 ^ 31)
  | .regEx pattern flags => cstring pattern && cstring flags
  | .dbRef ns _ => decide (ns.length < 2 ^ 31)
  | _ => true
def fieldsStorable : List (Bytes × Value) → Bool
  | [] => true
  | (name, v) :: rest => cstring name && v.storable && fieldsStorable rest
end

/-! The elements of every array carry their positions as names. The format does not ask for it. -/

mutual
def Value.positional : Value → Bool
  | .object fields | .codeWScope _ fields => fieldsPositional fields
  | .array fields => elementsPositional 0 fields
  | _ => true
def fieldsPositional : List (Bytes × Value) → Bool
  | [] => true
  | (_, v) :: rest => v.positional && fieldsPositional rest
def elementsPositional : Nat → List (Bytes × Value) → Bool
  | _, [] => true
  | i, (name, v) :: rest =>
    decide (name = numStr i) && v.positional && elementsPositional (i + 1) rest
end

/-! The namespace of every DBRef ends where its length says, not at a NUL byte before that. -/

mutual
def Value.terminated : Value → Bool
  | .object fields | .array fields | .codeWScope _ fields => fieldsTerminated fields
  | .dbRef ns _ => cstring ns
  | _ => true
def fieldsTerminated : List (Bytes × Value) → Bool
  | [] => true
  | (_, v) :: rest => v.terminated && fieldsTerminated rest
end

/-- A document that an index can hold as a key: its fields have empty names, and there are no
more of them than an `Ordering` has bits. -/
structure KeyObject where
  fields : Obj
  unnamed : ∀ f ∈ fields, f.1 = []
  storable : fieldsStorable fields = true
  length_le : fields.length ≤ 32

/-- A key whose arrays and DBRefs are as the drivers write them. -/
structure IndexKey extends KeyObject where
  positional : fieldsPositional fields = true
  terminated : fieldsTerminated fields = true

/-! Sizes in bytes of the serialized form. -/

mutual
def Value.valuesize : Value → Nat
  | .minKey | .undefined | .null | .maxKey => 0
  | .bool _ => 1
  | .numberInt _ => 4
  | .numberDouble _ | .numberLong _ | .date _ | .timestamp _ => 8
  | .oid _ => 12
  | .string s | .symbol s | .code s => 4 + s.length + 1
  | .object fields | .array fields => 4 + fieldsSize fields + 1
  | .binData _ data => 4 + 1 + data.length
  | .regEx pattern flags => pattern.length + 1 + flags.length + 1
  | .dbRef ns _ => 4 + ns.length + 1 + 12
  | .codeWScope code scope => 4 + 4 + code.length + 1 + (4 + fieldsSize scope + 1)
def fieldsSize : List (Bytes × Value) → Nat
  | [] => 0
  | (name, v) :: rest => 1 + name.length + 1 + v.valuesize + fieldsSize rest
end

def objsize (o : Obj) : Nat := 4 + fieldsSize o + 1

end MongolDb.Bson
