import MongolDb.KeyString.RecordId
import MongolDb.KeyString.TypeBitsBuffer
import MongolDb.Lib.SortedMap

/-! Index entries in WiredTiger tables (wiredtiger_index.cpp). A table is a map from key bytes to
value bytes; `none` stands for a failed invariant. -/
namespace MongolDb.WiredTiger
open ByteOrder Bson KeyString

abbrev Table := SortedMap Bytes Bytes

def TempKeyMaxSize : Nat := 1024

/-- The errors carry what their messages show of the key. -/
inductive Status where
  | ok
  | keyTooLong (size : Nat) (key : Obj)
  | duplicateKey (key : Obj)

def checkKeySize (key : Obj) : Status :=
  if objsize key ≥ TempKeyMaxSize then .keyTooLong (objsize key) key else .ok

/-! Unique indexes: the value under a key lists record ids, each with its type bits. -/

/-- `value.appendRecordId(id)` and then `value.appendTypeBits(typeBits)`. -/
def appendRecord (value : Bytes) (id : RecordId) (typeBits : TypeBits) : Option Bytes :=
  (appendRecordId id).map fun rid => value ++ rid ++ typeBits.getBuffer

/-- The value of the only record under a key, where all-zero type bits are left out. -/
def onlyRecord (id : RecordId) (typeBits : TypeBits) : Option Bytes :=
  (appendRecordId id).map fun rid =>
    if typeBits.isAllZeros then rid else rid ++ typeBits.getBuffer

inductive Copied where
  | alreadyInIndex
  | value (insertedId : Bool) (value : Bytes)
  deriving DecidableEq

/-- The loop of `_insert`: copies the old value with the new id in front of the first higher one. -/
def insertLoop (id : RecordId) (typeBits : TypeBits) : Nat → Bytes → Bool → Bytes → Option Copied
  | _, [], insertedId, value => some (.value insertedId value)
  | 0, _ :: _, _, _ => none
  | fuel + 1, br@(_ :: _), insertedId, value =>
    (decodeRecordId br).bind fun idInIndex =>
      if id = idInIndex.1 then some .alreadyInIndex
      else
        let inserts := !insertedId && decide (id < idInIndex.1)
        (if inserts then appendRecord value id typeBits else some value).bind fun value =>
          (TypeBits.fromBuffer idInIndex.2).bind fun bits =>
            (appendRecord value idInIndex.1 bits.1).bind fun value =>
              insertLoop id typeBits fuel bits.2 (insertedId || inserts) value

/-- An id higher than all that are there goes to the end. -/
def finishInsert (id : RecordId) (typeBits : TypeBits) (insertedId : Bool) (value : Bytes) :
    Option Bytes :=
  if insertedId then some value else appendRecord value id typeBits

inductive Scanned where
  | onlyId
  | records (foundId : Bool) (records : List (RecordId × TypeBits))
  deriving DecidableEq

/-- The loop of `_unindex`: collects the other records, unless the id is the only one. -/
def unindexLoop (id : RecordId) :
    Nat → Bytes → Bool → List (RecordId × TypeBits) → Option Scanned
  | _, [], foundId, records => some (.records foundId records)
  | 0, _ :: _, _, _ => none
  | fuel + 1, br@(_ :: _), foundId, records =>
    (decodeRecordId br).bind fun idInIndex =>
      (TypeBits.fromBuffer idInIndex.2).bind fun bits =>
        if id = idInIndex.1 then
          if records.isEmpty && bits.2.isEmpty then some .onlyId
          else unindexLoop id fuel bits.2 true records
        else unindexLoop id fuel bits.2 foundId (records ++ [(idInIndex.1, bits.1)])

/-- Writes the records one after the other. -/
def appendRecords (value : Bytes) : List (RecordId × TypeBits) → Option Bytes
  | [] => some value
  | (id, typeBits) :: records =>
    (appendRecord value id typeBits).bind fun value => appendRecords value records

/-- The value that lists the records; all-zero type bits are omitted when there is only one. -/
def recordsValue : List (RecordId × TypeBits) → Option Bytes
  | [(id, typeBits)] => onlyRecord id typeBits
  | records => appendRecords [] records

section
variable (ord : KeyOrdering) (table : Table) (key : Obj) (id : RecordId) (dupsAllowed : Bool)

namespace Unique

def insert : Option (Table × Status) :=
  (resetToKey key ord .inclusive).bind fun data =>
    (onlyRecord id data.typeBits).bind fun value =>
      match table.find data.buffer with
      | none => some (table.put data.buffer value, .ok)
      | some old =>
        (insertLoop id data.typeBits old.length old false []).bind fun
          | .alreadyInIndex => some (table, .ok)
          | .value insertedId value =>
            if !dupsAllowed then some (table, .duplicateKey key)
            else (finishInsert id data.typeBits insertedId value).map fun value =>
              (table.put data.buffer value, .ok)

def unindex : Option Table :=
  (resetToKey key ord .inclusive).bind fun data =>
    if !dupsAllowed then some (table.erase data.buffer)
    else
      match table.find data.buffer with
      | none => some table
      | some old =>
        (unindexLoop id old.length old false []).bind fun
          | .onlyId => some (table.erase data.buffer)
          | .records false _ => some table
          | .records true records =>
            if records.isEmpty then none
            else (recordsValue records).map (table.put data.buffer)

def isDupLoop (id : RecordId) : Nat → Bytes → Option Bool
  | _, [] => some true
  | 0, _ :: _ => none
  | fuel + 1, br@(_ :: _) =>
    (decodeRecordId br).bind fun idInIndex =>
      if idInIndex.1 = id then some false
      else (TypeBits.fromBuffer idInIndex.2).bind fun bits => isDupLoop id fuel bits.2

def isDup : Option Bool :=
  (resetToKey key ord .inclusive).bind fun data =>
    match table.find data.buffer with
    | none => some false
    | some value => isDupLoop id value.length value

end Unique

/-! Standard indexes: the record id is part of the key, and the value holds the type bits. -/

namespace Standard

def keyString : Option KeyString :=
  (resetToKey key ord .inclusive).bind fun data =>
    (appendRecordId id).map fun rid => { data with buffer := data.buffer ++ rid }

/-- `WiredTigerIndexStandard::_insert`; an entry that is there already is left as it is. -/
def insert : Option (Table × Status) :=
  (keyString ord key id).map fun data =>
    match table.find data.buffer with
    | none =>
      let value := if data.typeBits.isAllZeros then [] else data.typeBits.getBuffer
      (table.put data.buffer value, .ok)
    | some _ => (table, .ok)

def unindex : Option Table :=
  (keyString ord key id).map fun data => table.erase data.buffer

end Standard

end

/-! The base class, for both. -/

inductive IndexKind where
  | standard
  | unique
  deriving DecidableEq

namespace IndexKind
variable (kind : IndexKind) (ord : KeyOrdering) (table : Table) (key : Obj) (id : RecordId)
  (dupsAllowed : Bool)

/-- The virtual `_insert`; standard indexes always allow duplicates. -/
def insertEntry : Option (Table × Status) :=
  match kind with
  | .standard => if dupsAllowed then Standard.insert ord table key id else none
  | .unique => Unique.insert ord table key id dupsAllowed

/-- The virtual `_unindex`. -/
def unindexEntry : Option Table :=
  match kind with
  | .standard => if dupsAllowed then Standard.unindex ord table key id else none
  | .unique => Unique.unindex ord table key id dupsAllowed

def insert : Option (Table × Status) :=
  if id.isNormal then
    match checkKeySize key with
    | .ok => kind.insertEntry ord table key id dupsAllowed
    | s => some (table, s)
  else none

def unindex : Option Table :=
  if id.isNormal then kind.unindexEntry ord table key id dupsAllowed else none

end IndexKind

end MongolDb.WiredTiger
