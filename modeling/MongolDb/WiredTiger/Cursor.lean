import MongolDb.WiredTiger.Index

/-! Index cursors (wiredtiger_index.cpp, `WiredTigerIndexCursorBase` and the two classes derived
from it). `none` stands for a failed invariant or assertion. -/
namespace MongolDb.WiredTiger
open ByteOrder Bson KeyString

/-- `search_near`: the key itself if it is there, otherwise a key next to it and its side. Which
side is tried first is WiredTiger's choice. -/
def searchNear (table : Table) (larger : Bool) (key : Bytes) : Option (Bytes × Ordering) :=
  if (table.find key).isSome then some (key, .eq)
  else
    match table.after larger key with
    | some k => some (k, if larger then .gt else .lt)
    | none => (table.after (!larger) key).map fun k => (k, if larger then .lt else .gt)

def hasFieldNames (obj : Obj) : Bool := obj.any fun e => e.1.head?.any (· ≠ 0)

def stripFieldNames (query : Obj) : Obj :=
  if hasFieldNames query then query.map fun e => ([], e.2) else query

/-- What a cursor returns: the key, to be decoded with its type bits, and the record's id. -/
structure IndexKeyEntry where
  key : Bytes
  typeBits : TypeBits
  loc : RecordId
  deriving DecidableEq

structure Cursor where
  kind : IndexKind
  forward : Bool
  /-- Where the WiredTiger cursor stands, if it is positioned. -/
  position : Option Bytes
  key : KeyString
  typeBits : TypeBits
  id : RecordId
  eof : Bool
  cursorAtEof : Bool
  lastMoveWasRestore : Bool
  endPosition : Option KeyString

namespace Cursor

def new (kind : IndexKind) (forward : Bool) : Cursor where
  kind := kind
  forward := forward
  position := none
  key := ⟨[], TypeBits.reset⟩
  typeBits := TypeBits.reset
  id := RecordId.null
  eof := false
  cursorAtEof := false
  lastMoveWasRestore := false
  endPosition := none

variable (table : Table) (c : Cursor)

def curr : Option IndexKeyEntry :=
  if c.eof then none else some ⟨c.key.buffer, c.typeBits, c.id⟩

def pastEnd (forward : Bool) (endPosition : Option KeyString) (key : KeyString) : Bool :=
  match endPosition with
  | none => false
  | some e => decide (KeyString.compare key e = if forward then .gt else .lt)

def atOrPastEndPointAfterSeeking : Bool :=
  c.eof || pastEnd c.forward c.endPosition c.key

def positionAt : Option Bytes → Cursor
  | none => { c with position := none, cursorAtEof := true }
  | some k => { c with position := some k, cursorAtEof := false }

/-- `next` and `prev` start at an end of the table when the cursor is not positioned. -/
def advanceWTCursor : Cursor :=
  c.positionAt (match c.position with
    | some k => table.after c.forward k
    | none => table.first c.forward)

/-- The result tells whether `query` itself was found. -/
def seekWTCursor (larger : Bool) (query : Bytes) (c : Cursor) : Bool × Cursor :=
  match searchNear table larger query with
  | none => (false, c.positionAt none)
  | some (k, cmp) =>
    if cmp = .eq then (true, c.positionAt (some k))
    else if cmp = (if c.forward then .lt else .gt) then
      (false, advanceWTCursor table (c.positionAt (some k)))
    else (false, c.positionAt (some k))

def getValue : Option Bytes := c.position.bind table.find

def updateIdAndTypeBits : Option Cursor :=
  match c.kind with
  | .standard =>
    (decodeRecordIdAtEnd c.key.buffer).bind fun id =>
      (c.getValue table).bind fun item =>
        (TypeBits.fromBuffer item).map fun bits => { c with id := id, typeBits := bits.1 }
  | .unique =>
    (c.getValue table).bind fun item =>
      (decodeRecordId item).bind fun id =>
        (TypeBits.fromBuffer id.2).bind fun bits =>
          -- a second record under the key is fatal
          if bits.2.isEmpty then some { c with id := id.1, typeBits := bits.1 } else none

/-- The first half of `updatePosition` on a positioned cursor. -/
def takeKey (item : Bytes) : Cursor :=
  { c with lastMoveWasRestore := false, eof := false, key := { c.key with buffer := item } }

def updatePosition : Option Cursor :=
  if c.cursorAtEof then
    some { c with lastMoveWasRestore := false, eof := true, id := RecordId.null }
  else
    c.position.bind fun item =>
      if (c.takeKey item).atOrPastEndPointAfterSeeking then
        some { c.takeKey item with eof := true }
      else (c.takeKey item).updateIdAndTypeBits table

def next : Option (Cursor × Option IndexKeyEntry) :=
  if c.eof then some (c, none)
  else
    (updatePosition table (if c.lastMoveWasRestore then c else c.advanceWTCursor table)).map
      fun c => (c, c.curr)

/-- Both overloads of `seek` end here, with the query they have built. -/
def seekQuery (larger : Bool) (query : KeyString) (c : Cursor) :
    Option (Cursor × Option IndexKeyEntry) :=
  (updatePosition table (c.seekWTCursor table larger query.buffer).2).map fun c => (c, c.curr)

def save : Cursor := { c with position := none }

def setLastMoveWasRestore (moved : Bool) (c : Cursor) : Cursor :=
  { c with lastMoveWasRestore := moved }

/-- `restore` of the base class. -/
def restoreBase (larger : Bool) (c : Cursor) : Cursor :=
  if c.eof then c
  else
    let found := c.seekWTCursor table larger c.key.buffer
    found.2.setLastMoveWasRestore (!found.1)

/-- The second half of a unique cursor's `restore`: the id under the key may have changed. -/
def checkId : Option Cursor :=
  if c.lastMoveWasRestore then some c
  else if c.eof then some c
  else
    (c.getValue table).bind fun item =>
      (decodeRecordId item).map fun idInIndex =>
        if idInIndex.1 = c.id then c
        else if (c.forward && decide (idInIndex.1 < c.id)) ||
            (!c.forward && decide (c.id < idInIndex.1)) then
          (c.setLastMoveWasRestore true).advanceWTCursor table
        else c.setLastMoveWasRestore true

def restore (larger : Bool) (c : Cursor) : Option Cursor :=
  match c.kind with
  | .standard => some (c.restoreBase table larger)
  | .unique => (c.restoreBase table larger).checkId table

end Cursor

end MongolDb.WiredTiger
