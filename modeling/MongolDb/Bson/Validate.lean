import MongolDb.Bson.Grammar

/-! The validator of BSON buffers (bson/bson_validate.cpp). The buffer is shorter than 2^31 bytes;
positions in it are numbers that the code's 64 bits hold. -/
namespace MongolDb.Bson
open ByteOrder ByteLayout

/-- How a function ends that does not come to its result. -/
inductive Halt where
  /-- A byte outside the buffer is read. -/
  | outside
  /-- The steps given to a loop are used up. -/
  | outOfFuel
  /-- An exception. -/
  | thrown (code : Nat)
  /-- A status other than OK that `makeError` does not make. -/
  | status (msg : String)
  /-- A call of `makeError`, with the position of the `_id` element if it is known. -/
  | makeError (baseMsg : String) (idElem : Option Nat)
  deriving DecidableEq

namespace Buffer
variable (b : Bytes)

/-- The `n` bytes at a position. -/
def read (n pos : Nat) : Except Halt Bytes :=
  if n = 0 ∨ pos + n ≤ b.length then .ok ((b.drop pos).take n) else .error .outside

def byteAt (pos : Nat) : Except Halt UInt8 :=
  match b[pos]? with
  | some c => .ok c
  | none => .error .outside

/-- `readNumber<int>`; what the caller returns where it fails is `failed`. -/
def readInt (pos : Nat) (failed : Halt) : Except Halt (Int × Nat) :=
  if pos + 4 > b.length then .error failed
  else do
    let u ← read b 4 pos
    return (toInt32 (ofLe u), pos + 4)

/-- `readNumber<char>`, and for the other types of one byte. -/
def readByte (pos : Nat) (failed : Halt) : Except Halt (UInt8 × Nat) :=
  if pos + 1 > b.length then .error failed
  else do
    let c ← byteAt b pos
    return (c, pos + 1)

/-- `readCString`, whose text no caller uses. -/
def readCString (pos : Nat) (idElem : Option Nat) : Except Halt Nat :=
  -- the length that is given to memchr would wrap around
  if pos > b.length then .error .outside
  else
    match strlen b pos with
    | none => .error (.makeError "no end of c-string" idElem)
    | some len => .ok (pos + len + 1)

def skip (sz pos : Nat) (failed : Halt) : Except Halt Nat :=
  if pos + sz < b.length then .ok (pos + sz) else .error failed

def readUTF8String (pos : Nat) (idElem : Option Nat) : Except Halt Nat := do
  let (sz, pos) ← readInt b pos (.makeError "invalid bson" idElem)
  if sz ≤ 0 then .error (.makeError "invalid bson" idElem)
  else do
    let pos ← skip b (sz - 1).toNat pos (.makeError "invalid bson" idElem)
    let (c, pos) ← readByte b pos (.makeError "invalid bson" idElem)
    if c ≠ 0 then .error (.makeError "not null terminated string" idElem) else return pos

end Buffer

inductive ValidationState where
  | beginObj
  | withinObj
  | endObj
  | beginCodeWScope
  | endCodeWScope
  | done
  deriving DecidableEq

open Buffer

section Validator
variable (decimal : Bool) (b : Bytes)

/-- The value of an element of this type at `pos`: the next state and the position after it. -/
def validateValue (type : Option BSONType) (pos : Nat) (nextState : ValidationState)
    (idElem : Option Nat) : Except Halt (ValidationState × Nat) :=
  let invalid : Halt := .makeError "invalid bson" idElem
  match type with
  | some .minKey | some .maxKey | some .jstNULL | some .undefined => return (nextState, pos)
  | some .jstOID => return (nextState, ← skip b 12 pos invalid)
  | some .numberInt => return (nextState, ← skip b 4 pos invalid)
  | some .bool => do
    let (val, pos) ← readByte b pos invalid
    if val ≠ 0 ∧ val ≠ 1 then .error (.makeError "invalid boolean value" idElem)
    else return (nextState, pos)
  | some .numberDouble | some .numberLong | some .bsonTimestamp | some .date =>
    return (nextState, ← skip b 8 pos invalid)
  | some .numberDecimal =>
    if decimal then return (nextState, ← skip b 16 pos (.makeError "Invalid bson" idElem))
    else .error (.status <| "Attempt to use a decimal BSON type when experimental decimal " ++
      "server support is not currently enabled.")
  | some .dbRef => do
    let pos ← readUTF8String b pos idElem
    -- the result of this skip is not checked
    return (nextState, pos + 12)
  | some .regEx => do
    let pos ← readCString b pos idElem
    return (nextState, ← readCString b pos idElem)
  | some .code | some .symbol | some .string => return (nextState, ← readUTF8String b pos idElem)
  | some .binData => do
    let (sz, pos) ← readInt b pos invalid
    if sz < 0 ∨ sz = 2 ^ 31 - 1 then .error (.makeError "invalid size in bson" idElem)
    else return (nextState, ← skip b (1 + sz.toNat) pos invalid)
  | some .codeWScope => return (.beginCodeWScope, pos)
  | some .object | some .array => return (.beginObj, pos)
  | none => .error (.makeError "invalid bson type" idElem)

def validateElementInfo (pos : Nat) (nextState : ValidationState) (idElem : Option Nat) :
    Except Halt (ValidationState × Nat) := do
  let (type, pos) ← readByte b pos (.makeError "invalid bson" idElem)
  if type = 0 then return (.endObj, pos)
  else do
    let pos ← readCString b pos idElem
    validateValue decimal b (BSONType.ofByte type) pos nextState idElem

/-- `ValidationObjectFrame`. -/
structure Frame where
  startPosition : Nat
  isCodeWithScope : Bool
  expectedSize : Int
  deriving DecidableEq

/-- The variables of the loop. The innermost frame comes first; `idElem` is where the `_id` element
is that the buffer and the loop hold. -/
structure Machine where
  frames : List Frame
  state : ValidationState
  position : Nat
  idElemStartPos : Nat
  idElem : Option Nat
  deriving DecidableEq

/-- `strcmp(..) == 0` against a text, byte by byte. -/
def strcmpIsZero (pos : Nat) : Bytes → Except Halt Bool
  | [] => return (← byteAt b pos) = 0
  | c :: cs => do
    if (← byteAt b pos) = c then strcmpIsZero (pos + 1) cs else return false

/-- The text `_id`. -/
def idName : Bytes := [95, 105, 100]

namespace Machine

/-- An `_id` element is validated once the next element of the top level starts. -/
def noteIdElem (m : Machine) : Machine :=
  if m.frames.length = 1 ∧ m.idElemStartPos ≠ 0 then
    { m with idElem := some m.idElemStartPos, idElemStartPos := 0 }
  else m

/-- The element just read may be the `_id` element: its field name is safe to access, since the
object has not ended. -/
def findIdElem (m : Machine) (nextState : ValidationState) : Except Halt Nat :=
  if nextState ≠ .endObj ∧ m.idElem = none ∧ m.frames.length = 1 then do
    return if ← strcmpIsZero b (m.position + 1) idName then m.position else m.idElemStartPos
  else return m.idElemStartPos

def withinObj (m : Machine) : Except Halt Machine := do
  let m := m.noteIdElem
  let (nextState, pos) ← validateElementInfo decimal b m.position .withinObj m.idElem
  let idElemStartPos ← m.findIdElem b nextState
  return { m with state := nextState, position := pos, idElemStartPos }

/-- `curr` starts a frame at the position. -/
def openFrame (m : Machine) (isCodeWithScope : Bool) (expectedSize : Int) (position : Nat) :
    Machine :=
  { m with
    frames := ⟨m.position % 2 ^ 31, isCodeWithScope, expectedSize⟩ :: m.frames
    position }

/-- One round of the loop. -/
def step (m : Machine) : Except Halt Machine :=
  match m.state, m.frames with
  | .beginObj, _ => do
    let (expectedSize, pos) ←
      readInt b m.position (.makeError "bson size is larger than buffer size" m.idElem)
    -- fall through
    withinObj decimal b { m.openFrame false expectedSize pos with state := .withinObj }
  | .withinObj, _ => withinObj decimal b m
  | .endObj, curr :: frames =>
    if toInt32 (m.position - curr.startPosition) ≠ curr.expectedSize then
      .error (.makeError "bson length doesn't match what we found" m.idElem)
    else
      match frames with
      | [] => return { m with frames, state := .done }
      | curr :: _ =>
        return { m with
          frames
          state := if curr.isCodeWithScope then .endCodeWScope else .withinObj }
  | .beginCodeWScope, _ => do
    let (expectedSize, pos) ←
      readInt b m.position (.makeError "invalid bson CodeWScope size" m.idElem)
    let pos ← readUTF8String b pos m.idElem
    return { m.openFrame true expectedSize pos with state := .beginObj }
  | .endCodeWScope, curr :: frames =>
    if toInt32 (m.position - curr.startPosition) ≠ curr.expectedSize then
      .error (.makeError "bson length for CodeWScope doesn't match what we found" m.idElem)
    else
      match frames with
      | [] => .error (.makeError "unnested CodeWScope" m.idElem)
      | _ :: _ => return { m with frames, state := .withinObj }
  | .done, _ => return m
  -- there is no current frame
  | _, [] => .error .outside

end Machine

/-- The loop, for at most so many rounds. -/
def validateBSONIterative : Nat → Machine → Except Halt Unit
  | 0, _ => .error .outOfFuel
  | fuel + 1, m => do
    if m.state = .done then return ()
    else validateBSONIterative fuel (← m.step decimal b)

def Machine.start : Machine := ⟨[], .beginObj, 0, 0, none⟩

/-- `validateBSON`, before errors are put into words. -/
def validateBSON : Except Halt Unit :=
  if b.length < 5 then .error (.status "bson data has to be at least 5 bytes")
  else validateBSONIterative decimal b (2 * b.length + 2) .start

end Validator

end MongolDb.Bson
