import MongolDb.Query.IndexBounds

/-! Skipping through an index by its bounds (`IndexBoundsChecker` in query/index_bounds.cpp,
`IndexSeekPoint` in storage/index_entry_comparison.h). -/
namespace MongolDb.Query
open Bson Intervals

/-- Where a value lies, seen from an interval. -/
inductive Location where
  | behind
  | within
  | ahead
  deriving DecidableEq

def intervalCmp (interval : Interval Value) (key : Value) (expectedDirection : Direction) :
    Location :=
  let cmp := key.woCompare interval.start
  if !(cmp = expectedDirection.sign || (cmp = .eq && interval.startInclusive)) then .behind
  else
    let cmp := key.woCompare interval.stop
    if !(cmp = expectedDirection.sign.swap || (cmp = .eq && interval.stopInclusive)) then .ahead
    else .within

/-- One field of the checker: its intervals, its direction and the interval it is in. -/
structure CheckedField where
  intervals : List (Interval Value)
  expectedDirection : Direction
  curInterval : Fin intervals.length

namespace CheckedField

def current (f : CheckedField) : Interval Value := f.intervals.get f.curInterval

def moveTo (f : CheckedField) (i : Fin f.intervals.length) : CheckedField :=
  { f with curInterval := i }

def reset (f : CheckedField) : CheckedField := f.moveTo ⟨0, f.curInterval.pos⟩

end CheckedField

/-- An index key: its values, the field names of stored keys being empty. -/
abbrev IndexKey := List Value

/-- Where to go on: the first `prefixLen` fields of `keyPrefix`, then, unless all keys with these
fields are to be skipped, the values of `keySuffix`, each with whether it is inclusive. What the
vectors hold before the position `prefixLen` is not kept here. -/
structure IndexSeekPoint where
  keyPrefix : IndexKey
  prefixLen : Nat
  prefixExclusive : Bool
  keySuffix : List (Value × Bool)

inductive KeyState where
  | valid
  | mustAdvance (out : IndexSeekPoint)
  | done

namespace IndexBoundsChecker

/-- The constructor, for lists that are not empty. -/
def make (scanDirection : Direction) : List OrderedIntervalList → Obj → Option (List CheckedField)
  | oil :: fields, elt :: pattern =>
    if h : 0 < oil.intervals.length then
      (make scanDirection fields pattern).map fun checked =>
        ⟨oil.intervals, (indexDirection elt).mul scanDirection, ⟨0, h⟩⟩ :: checked
    else none
  | _, _ => some []

def starts (fields : List CheckedField) : List (Value × Bool) :=
  fields.map fun f => (f.current.start, f.current.startInclusive)

def getStartSeekPoint (fields : List CheckedField) : IndexSeekPoint where
  keyPrefix := []
  prefixLen := 0
  prefixExclusive := false
  keySuffix := starts (fields.map CheckedField.reset)

def findLeftmostProblem : List CheckedField → IndexKey → Option (Nat × Location)
  | f :: fields, v :: key =>
    match intervalCmp f.current v f.expectedDirection with
    | .within => (findLeftmostProblem fields key).map fun p => (p.1 + 1, p.2)
    | what => some (0, what)
  | _, _ => none

/-- `spaceLeftToAdvance`, for the first `fieldsToCheck` fields. -/
def spaceLeftToAdvance (fieldsToCheck : Nat) (fields : List CheckedField) (key : IndexKey) : Bool :=
  ((fields.zip key).take fieldsToCheck).any fun fv =>
    fv.1.curInterval.val ≠ fv.1.intervals.length - 1 || !fv.1.current.stopInclusive ||
      fv.2.woCompare fv.1.current.stop = fv.1.expectedDirection.sign.swap

/-- What `findIntervalForField` finds; the server stops if the search does. -/
inductive Found (n : Nat) where
  | within (i : Fin n)
  | behind (i : Fin n)
  | ahead
  | stops

def findIntervalForField (elt : Value) (intervals : List (Interval Value))
    (expectedDirection : Direction) : Found intervals.length :=
  let i := lowerBound (fun interval => intervalCmp interval elt expectedDirection = .ahead) intervals
  if h : i < intervals.length then
    match intervalCmp (intervals.get ⟨i, h⟩) elt expectedDirection with
    | .within => .within ⟨i, h⟩
    | .behind => .behind ⟨i, h⟩
    | .ahead => .stops
  else .ahead

def resetFrom (n : Nat) (fields : List CheckedField) : List CheckedField :=
  fields.take n ++ (fields.drop n).map CheckedField.reset

/-- The loop of `checkKey` that finds intervals for the fields from `firstNonContainedField` on: the
fields to the left of it are within their intervals, the values are those of the other fields. -/
def placeFrom (key : IndexKey) :
    List CheckedField → List CheckedField → IndexKey → Option (KeyState × List CheckedField)
  | left, f :: right, v :: values =>
    match findIntervalForField v f.intervals f.expectedDirection with
    | .within i => placeFrom key (left ++ [f.moveTo i]) right values
    | .behind i =>
      let right := f.moveTo i :: right.map CheckedField.reset
      some (.mustAdvance ⟨key, left.length, false, starts right⟩, left ++ right)
    | .ahead =>
      if !spaceLeftToAdvance left.length (left ++ f :: right) key then
        some (.done, left ++ f :: right)
      else
        some (.mustAdvance ⟨key, left.length, true, []⟩,
          left ++ (f :: right).map CheckedField.reset)
    | .stops => none
  | left, right, _ => some (.valid, left ++ right)

/-- `checkKey`: the state of the key, and the checker's fields afterwards. -/
def checkKey (fields : List CheckedField) (key : IndexKey) :
    Option (KeyState × List CheckedField) :=
  if fields.length = 0 || key.length ≠ fields.length then none
  else
    match findLeftmostProblem fields key with
    | none => some (.valid, fields)
    | some (firstNonContainedField, .behind) =>
      -- the current interval could be wrong: start over from this field on
      let fields := resetFrom firstNonContainedField fields
      match findLeftmostProblem fields key with
      | none => some (.valid, fields)
      | some (firstNonContainedField, .behind) =>
        some (.mustAdvance ⟨key, firstNonContainedField, false,
          starts (fields.drop firstNonContainedField)⟩, fields)
      | some (firstNonContainedField, _) =>
        placeFrom key (fields.take firstNonContainedField) (fields.drop firstNonContainedField)
          (key.drop firstNonContainedField)
    | some (firstNonContainedField, _) =>
      placeFrom key (fields.take firstNonContainedField) (fields.drop firstNonContainedField)
        (key.drop firstNonContainedField)

end IndexBoundsChecker

/-! Seeking in the index. -/

/-- What a query object's field makes of an equal value: nothing, or it counts as less or greater
(the first byte of its name). -/
inductive BehaviorIfFieldIsEqual where
  | normal
  | less
  | greater
  deriving DecidableEq

namespace IndexEntryComparison

/-- The values of a stored key or of a query object. -/
abbrev QueryObject := List (Value × BehaviorIfFieldIsEqual)

def stored (key : IndexKey) : QueryObject := key.map fun v => (v, .normal)

/-- `IndexEntryComparison::compare` from field `i` on, without record ids. -/
def compare (order : KeyOrdering) : Nat → QueryObject → QueryObject → Ordering
  | _, [], [] => .eq
  | _, [], _ :: _ => .lt
  | i, _ :: _, [] => if order.descending i then .lt else .gt
  | i, (l, lEqBehavior) :: ls, (r, rEqBehavior) :: rs =>
    match l.woCompare r with
    | .eq =>
      match lEqBehavior, rEqBehavior with
      | .normal, .normal => compare order (i + 1) ls rs
      | .less, _ => .lt
      | .greater, _ => .gt
      | .normal, .less => .gt
      | .normal, .greater => .lt
    | cmp => if order.descending i then cmp.swap else cmp

def exclusive (cursorDirection : Direction) : BehaviorIfFieldIsEqual :=
  match cursorDirection with
  | .forward => .greater
  | .backward => .less

/-- The suffix of a query object; nothing after an exclusive field matters. -/
def querySuffix (cursorDirection : Direction) : List (Value × Bool) → QueryObject
  | [] => []
  | (v, true) :: rest => (v, .normal) :: querySuffix cursorDirection rest
  | (v, false) :: _ => [(v, exclusive cursorDirection)]

/-- The prefix of a query object whose last field is exclusive. -/
def exclusivePrefix (cursorDirection : Direction) : IndexKey → QueryObject
  | [] => []
  | [v] => [(v, exclusive cursorDirection)]
  | v :: rest => (v, .normal) :: exclusivePrefix cursorDirection rest

def makeQueryObject (seekPoint : IndexSeekPoint) (cursorDirection : Direction) : QueryObject :=
  let pre := seekPoint.keyPrefix.take seekPoint.prefixLen
  if seekPoint.prefixExclusive then exclusivePrefix cursorDirection pre
  else stored pre ++ querySuffix cursorDirection seekPoint.keySuffix

end IndexEntryComparison

/-! The scan. -/

/-- The keys of an index in the order in which a cursor meets them. -/
def scanOrder (direction : Direction) (keys : List IndexKey) : List IndexKey :=
  match direction with
  | .forward => keys
  | .backward => keys.reverse

/-- A cursor passes over the keys before the query object. -/
def passes (order : KeyOrdering) (direction : Direction) (seekPoint : IndexSeekPoint)
    (key : IndexKey) : Bool :=
  IndexEntryComparison.compare order 0 (IndexEntryComparison.stored key)
    (IndexEntryComparison.makeQueryObject seekPoint direction) = direction.sign.swap

/-- The keys that a cursor meets from the seek point on. -/
def seek (order : KeyOrdering) (direction : Direction) (keys : List IndexKey)
    (seekPoint : IndexSeekPoint) : List IndexKey :=
  (scanOrder direction keys).dropWhile (passes order direction seekPoint)

/-- The scan from the key on which the cursor stands, as far as `fuel` steps go: the keys it
returns. -/
def scanFrom (order : KeyOrdering) (direction : Direction) (keys : List IndexKey) :
    Nat → List IndexKey → List CheckedField → Option (List IndexKey)
  | 0, _, _ => none
  | _ + 1, [], _ => some []
  | fuel + 1, key :: rest, fields =>
    match IndexBoundsChecker.checkKey fields key with
    | none => none
    | some (.valid, fields) => (scanFrom order direction keys fuel rest fields).map (key :: ·)
    | some (.mustAdvance out, fields) =>
      scanFrom order direction keys fuel (seek order direction keys out) fields
    | some (.done, _) => some []

/-- The scan with bounds, in an index with this key pattern. -/
def scan (fuel : Nat) (bounds : IndexBounds) (keyPattern : Obj) (direction : Direction)
    (keys : List IndexKey) : Option (List IndexKey) :=
  match KeyOrdering.make keyPattern, IndexBoundsChecker.make direction bounds.fields keyPattern with
  | some order, some fields =>
    scanFrom order direction keys fuel
      (seek order direction keys (IndexBoundsChecker.getStartSeekPoint fields)) fields
  | _, _ => none

end MongolDb.Query
