import MongolDb.Matcher.Path

/-! The keys of a document in an index on one field (index/btree_key_generator.cpp). With one field
there is one path to follow, so arrays are never parallel. -/
namespace MongolDb.Index
open ByteOrder Bson Matcher

/-- `BSONObj::getFieldDottedOrArray`: the element, and the parts of the name that are left. -/
def BSONObj.getFieldDottedOrArray (obj : Obj) : List Bytes → Option Value × List Bytes
  | [] => (getField obj [], [])
  | part :: rest =>
    match getField obj part with
    | none => (none, rest)
    | some (.array elements) => (some (.array elements), rest)
    | some (.object fields) =>
      if rest = [] then (some (.object fields), []) else getFieldDottedOrArray fields rest
    | some v => (if rest = [] then some v else none, rest)

/-- The parts left by the matcher's and by the key generator's walk are the same. -/
theorem getFieldDottedOrArray_eq (obj : Obj) (path : List Bytes) :
    BSONObj.getFieldDottedOrArray obj path = Matcher.getFieldDottedOrArray obj path := by
  induction path generalizing obj with
  | nil => rfl
  | cons part rest ih =>
    simp only [BSONObj.getFieldDottedOrArray, Matcher.getFieldDottedOrArray]
    cases getField obj part with
    | none => rfl
    | some v => cases v <;> simp [ih]

theorem length_rest_lt {obj : Obj} {part : Bytes} {path rest : List Bytes} {e : Option Value}
    (h : BSONObj.getFieldDottedOrArray obj (part :: path) = (e, rest)) :
    rest.length < (part :: path).length := by
  by_cases hr : rest = []
  · simp [hr]
  · rw [getFieldDottedOrArray_eq] at h
    exact length_getFieldDottedOrArray h hr

/-- An element of the array that the path passes through, named by the next part of the path,
and where the rest of the path leads from there. -/
structure PositionalPathInfo (field : List Bytes) where
  positionallyIndexedElt : Value
  arrayObj : Obj
  dottedElt : Option Value
  remainingPath : List Bytes
  remainingPath_lt : remainingPath.length < field.length

/-- The loop over `subPositionalInfo`; nothing where the array is not indexed by position. -/
def PositionalPathInfo.of (arrayObj : Obj) : (field : List Bytes) →
    Option (PositionalPathInfo field)
  | [] => none
  | part :: rest =>
    (getField arrayObj part).map fun elt =>
      { positionallyIndexedElt := elt
        arrayObj := arrayObj
        dottedElt := (BSONObj.getFieldDottedOrArray arrayObj (part :: rest)).1
        remainingPath := (BSONObj.getFieldDottedOrArray arrayObj (part :: rest)).2
        remainingPath_lt := length_rest_lt rfl }

/-- Error 16746, with the field's name and the array. -/
inductive KeyError where
  | ambiguousFieldName (field : Bytes) (arrayObj : Obj)

/-- What `extractNextElement` returns: an element, the path from there, and whether it is an array
that stands directly in another one. -/
structure Extracted (field : List Bytes) where
  elt : Option Value
  rest : List Bytes
  arrayNestedArray : Bool
  rest_lt : elt ≠ none → rest.length < field.length

def isArray : Value → Bool
  | .array _ => true
  | _ => false

def extractNextElement (obj : Obj) : (field : List Bytes) →
    Option (PositionalPathInfo field) → Except KeyError (Extracted field)
  | [], _ => .ok ⟨none, [], false, by simp⟩
  | firstField :: rest, positionalInfo =>
    match (getField obj firstField).isSome, positionalInfo with
    | true, some info => .error (.ambiguousFieldName firstField info.arrayObj)
    | true, none =>
      .ok ⟨(BSONObj.getFieldDottedOrArray obj (firstField :: rest)).1,
        (BSONObj.getFieldDottedOrArray obj (firstField :: rest)).2, false,
        fun _ => length_rest_lt rfl⟩
    | false, some info =>
      .ok ⟨info.dottedElt, info.remainingPath, isArray info.positionallyIndexedElt,
        fun _ => info.remainingPath_lt⟩
    | false, none => .ok ⟨none, firstField :: rest, false, by simp⟩

/-- No array is left to expand: one key, unless the index is sparse and its field is missing. -/
def singleKey (isSparse : Bool) (fixed : Value) (numNotFound : Nat) : List Value :=
  if isSparse && numNotFound = 1 then [] else [fixed]

/-- The object in which the path goes on from an array's element. -/
def embeddedObject : Value → Obj
  | .object fields => fields
  | _ => []

/-- `getKeysImplWithArray` and `_getKeysArrEltFixed` in one: `fixed` is set once the path has come
to its end. -/
def getKeysImplWithArray (isSparse : Bool) (field : List Bytes) (fixed : Value) (obj : Obj)
    (numNotFound : Nat) (positionalInfo : Option (PositionalPathInfo field)) :
    Except KeyError (List Value) :=
  if field = [] then .ok (singleKey isSparse fixed numNotFound)
  else
    match extractNextElement obj field positionalInfo with
    | .error err => .error err
    | .ok next =>
      match h : next.elt with
      | none => .ok (singleKey isSparse .null (numNotFound + 1))
      | some (.array arr) =>
        have : next.rest.length < field.length := next.rest_lt (by simp [h])
        -- `_getKeysArrEltFixed`
        let keysOf (arrEntry : Value) (mayExpand : Bool)
            (positionalInfo : Option (PositionalPathInfo next.rest)) :=
          getKeysImplWithArray isSparse next.rest
            (if next.rest = [] then if mayExpand then arrEntry else .array arr else fixed)
            (embeddedObject arrEntry) numNotFound positionalInfo
        if arr = [] then keysOf .undefined true none
        else
          (arr.mapM fun entry =>
            keysOf entry.2 (!next.arrayNestedArray) (PositionalPathInfo.of arr next.rest)).map
              List.flatten
      | some v => .ok (singleKey isSparse v numNotFound)
termination_by field.length

/-- `BSONObjSet::insert`: keys that compare equal are one key. -/
def insertKey (keys : List Value) (key : Value) : List Value :=
  if keys.any fun k => k.woCompare key = .eq then keys else keys ++ [key]

def idField : Bytes := [95, 105, 100]

/-- `BtreeKeyGenerator::getKeys` over a generator of version 1. The key of the `_id` index is the
value as it is. -/
def getKeys (isSparse : Bool) (field : List Bytes) (obj : Obj) : Except KeyError (List Value) :=
  if field = [idField] then .ok [(getField obj idField).getD .null]
  else
    (getKeysImplWithArray isSparse field .null obj 0 none).map fun keys =>
      if keys = [] ∧ !isSparse then [.null] else keys.foldl insertKey []

end MongolDb.Index
