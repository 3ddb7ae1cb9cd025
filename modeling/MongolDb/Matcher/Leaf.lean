import MongolDb.Matcher.Path

/-! Predicates over one element of a document (matcher/expression_leaf.cpp, expression_geo.cpp). -/
namespace MongolDb.Bson
open ByteOrder

/-- `BSONElement::type()`; EOO is 0. -/
def Value.type : Value → Int
  | .minKey => -1
  | .numberDouble _ => 1
  | .string _ => 2
  | .object _ => 3
  | .array _ => 4
  | .binData _ _ => 5
  | .undefined => 6
  | .oid _ => 7
  | .bool _ => 8
  | .date _ => 9
  | .null => 10
  | .regEx _ _ => 11
  | .dbRef _ _ => 12
  | .code _ => 13
  | .symbol _ => 14
  | .codeWScope _ _ => 15
  | .numberInt _ => 16
  | .timestamp _ => 17
  | .numberLong _ => 18
  | .maxKey => 127

/-- `std::isnan(e.numberDouble())`; what is no number reads as zero. -/
def Value.isNaN : Value → Bool
  | .numberDouble d => d.isNaN
  | _ => false

/-- The cast of a double to `long long`. Out of range the language leaves it undefined; the
processor yields the least integer. -/
def castToLong (d : Binary64) : Int :=
  if d.isNaN then -2 ^ 63
  else if -2 ^ 63 ≤ d.truncInt ∧ d.truncInt < 2 ^ 63 then d.truncInt
  else -2 ^ 63

/-- `BSONElement::numberLong()`. -/
def Value.asLong : Value → Int
  | .numberDouble d => castToLong d
  | .numberInt n | .numberLong n => n.toInt
  | _ => 0

def Value.isABSONObj : Value → Bool
  | .object _ | .array _ => true
  | _ => false

end MongolDb.Bson

namespace MongolDb.Matcher
open ByteOrder Bson

inductive Comparison where
  | lt
  | lte
  | eq
  | gt
  | gte
  deriving DecidableEq

/-- Does the outcome of comparing an element with the operand satisfy the operator? -/
def Comparison.holds : Comparison → Ordering → Bool
  | .lt, o => o = .lt
  | .lte, o => o ≠ .gt
  | .eq, o => o = .eq
  | .gt, o => o = .gt
  | .gte, o => o ≠ .lt

def Comparison.supportsEquality : Comparison → Bool
  | .lte | .eq | .gte => true
  | .lt | .gt => false

/-- What `_parseComparison` and `ComparisonMatchExpression::init` accept as the operand. -/
def Comparison.accepts (matchType : Comparison) (rhs : Value) : Bool :=
  rhs.type ≠ 6 && (matchType = .eq || rhs.type ≠ 11)

structure ComparisonMatchExpression where
  matchType : Comparison
  path : Bytes
  rhs : Value
  accepted : matchType.accepts rhs = true

/-- EOO and an undefined value have the same canonical type, and no comparison is made between
them: the operand is never undefined. -/
def ComparisonMatchExpression.matchesSingleElement (c : ComparisonMatchExpression)
    (e : Option Value) : Bool :=
  let l := e.getD .undefined
  if l.canonicalType ≠ c.rhs.canonicalType then
    -- jstNULL and undefined are treated the same
    if l.canonicalType + c.rhs.canonicalType = 5 then c.matchType.supportsEquality
    else if c.rhs.type = 127 ∨ c.rhs.type = -1 then c.matchType ≠ .eq
    else false
  else if l.isNaN || c.rhs.isNaN then
    -- NaN is equal to NaN but otherwise always compares to false
    c.matchType.supportsEquality && (l.isNaN && c.rhs.isNaN)
  else c.matchType.holds (compareElementValues compareAsDates l c.rhs)

section Comparisons
variable {c : ComparisonMatchExpression} {l r : Value}

theorem woCompare_of_canonicalType_eq (h : l.canonicalType = r.canonicalType) :
    l.woCompare r = compareElementValues compareAsDates l r := by
  rw [Value.woCompare, woCompareElement_eq, compare_eq_iff_eq.mpr h]
  rfl

/-- Two values that compare equal are of one canonical type. -/
theorem canonicalType_of_woCompare_eq (h : l.woCompare r = .eq) :
    l.canonicalType = r.canonicalType := by
  rw [Value.woCompare, woCompareElement_eq] at h
  exact compare_eq_iff_eq.mp (Ordering.then_eq_eq.mp h).1

theorem isNumber_iff (v : Value) : v.isNumber ↔ v.canonicalType = 10 := by
  cases v <;> simp [Value.isNumber, Value.canonicalType]

theorem isNaN_iff (hn : l.isNumber) : l.isNaN ↔ l.numericKey = none := by
  cases l with
  | numberDouble d =>
    rw [Value.isNaN, Value.numericKey, doubleKey]
    cases d.isNaN with
    | true => exact iff_of_true rfl rfl
    | false => exact iff_of_false Bool.false_ne_true (Option.some_ne_none _)
  | numberInt | numberLong => exact iff_of_false Bool.false_ne_true (Option.some_ne_none _)
  | _ => cases hn

theorem woCompare_numbers (hl : l.isNumber) (hr : r.isNumber) :
    l.woCompare r = compareNumericKeys l.numericKey r.numericKey := by
  rw [woCompare_of_canonicalType_eq (((isNumber_iff l).mp hl).trans ((isNumber_iff r).mp hr).symm)]
  exact compareElementValues_numeric _ hl hr

theorem isNumber_of_isNaN (h : l.isNaN) : l.isNumber := by
  cases l <;> simp_all [Value.isNaN, Value.isNumber]

/-- Two NaNs compare equal, whatever their bits. -/
theorem woCompare_of_isNaN (hl : l.isNaN) (hr : r.isNaN) : l.woCompare r = .eq := by
  have hln := isNumber_of_isNaN hl
  have hrn := isNumber_of_isNaN hr
  rw [woCompare_numbers hln hrn, (isNaN_iff hln).mp hl, (isNaN_iff hrn).mp hr]
  rfl

theorem isNaN_of_woCompare_eq (h : l.woCompare r = .eq) : l.isNaN = r.isNaN := by
  have hct := canonicalType_of_woCompare_eq h
  by_cases hn : l.isNumber
  · have hrn : r.isNumber := (isNumber_iff r).mpr (hct.symm.trans ((isNumber_iff l).mp hn))
    rw [woCompare_numbers hn hrn] at h
    rw [Bool.eq_iff_iff, isNaN_iff hn, isNaN_iff hrn]
    cases hl : l.numericKey <;> cases hr : r.numericKey <;>
      simp_all [compareNumericKeys]
  · have hnot : ∀ v : Value, ¬ v.isNumber → v.isNaN = false := fun v hv => by
      cases hb : v.isNaN with
      | false => rfl
      | true => exact absurd (isNumber_of_isNaN hb) hv
    have hrn : ¬ r.isNumber := fun hr =>
      hn ((isNumber_iff l).mpr (hct.trans ((isNumber_iff r).mp hr)))
    rw [hnot l hn, hnot r hrn]

/-- Between values of one type the operator is decided by their order, except that NaN has no
order with other numbers. -/
theorem matches_of_canonicalType_eq (h : l.canonicalType = c.rhs.canonicalType) :
    c.matchesSingleElement (some l) ↔
      c.matchType.holds (l.woCompare c.rhs) ∧ l.isNaN = c.rhs.isNaN := by
  simp only [ComparisonMatchExpression.matchesSingleElement, Option.getD_some, h, ne_eq,
    not_true_eq_false, ite_false]
  cases hl : l.isNaN <;> cases hr : c.rhs.isNaN
  · simp [woCompare_of_canonicalType_eq h]
  · simp
  · simp
  · have he := woCompare_of_isNaN hl hr
    cases hm : c.matchType <;> simp [he, Comparison.holds, Comparison.supportsEquality]

/-- A comparison with a value of another type. -/
theorem matches_of_canonicalType_ne (h : l.canonicalType ≠ c.rhs.canonicalType) :
    c.matchesSingleElement (some l) ↔
      (l.canonicalType + c.rhs.canonicalType = 5 ∧ c.matchType.supportsEquality) ∨
        (l.canonicalType + c.rhs.canonicalType ≠ 5 ∧ (c.rhs = .maxKey ∨ c.rhs = .minKey) ∧
          c.matchType ≠ .eq) := by
  have hkeys : (c.rhs.type = 127 ∨ c.rhs.type = -1) ↔ (c.rhs = .maxKey ∨ c.rhs = .minKey) := by
    cases c.rhs <;> simp [Value.type]
  simp only [ComparisonMatchExpression.matchesSingleElement, Option.getD_some, ne_eq, h,
    not_false_eq_true, ite_true]
  by_cases hs : l.canonicalType + c.rhs.canonicalType = 5
  · simp [hs]
  · by_cases hk : c.rhs = .maxKey ∨ c.rhs = .minKey
    · simp [hs, hkeys.mpr hk, hk]
    · simp [hs, hk, mt hkeys.mp hk]

/-- A missing field compares like an undefined value. -/
theorem matches_none : c.matchesSingleElement none = c.matchesSingleElement (some .undefined) := rfl

theorem rhs_ne_undefined (c : ComparisonMatchExpression) : c.rhs ≠ .undefined := by
  intro h
  have := c.accepted
  simp [Comparison.accepts, h, Value.type] at this

/-- An equality with a value other than null holds of the elements that compare equal to it. -/
theorem equality_matches_iff (hc : c.matchType = .eq) (hnull : c.rhs ≠ .null) (e : Option Value) :
    c.matchesSingleElement e ↔ ∃ w, e = some w ∧ w.woCompare c.rhs = .eq := by
  have hct : c.rhs.canonicalType ≠ 0 ∧ c.rhs.canonicalType ≠ 5 := by
    have hu := rhs_ne_undefined c
    cases hr : c.rhs <;> simp_all [Value.canonicalType]
  have hsome : ∀ w, c.matchesSingleElement (some w) ↔ w.woCompare c.rhs = .eq := by
    intro w
    by_cases h : w.canonicalType = c.rhs.canonicalType
    · rw [matches_of_canonicalType_eq h, hc]
      simp only [Comparison.holds, decide_eq_true_eq, and_iff_left_iff_imp]
      exact isNaN_of_woCompare_eq
    · rw [matches_of_canonicalType_ne h, hc]
      have hne : w.woCompare c.rhs ≠ .eq := fun he => h (canonicalType_of_woCompare_eq he)
      simp only [hne, iff_false]
      rintro (⟨hsum, -⟩ | ⟨-, -, hno⟩)
      · have : w.canonicalType = 0 ∨ w.canonicalType = 5 ∨ 10 ≤ w.canonicalType ∨
            w.canonicalType = -1 := by
          cases w <;> simp [Value.canonicalType]
        have : c.rhs.canonicalType = -1 ∨ 10 ≤ c.rhs.canonicalType := by
          cases hr : c.rhs <;> simp_all [Value.canonicalType]
        omega
      · exact hno rfl
  cases e with
  | some w => simp [hsome]
  | none =>
    rw [matches_none, hsome]
    simp only [reduceCtorEq, false_and, exists_false, iff_false]
    intro he
    exact hct.1 (canonicalType_of_woCompare_eq he).symm

end Comparisons

/-! Regular expressions; the library that runs them is a parameter. -/

structure Regex where
  pattern : Bytes
  flags : Bytes
  deriving DecidableEq

def Regex.matchesSingleElement (partialMatch : Regex → Bytes → Bool) (re : Regex) :
    Option Value → Bool
  | some (.string s) | some (.symbol s) => partialMatch re s
  | some (.regEx pattern flags) => re.pattern = pattern && re.flags = flags
  | _ => false

structure ModMatchExpression where
  path : Bytes
  divisor : Int32
  remainder : Int32
  divisor_ne : divisor ≠ 0

def ModMatchExpression.matchesSingleElement (m : ModMatchExpression) : Option Value → Bool
  | some v => v.isNumber && v.asLong.tmod m.divisor.toInt = m.remainder.toInt
  | none => false

/-! `$type`. -/

/-- When all numbers match, `_type` holds whatever the memory held. -/
structure TypeMatchExpression where
  path : Bytes
  matchesAllNumbers : Bool
  type : Int

def TypeMatchExpression.matchesSingleElement (t : TypeMatchExpression) (e : Option Value) : Bool :=
  if t.matchesAllNumbers then (e.map Value.isNumber).getD false
  else (e.map Value.type).getD 0 = t.type

/-- The elements that `$type` looks at: a search for arrays does not see the array that the path
leads to. -/
def TypeMatchExpression.looksAt (t : TypeMatchExpression) (c : ElementIterator.Context) : Bool :=
  !(t.type = 4 && c.outerArray)

/-! `$in`. -/

/-- The entries keep their positions in the operand as field names. -/
structure ArrayFilterEntries where
  equalities : Obj
  regexes : List Regex
  /-- `addEquality` refuses regular expressions and undefined values. -/
  accepted : ∀ e ∈ equalities, e.2.type ≠ 11 ∧ e.2.type ≠ 6

namespace ArrayFilterEntries

def hasNull (entries : ArrayFilterEntries) : Bool := entries.equalities.any fun e => e.2.type = 10

/-- The set is ordered by value; EOO differs from all its members by its type. -/
def contains (entries : ArrayFilterEntries) : Option Value → Bool
  | some v => entries.equalities.any fun e => e.2.woCompare v = .eq
  | none => false

/-- `InMatchExpression::matchesSingleElement`. -/
def matchesSingleElement (partialMatch : Regex → Bytes → Bool) (entries : ArrayFilterEntries)
    (e : Option Value) : Bool :=
  (entries.hasNull && e.isNone) || entries.contains e ||
    entries.regexes.any fun re => re.matchesSingleElement partialMatch e

/-- Sets of elements are equal when their members are, names included. -/
def equivalent (l r : ArrayFilterEntries) : Bool :=
  l.hasNull = r.hasNull && l.regexes = r.regexes &&
    l.equalities.length = r.equalities.length &&
    (l.equalities.zip r.equalities).all fun (a, b) => a.1 = b.1 && a.2.woCompare b.2 = .eq

end ArrayFilterEntries

inductive BitTest where
  | allSet
  | allClear
  | anySet
  | anyClear
  deriving DecidableEq

structure BitTestMatchExpression where
  matchType : BitTest
  path : Bytes
  bitPositions : List Nat
  bitMask : BitVec 64

namespace BitTestMatchExpression

def needFurtherBitTests (b : BitTestMatchExpression) (isBitSet : Bool) : Bool :=
  match b.matchType with
  | .allSet | .anyClear => isBitSet
  | .allClear | .anySet => !isBitSet

def performBitTest (b : BitTestMatchExpression) (eValue : BitVec 64) : Bool :=
  match b.matchType with
  | .allSet => eValue &&& b.bitMask = b.bitMask
  | .allClear => ~~~eValue &&& b.bitMask = b.bitMask
  | .anySet => eValue &&& b.bitMask ≠ 0
  | .anyClear => ~~~eValue &&& b.bitMask ≠ 0

/-- Is the bit set in the data, extended by zeros? -/
def isBitSet (data : Bytes) (bitPosition : Nat) : Bool :=
  (data.getD (bitPosition / 8) 0).toNat.testBit (bitPosition % 8)

def performBinaryBitTest (b : BitTestMatchExpression) (data : Bytes) : List Nat → Bool
  | [] => b.matchType = .allSet || b.matchType = .allClear
  | bitPosition :: rest =>
    if b.needFurtherBitTests (isBitSet data bitPosition) then b.performBinaryBitTest data rest
    else b.matchType = .anySet || b.matchType = .anyClear

def matchesSingleElement (b : BitTestMatchExpression) : Option Value → Bool
  | some (.binData _ data) => b.performBinaryBitTest data b.bitPositions
  | some (.numberDouble d) =>
    if d.isNaN || !(-2 ^ 63 ≤ d.truncInt && d.truncInt < 2 ^ 63) ||
        !(Binary64.ofInt d.truncInt).eq d then false
    else b.performBitTest (BitVec.ofInt 64 d.truncInt)
  | some (.numberInt n) | some (.numberLong n) => b.performBitTest (BitVec.ofInt 64 n.toInt)
  | _ => false

end BitTestMatchExpression

/-! Geometry: of a shape only its kind and its coordinate system are kept, and what it contains is
left to a parameter. -/

inductive CRS where
  | unset
  | flat
  | sphere
  | strictSphere
  deriving DecidableEq

inductive GeometryType where
  | point
  | line
  | box
  | polygon
  | cap
  | multiPoint
  | multiLine
  | multiPolygon
  | geometryCollection
  deriving DecidableEq

structure GeometryContainer where
  type : GeometryType
  crs : CRS
  deriving DecidableEq

namespace GeometryContainer

def getNativeCRS (g : GeometryContainer) : CRS :=
  if g.type = .geometryCollection then .sphere else g.crs

def hasS2Region (g : GeometryContainer) : Bool :=
  match g.type with
  | .point => g.crs = .sphere
  | .line => true
  | .box => false
  | .polygon => g.crs = .sphere || g.crs = .strictSphere
  | .cap => g.crs = .sphere
  | .multiPoint | .multiLine | .multiPolygon | .geometryCollection => true

end GeometryContainer

inductive GeoPredicate where
  | within
  | intersect
  | invalid
  deriving DecidableEq

structure GeoMatchExpression where
  path : Bytes
  pred : GeoPredicate
  geometry : GeometryContainer
  rawObj : Obj

structure GeoNearMatchExpression where
  path : Bytes
  isNearSphere : Bool
  /-- The coordinate system of the centroid. -/
  crs : CRS
  rawObj : Obj

structure TextMatchExpression where
  query : Bytes
  language : Bytes
  caseSensitive : Bool
  diacriticSensitive : Bool
  deriving DecidableEq

structure WhereMatchExpression where
  dbName : Bytes
  code : Bytes
  userScope : Obj

/-- The libraries that decide the matches the matcher does not decide itself. -/
structure Engines where
  partialMatch : Regex → Bytes → Bool
  /-- Can the stored shape be read, and is it contained or met? -/
  geometry : GeoMatchExpression → Value → Bool
  where_ : WhereMatchExpression → Obj → Bool

def GeoMatchExpression.matchesSingleElement (engines : Engines) (g : GeoMatchExpression) :
    Option Value → Bool
  | some v => v.isABSONObj && engines.geometry g v
  | none => false

end MongolDb.Matcher
