import MongolDb.Query.IndexBounds
import MongolDb.Query.PlanCacheKey

/-! Range predicates as intervals of an index (bson/bsonobjbuilder.cpp,
query/index_bounds_builder.cpp). Without decimal support in the build, NumberDecimal is no type. -/
namespace MongolDb.Query
open ByteOrder Bson ThreeWay Intervals Matcher

/-! The limits of a type. -/

def zeroOID : OID := ⟨List.replicate 12 0, rfl⟩

def maxOID : OID := ⟨List.replicate 12 0xff, rfl⟩

def infinity : Binary64 := .ofWord 0x7ff0000000000000

/-- `BSONObjBuilder::appendMinForType`, for the type of the value. -/
def minForType : Value → Value
  | .numberInt _ | .numberDouble _ | .numberLong _ => .numberDouble (.ofWord 0x7ff8000000000000)
  | .symbol _ | .string _ => .string []
  -- one type lower, since the least date varies with the version of the index
  | .date _ => .bool true
  | .timestamp _ => .timestamp 0
  | .undefined => .undefined
  | .minKey => .minKey
  | .maxKey => .maxKey
  | .oid _ => .oid zeroOID
  | .bool _ => .bool false
  | .null => .null
  | .object _ => .object []
  | .array _ => .array []
  | .binData _ _ => .binData 0 []
  | .regEx _ _ => .regEx [] []
  | .dbRef _ _ => .dbRef [] zeroOID
  | .code _ => .code []
  | .codeWScope _ _ => .codeWScope [] []

/-- `BSONObjBuilder::appendMaxForType`: a type without a greatest value ends at the next one. -/
def maxForType : Value → Value
  | .numberInt _ | .numberDouble _ | .numberLong _ => .numberDouble infinity
  | .symbol _ | .string _ => minForType (.object [])
  | .date _ => .date Int64.maxValue
  | .timestamp _ => .timestamp 0x7fffffffffffffff
  | .undefined => .undefined
  | .minKey => .minKey
  | .maxKey => .maxKey
  | .oid _ => .oid maxOID
  | .bool _ => .bool true
  | .null => .null
  | .object _ => minForType (.array [])
  | .array _ => minForType (.binData 0 [])
  | .binData _ _ => minForType (.oid zeroOID)
  | .regEx _ _ => minForType (.dbRef [] zeroOID)
  | .dbRef _ _ => minForType (.code [])
  | .code _ => minForType (.codeWScope [] [])
  | .codeWScope _ _ => minForType .maxKey

/-! The intervals of `$lt`, `$lte`, `$gt` and `$gte`. -/

inductive BoundsTightness where
  | exact
  | inexactFetch
  deriving DecidableEq

/-- The operators of a range; equality has a translation of its own. -/
inductive RangeOperator where
  | lt
  | lte
  | gt
  | gte
  deriving DecidableEq

def RangeOperator.matchType : RangeOperator → Comparison
  | .lt => .lt
  | .lte => .lte
  | .gt => .gt
  | .gte => .gte

namespace IndexBoundsBuilder

def typeMatch (first second : Value) : Bool := first.canonicalType = second.canonicalType

def isNull (I : Interval Value) : Bool :=
  (!I.startInclusive || !I.stopInclusive) && I.start.woCompare I.stop = .eq

def allValues : Interval Value := ⟨.minKey, true, .maxKey, true⟩

def makePointInterval (v : Value) : Interval Value := ⟨v, true, v, true⟩

/-- The other end of a one-sided range. -/
def lowerLimit (dataElt : Value) : Value :=
  if dataElt.isNumber then .numberDouble infinity.neg else minForType dataElt

def upperLimit (dataElt : Value) : Value :=
  if dataElt.isNumber then .numberDouble infinity else maxForType dataElt

def below (dataElt : Value) (inclusive : Bool) : Interval Value :=
  ⟨lowerLimit dataElt, typeMatch (lowerLimit dataElt) dataElt, dataElt, inclusive⟩

def above (dataElt : Value) (inclusive : Bool) : Interval Value :=
  ⟨dataElt, inclusive, upperLimit dataElt, typeMatch dataElt (upperLimit dataElt)⟩

/-- What the four operators share: `everything` has each value on its side. -/
def rangeBounds (everything dataElt : Value) (inclusive : Bool) (interval : Interval Value) :
    List (Interval Value) × BoundsTightness :=
  if dataElt.type = everything.type then ([allValues], .exact)
  -- only NaN is <= NaN and >= NaN; nothing is < NaN or > NaN
  else if dataElt.isNaN then (if inclusive then [makePointInterval dataElt] else [], .exact)
  else
    -- the operand of $lt and $gt may be the limit itself
    (if inclusive || !isNull interval then [interval] else [],
      if dataElt.isSimpleType || dataElt.type = 5 then .exact else .inexactFetch)

def translate (matchType : RangeOperator) (dataElt : Value) :
    List (Interval Value) × BoundsTightness :=
  match matchType with
  | .lte => rangeBounds .maxKey dataElt true (below dataElt true)
  | .lt => rangeBounds .maxKey dataElt false (below dataElt false)
  | .gt => rangeBounds .minKey dataElt false (above dataElt false)
  | .gte => rangeBounds .minKey dataElt true (above dataElt true)

end IndexBoundsBuilder

section Limits
variable {v x : Value}

theorem place_lt_of_type_lt (h : x.canonicalType < v.canonicalType) :
    place .forward x < place .forward v := by
  rw [classOf_lt, scanCompare, Value.woCompare, woCompareElement_eq, compare_lt_iff_lt.mpr h]
  rfl

theorem type_le_of_place_le (h : place .forward x ≤ place .forward v) :
    x.canonicalType ≤ v.canonicalType := by
  by_contra hlt
  exact absurd h (not_le.mpr (place_lt_of_type_lt (not_le.mp hlt)))

/-- Zeros come first among the texts of at least their length. -/
theorem lex_zeros : ∀ (n : Nat) (s : Bytes), n ≤ s.length → lex (List.replicate n 0) s ≠ .gt
  | 0, [], _ => by decide
  | 0, _ :: _, _ => by simp [lex]
  | n + 1, a :: s, h => by
    have ih := lex_zeros n s (Nat.le_of_succ_le_succ h)
    rw [List.replicate_succ, lex_cons]
    rcases Nat.eq_zero_or_pos a.toNat with ha | ha
    · simpa [ha] using ih
    · simp [compare_lt_iff_lt.mpr ha]

theorem lex_ones : ∀ s : Bytes, lex s (List.replicate s.length 0xff) ≠ .gt
  | [] => by decide
  | a :: s => by
    have ih := lex_ones s
    rw [List.length_cons, List.replicate_succ, lex_cons]
    rcases (Nat.le_of_lt_succ a.toNat_lt).lt_or_eq with ha | ha
    · simp [compare_lt_iff_lt.mpr ha]
    · simpa [ha] using ih

/-- Where the least value of a type is of that type, it is the least. Timestamps, of type 47, are
compared as signed numbers, and zero is not their least. -/
theorem place_minForType_le (hct : (minForType v).canonicalType = v.canonicalType)
    (hn : v.isNumber = false) (ht : v.canonicalType ≠ 47) (hx : x.canonicalType = v.canonicalType) :
    place .forward (minForType v) ≤ place .forward x := by
  have hfields : ∀ l, woCompare compareAsDates [] l ≠ .gt := by
    intro l
    cases l <;> simp [woCompare]
  rw [classOf_le, scanCompare, woCompare_of_canonicalType_eq (hct.trans hx.symm)]
  cases v <;> cases x <;> simp [Value.canonicalType] at hx <;>
    simp [Value.isNumber, Value.canonicalType, minForType] at hn ht hct <;>
    simp only [minForType, compareElementValues, ne_eq, Ordering.then_eq_gt, not_or, not_and]
  case string.string | string.symbol | symbol.string | symbol.symbol | code.code =>
    exact lex_zeros 1 _ (by simp)
  case object.object | array.array => exact hfields _
  case binData.binData => exact ⟨by simp [compare_gt_iff_gt], fun _ => lex_zeros 1 _ (by simp)⟩
  case oid.oid o => exact lex_zeros 12 _ o.size.ge
  case bool.bool b => cases b <;> decide
  case regEx.regEx => exact ⟨lex_zeros 0 _ (by simp), fun _ => lex_zeros 0 _ (by simp)⟩
  case codeWScope.codeWScope => exact ⟨lex_zeros 0 _ (by simp), fun _ => hfields _⟩
  case dbRef.dbRef ns o =>
    refine ⟨by simp [compare_gt_iff_gt], ?_⟩
    intro hlen
    have hns : ns = [] := by simpa using compare_eq_iff_eq.mp hlen
    rw [hns, dbRefBytes, dbRefBytes, lex_append_left]
    exact lex_zeros 12 _ o.size.ge
  all_goals simp

theorem mag_le_infinity {d : Binary64} (h : d.isNaN = false) : d.mag ≤ infinity.mag := by
  have hlow : d.low ≤ infinity.low := by
    have hd := d.low_lt
    have hi : infinity.low = 2047 * 2 ^ 52 := by decide
    rw [Binary64.isNaN, decide_eq_false_iff_not, Binary64.expo, Binary64.frac] at h
    omega
  exact not_lt.mp fun hlt => not_lt.mpr hlow (Binary64.mag_lt_iff.mp hlt)

/-- The numbers that are not NaN lie between the infinities. -/
theorem numericKey_of_not_isNaN (hn : x.isNumber) (hx : x.isNaN = false) :
    ∃ k : Int, x.numericKey = some k ∧ -(infinity.mag : Int) ≤ k ∧ k ≤ infinity.mag := by
  have double : ∀ d : Binary64, d.isNaN = false →
      -(infinity.mag : Int) ≤ d.scaled ∧ d.scaled ≤ infinity.mag := by
    intro d hd
    have hm : (d.mag : Int) ≤ infinity.mag := by exact_mod_cast mag_le_infinity hd
    rw [Binary64.scaled]
    split <;> omega
  -- the integers lie between two doubles
  have long : ∀ n : Int, -2 ^ 63 ≤ n → n < 2 ^ 63 →
      -(infinity.mag : Int) ≤ n * Binary64.unit ∧ n * Binary64.unit ≤ infinity.mag := by
    intro n hl hu
    have hd : (2 ^ 63 * Binary64.unit : Int) ≤ infinity.mag := by decide +kernel
    have hpos : (0 : Int) ≤ Binary64.unit := Int.natCast_nonneg _
    have h1 := Int.mul_le_mul_of_nonneg_right hl hpos
    have h2 := Int.mul_le_mul_of_nonneg_right hu.le hpos
    omega
  cases x with
  | numberDouble d => exact ⟨d.scaled, doubleKey_of_not_isNaN hx, double d hx⟩
  | numberInt n =>
    have := n.toInt_lt
    have := n.le_toInt
    exact ⟨_, rfl, long n.toInt (by omega) (by omega)⟩
  | numberLong n => exact ⟨_, rfl, long n.toInt n.le_toInt n.toInt_lt⟩
  | _ => cases hn

/-- NaN comes before the infinities, the other numbers between them. -/
theorem place_infinity (hn : x.isNumber) :
    (place .forward (.numberDouble infinity.neg) ≤ place .forward x ↔ x.isNaN = false) ∧
      place .forward x ≤ place .forward (.numberDouble infinity) := by
  have hp : (Value.numberDouble infinity).numericKey = some (infinity.mag : Int) := rfl
  have hm : (Value.numberDouble infinity.neg).numericKey = some (-(infinity.mag : Int)) := rfl
  rw [classOf_le, classOf_le, scanCompare, scanCompare, woCompare_numbers rfl hn,
    woCompare_numbers hn rfl, hp, hm]
  cases hx : x.isNaN with
  | true =>
    rw [(isNaN_iff hn).mp hx]
    exact ⟨iff_of_false (fun h => h rfl) Bool.noConfusion, Ordering.noConfusion⟩
  | false =>
    obtain ⟨k, hk, hlow, hup⟩ := numericKey_of_not_isNaN hn hx
    rw [hk]
    exact ⟨iff_of_true (mt compare_gt_iff_gt.mp (not_lt.mpr hlow)) rfl,
      mt compare_gt_iff_gt.mp (not_lt.mpr hup)⟩

theorem isNaN_eq_false (h : x.canonicalType ≠ 10) : x.isNaN = false := by
  by_contra hx
  exact h ((isNumber_iff x).mp (isNumber_of_isNaN (by simpa using hx)))

/-- Values are in order by type, and then within their type. -/
theorem place_le_iff : place .forward v ≤ place .forward x ↔ v.canonicalType < x.canonicalType ∨
    (v.canonicalType = x.canonicalType ∧ place .forward v ≤ place .forward x) := by
  refine ⟨?_, ?_⟩
  · intro h
    exact (type_le_of_place_le h).lt_or_eq.imp_right fun he => ⟨he, h⟩
  · rintro (hlt | ⟨-, hle⟩)
    · exact (place_lt_of_type_lt hlt).le
    · exact hle

end Limits

namespace IndexBoundsBuilder
variable {v x : Value} {inclusive : Bool}

/-- A range with an upper end starts with the values of the operand's type, NaN left out. -/
theorem starts_below (hv : v.canonicalType ≠ 47) :
    (below v inclusive).Starts (place .forward) x ↔ v.canonicalType < x.canonicalType ∨
      (v.canonicalType = x.canonicalType ∧ x.isNaN = false) := by
  by_cases hd : v.canonicalType = 45
  · -- the dates start behind the last value of the type before theirs
    have hx : place .forward (.bool true) < place .forward x ↔ 45 ≤ x.canonicalType := by
      rw [classOf_lt, scanCompare, Value.woCompare, woCompareElement_eq]
      cases x with
      | bool b => cases b <;> decide
      | _ => simp [Value.canonicalType, compare, compareOfLessAndEq]
    have hstart : lowerLimit v = .bool true := by
      cases v <;> simp [Value.canonicalType] at hd
      rfl
    have hnan : 45 = x.canonicalType → x.isNaN = false := fun h => isNaN_eq_false (by omega)
    have hne : typeMatch (.bool true) v = false := by
      rw [typeMatch, hd]
      rfl
    have hlt : (below v inclusive).Starts (place .forward) x ↔
        place .forward (.bool true) < place .forward x := by
      simp [Interval.Starts, below, hstart, hne]
    rw [hlt, hx, hd, and_iff_left_of_imp hnan, le_iff_lt_or_eq]
  · have hct : (lowerLimit v).canonicalType = v.canonicalType := by
      cases v <;> simp_all [lowerLimit, minForType, Value.isNumber, Value.canonicalType]
    have hleast : v.canonicalType = x.canonicalType →
        (place .forward (lowerLimit v) ≤ place .forward x ↔ x.isNaN = false) := by
      intro hx
      rw [lowerLimit]
      split
      next hn =>
        exact (place_infinity ((isNumber_iff x).mpr (hx.symm.trans ((isNumber_iff v).mp hn)))).1
      next hn =>
        have h10 : v.canonicalType ≠ 10 := fun h => hn ((isNumber_iff v).mpr h)
        rw [lowerLimit, if_neg hn] at hct
        exact iff_of_true (place_minForType_le hct (by simpa using hn) hv hx.symm)
          (isNaN_eq_false (by omega))
    have hle : (below v inclusive).Starts (place .forward) x ↔
        place .forward (lowerLimit v) ≤ place .forward x := by
      simp [Interval.Starts, below, typeMatch, hct, le_iff_lt_or_eq]
    rw [hle, place_le_iff, hct, and_congr_right hleast]

/-- A type whose greatest value is of another type ends where the next type starts. -/
theorem maxForType_next (h : (maxForType v).canonicalType ≠ v.canonicalType) :
    ∃ w, maxForType v = minForType w ∧ (minForType w).canonicalType = w.canonicalType ∧
      w.isNumber = false ∧ w.canonicalType ≠ 47 ∧
      ∀ x : Value, x.canonicalType < w.canonicalType ↔ x.canonicalType ≤ v.canonicalType := by
  cases v <;> simp [maxForType, minForType, Value.canonicalType] at h
  all_goals
    rw [maxForType]
    refine ⟨_, rfl, rfl, rfl, by simp [Value.canonicalType], ?_⟩
    intro x
    cases x <;> simp [Value.canonicalType]

theorem place_le_maxForType (hct : (maxForType v).canonicalType = v.canonicalType)
    (hn : v.isNumber = false) (ht : v.canonicalType ≠ 47) (hx : x.canonicalType = v.canonicalType) :
    place .forward x ≤ place .forward (maxForType v) := by
  rw [classOf_le, scanCompare, woCompare_of_canonicalType_eq (hx.trans hct.symm)]
  cases v <;> cases x <;> simp [Value.canonicalType] at hx <;>
    simp [Value.isNumber, Value.canonicalType, maxForType, minForType] at hn ht hct <;>
    simp only [maxForType, compareElementValues, compareLongs_eq]
  case oid.oid o =>
    have h := lex_ones o.bytes
    rwa [o.size] at h
  case date.date n => simpa [compare_gt_iff_gt] using n.toInt_le
  case bool.bool b => cases b <;> decide
  all_goals simp

/-- A range with a lower end ends with the values of the operand's type. -/
theorem ends_above (hv : v.canonicalType ≠ 47) :
    (above v inclusive).Ends (place .forward) x ↔ x.canonicalType ≤ v.canonicalType := by
  by_cases hct : (upperLimit v).canonicalType = v.canonicalType
  · have hgreatest : x.canonicalType = v.canonicalType →
        place .forward x ≤ place .forward (upperLimit v) := by
      intro hx
      rw [upperLimit] at hct ⊢
      split at hct
      next hn =>
        rw [if_pos hn]
        exact (place_infinity ((isNumber_iff x).mpr (hx.trans ((isNumber_iff v).mp hn)))).2
      next hn =>
        rw [if_neg hn]
        exact place_le_maxForType hct (by simpa using hn) hv hx
    have hle : (above v inclusive).Ends (place .forward) x ↔
        place .forward x ≤ place .forward (upperLimit v) := by
      simp [Interval.Ends, above, typeMatch, hct, le_iff_lt_or_eq]
    rw [hle, place_le_iff, hct, and_iff_left_of_imp hgreatest, le_iff_lt_or_eq]
  · have hn : v.isNumber = false := by
      cases v <;> simp_all [upperLimit, Value.isNumber, Value.canonicalType]
    have hup : upperLimit v = maxForType v := by simp [upperLimit, hn]
    rw [hup] at hct
    obtain ⟨w, hw, hwct, hwn, hwt, hnext⟩ := maxForType_next hct
    have hne : typeMatch v (minForType w) = false := by
      rw [typeMatch, ← hw]
      exact decide_eq_false (Ne.symm hct)
    have hlt : (above v inclusive).Ends (place .forward) x ↔
        place .forward x < place .forward (minForType w) := by
      simp [Interval.Ends, above, hup, hw, hne]
    rw [hlt, ← hnext x]
    refine ⟨?_, fun h => place_lt_of_type_lt (h.trans_eq hwct.symm)⟩
    intro h
    refine lt_of_le_of_ne ((type_le_of_place_le h.le).trans_eq hwct) ?_
    intro he
    exact absurd h (not_lt.mpr (place_minForType_le hwct hwn hwt he))

theorem holds_below : (cond inclusive Comparison.lte .lt).holds (x.woCompare v) ↔
    place .forward x < place .forward v ∨ (place .forward x = place .forward v ∧ inclusive) := by
  rw [classOf_lt, classOf_eq, scanCompare]
  cases inclusive <;> cases x.woCompare v <;> simp [Comparison.holds]

theorem holds_above : (cond inclusive Comparison.gte .gt).holds (x.woCompare v) ↔
    place .forward v < place .forward x ∨ (place .forward v = place .forward x ∧ inclusive) := by
  rw [classOf_lt, classOf_eq, scanCompare, @Std.OrientedCmp.eq_swap _ Value.woCompare _ v x]
  cases inclusive <;> cases x.woCompare v <;> simp [Comparison.holds]

theorem contains_below (hv : v.canonicalType ≠ 47) :
    (below v inclusive).Contains (place .forward) x ↔
      x.canonicalType = v.canonicalType ∧ x.isNaN = false ∧
        (cond inclusive Comparison.lte .lt).holds (x.woCompare v) := by
  rw [Interval.Contains, starts_below hv, holds_below]
  refine ⟨?_, ?_⟩
  · rintro ⟨hstart, hend⟩
    have hle : x.canonicalType ≤ v.canonicalType :=
      type_le_of_place_le (hend.elim le_of_lt fun h => h.1.le)
    rcases hstart with hlt | ⟨he, hnan⟩
    · omega
    · exact ⟨he.symm, hnan, hend⟩
  · rintro ⟨he, hnan, hend⟩
    exact ⟨.inr ⟨he.symm, hnan⟩, hend⟩

theorem contains_above (hv : v.canonicalType ≠ 47) (hnan : v.isNaN = false) :
    (above v inclusive).Contains (place .forward) x ↔
      x.canonicalType = v.canonicalType ∧ x.isNaN = false ∧
        (cond inclusive Comparison.gte .gt).holds (x.woCompare v) := by
  rw [Interval.Contains, ends_above hv, holds_above]
  refine ⟨?_, ?_⟩
  · rintro ⟨hstart, hend⟩
    have hle : place .forward v ≤ place .forward x := hstart.elim le_of_lt fun h => h.1.le
    have he := le_antisymm hend (type_le_of_place_le hle)
    refine ⟨he, ?_, hstart⟩
    by_cases hx : x.isNumber
    · -- the operand is not below the least number, so neither is the value
      have hv : v.isNumber := (isNumber_iff v).mpr (he.symm.trans ((isNumber_iff x).mp hx))
      exact (place_infinity hx).1.mp (((place_infinity hv).1.mpr hnan).trans hle)
    · exact isNaN_eq_false (mt (isNumber_iff x).mpr hx)
  · rintro ⟨he, -, hstart⟩
    exact ⟨hstart, he.le⟩

/-- Leaving out an empty interval leaves out no value. -/
theorem covers_unless_null {I : Interval Value} :
    Covers (place .forward) (if inclusive || !isNull I then [I] else []) x ↔
      I.Contains (place .forward) x := by
  by_cases hkeep : inclusive || !isNull I
  · simp [hkeep, Covers]
  · have hnull : isNull I := by simp_all
    rw [isNull, Bool.and_eq_true, decide_eq_true_eq, @woCompare_eq_eq .forward] at hnull
    rw [if_neg hkeep]
    refine iff_of_false (by simp [Covers]) ?_
    rintro ⟨hstart, hend⟩
    rcases hstart with hs | ⟨hs, hsi⟩ <;> rcases hend with he | ⟨he, hei⟩
    · order
    · order
    · order
    · simp [hsi, hei] at hnull

/-- Bounds around an operand, from what the interval holds when the operand is not NaN. -/
theorem covers_rangeBounds {everything : Value} {I : Interval Value} {op : Comparison}
    (hv : v.type ≠ everything.type) (hop : op.holds .eq = inclusive)
    (hI : v.isNaN = false → (I.Contains (place .forward) x ↔
      x.canonicalType = v.canonicalType ∧ x.isNaN = false ∧ op.holds (x.woCompare v))) :
    Covers (place .forward) (rangeBounds everything v inclusive I).1 x ↔
      x.canonicalType = v.canonicalType ∧ x.isNaN = v.isNaN ∧ op.holds (x.woCompare v) := by
  rw [rangeBounds, if_neg hv]
  cases hnan : v.isNaN with
  | false => exact covers_unless_null.trans (hI hnan)
  | true =>
    have hpoint : Covers (place .forward) (if inclusive then [makePointInterval v] else []) x ↔
        inclusive ∧ x.woCompare v = .eq := by
      rw [@woCompare_eq_eq .forward]
      cases inclusive with
      | false => simp [Covers]
      | true =>
        simp only [Covers, makePointInterval, Interval.Contains, Interval.Starts, Interval.Ends,
          List.mem_singleton, exists_eq_left, if_true, and_true, true_and]
        refine ⟨fun h => by rcases h with ⟨h | h, h' | h'⟩ <;> order, fun h => ?_⟩
        exact ⟨.inr h.symm, .inr h⟩
    refine hpoint.trans ⟨?_, ?_⟩
    · rintro ⟨hinc, he⟩
      rw [he, hop]
      exact ⟨canonicalType_of_woCompare_eq he, (isNaN_of_woCompare_eq he).trans hnan, hinc⟩
    · rintro ⟨-, hx, hholds⟩
      have he := woCompare_of_isNaN hx hnan
      rw [he, hop] at hholds
      exact ⟨hholds, he⟩

/-- A comparison with an operand of a type with a bracket of its own. -/
theorem matches_iff_ordered {c : ComparisonMatchExpression} (hc : 10 ≤ c.rhs.canonicalType)
    (hmax : c.rhs ≠ .maxKey) : c.matchesSingleElement (some x) ↔
      x.canonicalType = c.rhs.canonicalType ∧ x.isNaN = c.rhs.isNaN ∧
        c.matchType.holds (x.woCompare c.rhs) := by
  by_cases h : x.canonicalType = c.rhs.canonicalType
  · rw [matches_of_canonicalType_eq h, and_iff_right h, and_comm]
  · have hx : -1 ≤ x.canonicalType := by cases x <;> simp [Value.canonicalType]
    have hmin : c.rhs ≠ .minKey := by
      intro he
      rw [he] at hc
      exact absurd hc (by decide)
    rw [matches_of_canonicalType_ne h]
    simp only [h, hmax, hmin, false_and, or_self, and_false, or_false, iff_false]
    omega

/-- The bounds of a range predicate hold exactly the values that match it, unless its operand is an
array, null, one of the two keys or a timestamp. -/
theorem covers_translate_iff_matches (op : RangeOperator) (c : ComparisonMatchExpression)
    (hop : c.matchType = op.matchType) (hrhs : c.rhs.type ∉ [4, 10, -1, 127, 17]) (x : Value) :
    Covers (place .forward) (translate op c.rhs).1 x ↔
      c.matchesSingleElement (some x) := by
  have hct : 10 ≤ c.rhs.canonicalType ∧ c.rhs.canonicalType ≠ 47 ∧ c.rhs ≠ .maxKey := by
    have hu := rhs_ne_undefined c
    cases h : c.rhs <;> simp_all [Value.canonicalType, Value.type]
  obtain ⟨h10, h47, hmax⟩ := hct
  have hkeys : c.rhs.type ≠ Value.maxKey.type ∧ c.rhs.type ≠ Value.minKey.type := by
    simp [Value.type] at hrhs ⊢
    tauto
  rw [matches_iff_ordered h10 hmax, hop]
  cases op with
  | lt | lte => exact covers_rangeBounds hkeys.1 rfl fun _ => contains_below h47
  | gt | gte => exact covers_rangeBounds hkeys.2 rfl fun hnan => contains_above h47 hnan

theorem covers_translate_gt_five : Covers (place .forward) (translate .gt (.numberInt 5)).1
    (.numberLong 7) :=
  (covers_translate_iff_matches .gt ⟨.gt, [97], .numberInt 5, rfl⟩ rfl (by decide) (.numberLong 7)).mpr
    (by decide)

end IndexBoundsBuilder

end MongolDb.Query
