import MongolDb.Bson.Compare
import MongolDb.Lib.ThreeWay

/-! The numbers of the three BSON types are compared by value, with NaN below all of them. -/
namespace MongolDb.Bson
open Binary64

/-- A number's value in units of the least positive double, and nothing for a NaN. -/
def doubleKey (d : Binary64) : Option Int := if d.isNaN then none else some d.scaled

def longKey (n : Int) : Option Int := some (n * Binary64.unit)

/-- The value that decides how a number compares. -/
def Value.numericKey : Value → Option Int
  | .numberDouble d => doubleKey d
  | .numberInt n | .numberLong n => longKey n.toInt
  | _ => none

def compareNumericKeys : Option Int → Option Int → Ordering
  | none, none => .eq
  | none, some _ => .lt
  | some _, none => .gt
  | some l, some r => compare l r

theorem compareNumericKeys_swap (l r : Option Int) :
    (compareNumericKeys l r).swap = compareNumericKeys r l := by
  cases l with
  | none => cases r <;> rfl
  | some l =>
    cases r with
    | none => rfl
    | some r => exact (@Std.OrientedCmp.eq_swap _ compare _ r l).symm

theorem doubleKey_of_not_isNaN {d : Binary64} (h : d.isNaN = false) :
    doubleKey d = some d.scaled := by
  simp [doubleKey, h]

theorem compareLongs_eq (l r : Int) : compareLongs l r = compare l r := by
  unfold compareLongs
  rcases Int.lt_trichotomy l r with h | rfl | h
  · rw [if_neg (by omega), if_pos h, compare_lt_iff_lt.mpr h]
  · rw [if_pos rfl, compare_eq_iff_eq.mpr rfl]
  · rw [if_neg (by omega), if_neg (by omega), compare_gt_iff_gt.mpr h]

theorem compareInts_eq (l r : Int32) : compareInts l r = compare l.toInt r.toInt := by
  rw [← compareLongs_eq]
  simp only [compareInts, compareLongs, Int32.lt_iff_toInt_lt, Int32.toInt_inj]

theorem compareDoubles_eq (l r : Binary64) :
    compareDoubles l r = compareNumericKeys (doubleKey l) (doubleKey r) := by
  unfold compareDoubles eq lt doubleKey
  cases hl : l.isNaN <;> cases hr : r.isNaN <;> simp [compareNumericKeys]
  rcases Int.lt_trichotomy l.scaled r.scaled with h | h | h
  · rw [if_neg (by omega), if_pos h, compare_lt_iff_lt.mpr h]
  · rw [if_pos h, compare_eq_iff_eq.mpr h]
  · rw [if_neg (by omega), if_neg (by omega), compare_gt_iff_gt.mpr h]

theorem compare_mul_unit (l r : Int) :
    compare (l * Binary64.unit) (r * Binary64.unit) = compare l r := by
  have hu : (0 : Int) < unit := by exact_mod_cast unit_pos
  exact ThreeWay.compare_congr (Int.mul_lt_mul_right hu) (Int.mul_lt_mul_right hu)

theorem compareLongs_keys (l r : Int) :
    compareLongs l r = compareNumericKeys (longKey l) (longKey r) := by
  rw [compareLongs_eq, ← compare_mul_unit]
  rfl

theorem doubleKey_ofInt {n : Int} (h : n.natAbs ≤ 2 ^ 53) :
    doubleKey (Binary64.ofInt n) = longKey n := by
  have he := ofNat_of_le h
  rw [doubleKey_of_not_isNaN (isNaN_ofInt he (by omega)), scaled_ofInt he, longKey]

theorem doubleKey_kBoundOfLongRange :
    doubleKey kBoundOfLongRange = some (2 ^ 63 * (Binary64.unit : Int)) ∧
      doubleKey kBoundOfLongRange.neg = some (-2 ^ 63 * (Binary64.unit : Int)) := by
  have he := ofNat_two_pow_63
  have hnan : kBoundOfLongRange.isNaN = false := isNaN_ofNat he (by decide)
  have hs : kBoundOfLongRange.scaled = 2 ^ 63 * (unit : Int) := scaled_ofNat he
  have hneg : kBoundOfLongRange.neg.isNaN = false := (isNaN_neg _).trans hnan
  rw [doubleKey_of_not_isNaN hnan, doubleKey_of_not_isNaN hneg, scaled_neg, hs,
    Int.neg_mul]
  exact ⟨rfl, rfl⟩

theorem lt_eq_doubleKey {l r : Binary64} {a b : Int} (hl : doubleKey l = some a)
    (hr : doubleKey r = some b) : l.lt r = decide (a < b) ∧ l.eq r = decide (a = b) := by
  unfold doubleKey at hl hr
  cases hln : l.isNaN <;> cases hrn : r.isNaN <;> simp_all [lt, eq]

/-- Beyond `2 ^ 53` a double's fraction does not count against an integer. -/
theorem compare_truncInt {n : Int} (d : Binary64) (h : 2 ^ 53 < n.natAbs) :
    compare n d.truncInt = compare (n * Binary64.unit) d.scaled := by
  have key : d.scaled = d.truncInt * unit ∨
      (-(2 ^ 53 * unit : Int) < d.scaled ∧ d.scaled < 2 ^ 53 * unit ∧
        -2 ^ 53 < d.truncInt ∧ d.truncInt < 2 ^ 53) := by
    rcases d.mag_eq_or_lt with hm | hm
    · left
      cases hs : d.signbit
      · simp only [scaled, truncInt, hs, hm, Bool.false_eq_true, if_false,
          Nat.cast_mul]
      · simp only [scaled, truncInt, hs, hm, if_true, Nat.cast_mul, Int.neg_mul]
    · right
      have ht : d.trunc < 2 ^ 53 := (Nat.div_lt_iff_lt_mul unit_pos).mpr hm
      have hm' : (d.mag : Int) < 2 ^ 53 * unit := by exact_mod_cast hm
      cases hs : d.signbit <;> simp only [scaled, truncInt, hs] <;> omega
  rcases key with h' | ⟨h1, h2, h3, h4⟩
  · rw [h', compare_mul_unit]
  · have hu : (0 : Int) < unit := by exact_mod_cast unit_pos
    rcases Int.lt_or_le n 0 with hn | hn
    · have := Int.mul_lt_mul_of_pos_right (show n < -2 ^ 53 by omega) hu
      rw [compare_lt_iff_lt.mpr (by omega), compare_lt_iff_lt.mpr (by omega)]
    · have := Int.mul_lt_mul_of_pos_right (show 2 ^ 53 < n by omega) hu
      rw [compare_gt_iff_gt.mpr (by omega), compare_gt_iff_gt.mpr (by omega)]

theorem compareLongToDouble_eq {l : Int} (hl : -2 ^ 63 ≤ l) (hu : l < 2 ^ 63) (r : Binary64) :
    compareLongToDouble l r = compareNumericKeys (longKey l) (doubleKey r) := by
  have hpos : (0 : Int) < unit := by exact_mod_cast unit_pos
  unfold compareLongToDouble
  cases hnan : r.isNaN with
  | true => simp only [doubleKey, hnan, longKey, compareNumericKeys, if_true]
  | false =>
    have hr := doubleKey_of_not_isNaN hnan
    rw [if_neg Bool.false_ne_true]
    by_cases hsmall : l ≤ kEndOfPreciseDoubles ∧ -kEndOfPreciseDoubles ≤ l
    · rw [if_pos hsmall, compareDoubles_eq, doubleKey_ofInt]
      unfold kEndOfPreciseDoubles at hsmall
      omega
    · rw [if_neg hsmall]
      obtain ⟨hb, hbn⟩ := doubleKey_kBoundOfLongRange
      rw [(lt_eq_doubleKey hb hr).1, (lt_eq_doubleKey hb hr).2, (lt_eq_doubleKey hr hbn).1, hr]
      change _ = compare (l * (unit : Int)) r.scaled
      have h1 := Int.mul_lt_mul_of_pos_right hu hpos
      have h2 := Int.mul_le_mul_of_nonneg_right hl hpos.le
      by_cases hge : (2 ^ 63 * unit : Int) ≤ r.scaled
      · rw [if_pos (by rw [← Bool.decide_or]; exact decide_eq_true (by omega)),
          compare_lt_iff_lt.mpr (by omega)]
      · rw [if_neg (by rw [← Bool.decide_or, decide_eq_true_eq]; omega)]
        by_cases hlt : r.scaled < -2 ^ 63 * unit
        · rw [if_pos (decide_eq_true hlt), compare_gt_iff_gt.mpr (by omega)]
        · rw [if_neg (mt of_decide_eq_true hlt), compareLongs_eq]
          apply compare_truncInt
          unfold kEndOfPreciseDoubles at hsmall
          omega

/-- Two numbers compare by their values, whatever their types. -/
theorem compareElementValues_numeric (timestamps : UInt64 → UInt64 → Ordering) {l r : Value}
    (hl : l.isNumber) (hr : r.isNumber) :
    compareElementValues timestamps l r = compareNumericKeys l.numericKey r.numericKey := by
  have small : ∀ n : Int32, n.toInt.natAbs ≤ 2 ^ 53 := by
    intro n
    have h1 := n.le_toInt
    have h2 := n.toInt_lt
    omega
  cases l <;> simp [Value.isNumber] at hl <;> cases r <;> simp [Value.isNumber] at hr
  case numberDouble.numberDouble l r => exact compareDoubles_eq l r
  case numberDouble.numberInt l r =>
    exact (compareDoubles_eq l _).trans (by rw [doubleKey_ofInt (small r)]; rfl)
  case numberDouble.numberLong l r =>
    have h := compareLongToDouble_eq r.le_toInt r.toInt_lt l
    exact (congrArg Ordering.swap h).trans (compareNumericKeys_swap _ _)
  case numberInt.numberDouble l r =>
    exact (compareDoubles_eq _ r).trans (by rw [doubleKey_ofInt (small l)]; rfl)
  case numberInt.numberInt l r =>
    exact (compareInts_eq l r).trans ((compareLongs_eq _ _).symm.trans (compareLongs_keys _ _))
  case numberInt.numberLong l r => exact compareLongs_keys _ _
  case numberLong.numberDouble l r => exact compareLongToDouble_eq l.le_toInt l.toInt_lt r
  case numberLong.numberInt l r | numberLong.numberLong l r => exact compareLongs_keys _ _

end MongolDb.Bson
