import Mathlib.Tactic.Linarith

/-! The numbers of `$inc` and `$mul` (util/safe_num.cpp). What doubles and decimals are is left
open; signed arithmetic that overflows wraps around. -/
namespace MongolDb.Update
open Int64 Int

inductive SafeNum (Double Decimal : Type) where
  | eoo
  | numberInt (int32Val : Int32)
  | numberLong (int64Val : Int64)
  | numberDouble (doubleVal : Double)
  | numberDecimal (decimalVal : Decimal)

namespace SafeNum
variable {Double Decimal : Type}

section
variable [IntCast Double] [IntCast Decimal] [Add Double] [Add Decimal] [Mul Double] [Mul Decimal]
  (toDouble : Decimal → Double) (toDecimal : Double → Decimal)

def isValid : SafeNum Double Decimal → Bool
  | .eoo => false
  | _ => true

def getDouble : SafeNum Double Decimal → Double
  | .numberInt n | .numberLong n => n.toInt
  | .numberDouble d => d
  | .numberDecimal d => toDouble d
  | .eoo => (0 : Int)

def getDecimal : SafeNum Double Decimal → Decimal
  | .numberInt n | .numberLong n => n.toInt
  | .numberDouble d => toDecimal d
  | .numberDecimal d => d
  | .eoo => (0 : Int)

/-- What 32-bit arithmetic does with its 64-bit result. -/
def ofInt32Result (result : Int64) : SafeNum Double Decimal :=
  if result ≤ Int32.maxValue.toInt64 ∧ Int32.minValue.toInt64 ≤ result then .numberInt result.toInt32
  else .numberLong result

def addInt32Int32 (lInt32 rInt32 : Int32) : SafeNum Double Decimal :=
  ofInt32Result (lInt32.toInt64 + rInt32.toInt64)

def addInt64Int64 (lInt64 rInt64 : Int64) : SafeNum Double Decimal :=
  if (rInt64 > 0 ∧ lInt64 > Int64.maxValue - rInt64) ∨
      (rInt64 < 0 ∧ lInt64 < Int64.minValue - rInt64) then .eoo
  else .numberLong (lInt64 + rInt64)

def mulInt32Int32 (lInt32 rInt32 : Int32) : SafeNum Double Decimal :=
  ofInt32Result (lInt32.toInt64 * rInt32.toInt64)

def mulOverflows (lInt64 rInt64 : Int64) : Bool :=
  if lInt64 > 0 then
    if rInt64 > 0 then lInt64 > Int64.maxValue / rInt64 else rInt64 < Int64.minValue / lInt64
  else if rInt64 > 0 then lInt64 < Int64.minValue / rInt64
  else lInt64 ≠ 0 ∧ rInt64 < Int64.maxValue / lInt64

def mulInt64Int64 (lInt64 rInt64 : Int64) : SafeNum Double Decimal :=
  if mulOverflows lInt64 rInt64 then .eoo else .numberLong (lInt64 * rInt64)

/-- What `addInternal` and `mulInternal` share: the operation for each pair of types. -/
def internal (int32 : Int32 → Int32 → SafeNum Double Decimal)
    (int64 : Int64 → Int64 → SafeNum Double Decimal) (floats : Double → Double → Double)
    (decimals : Decimal → Decimal → Decimal) (lhs rhs : SafeNum Double Decimal) :
    SafeNum Double Decimal :=
  match lhs, rhs with
  | .numberInt l, .numberInt r => int32 l r
  | .numberInt l, .numberLong r => int64 l.toInt64 r
  | .numberLong l, .numberInt r => int64 l r.toInt64
  | .numberLong l, .numberLong r => int64 l r
  | .numberDecimal _, _ | _, .numberDecimal _ =>
    .numberDecimal (decimals (getDecimal toDecimal lhs) (getDecimal toDecimal rhs))
  | .eoo, _ | _, .eoo => .eoo
  | _, _ => .numberDouble (floats (getDouble toDouble lhs) (getDouble toDouble rhs))

def addInternal : SafeNum Double Decimal → SafeNum Double Decimal → SafeNum Double Decimal :=
  internal toDouble toDecimal addInt32Int32 addInt64Int64 (· + ·) (· + ·)

def mulInternal : SafeNum Double Decimal → SafeNum Double Decimal → SafeNum Double Decimal :=
  internal toDouble toDecimal mulInt32Int32 mulInt64Int64 (· * ·) (· * ·)

end

def integer : SafeNum Double Decimal → Option Int
  | .numberInt n | .numberLong n => some n.toInt
  | _ => none

def isNumberInt : SafeNum Double Decimal → Bool
  | .numberInt _ => true
  | _ => false

/-- The integer is one of so many bits. -/
def Fits (bits : Nat) (x : Int) : Prop := -2 ^ (bits - 1) ≤ x ∧ x < 2 ^ (bits - 1)

/-- The result stands for `x` if that has 64 bits, and is a `NumberInt` if `small` allows it and `x`
has 32 bits. -/
structure Exact (result : SafeNum Double Decimal) (x : Int) (small : Bool) : Prop where
  valid_iff : result.isValid = true ↔ Fits 64 x
  value : result.isValid = true → result.integer = some x
  type_iff : result.isNumberInt = true ↔ small = true ∧ Fits 32 x

theorem bmod_of_fits {x : Int} (h : Fits 64 x) : x.bmod (2 ^ 64) = x := by
  apply bmod_eq_of_le <;> simp only [Fits] at h <;> omega

theorem exact_eoo {x : Int} (h : ¬ Fits 64 x) : Exact (.eoo : SafeNum Double Decimal) x false := by
  constructor <;> simp [isValid, isNumberInt, h]

theorem exact_numberLong {n : Int64} {x : Int} (hx : Fits 64 x) (h : n.toInt = x.bmod (2 ^ 64)) :
    Exact (.numberLong n : SafeNum Double Decimal) x false := by
  rw [bmod_of_fits hx] at h
  constructor <;> simp [isValid, integer, isNumberInt, hx, h]

/-- The result of 32-bit arithmetic, which does not overflow in 64 bits. -/
theorem exact_ofInt32Result {n : Int64} {x : Int} (hx : Fits 64 x) (h : n.toInt = x.bmod (2 ^ 64)) :
    Exact (ofInt32Result n : SafeNum Double Decimal) x true := by
  rw [bmod_of_fits hx] at h
  have hsmall : (n ≤ Int32.maxValue.toInt64 ∧ Int32.minValue.toInt64 ≤ n) ↔ Fits 32 x := by
    simp only [le_iff_toInt_le, Int32.toInt_toInt64, Int32.toInt_maxValue,
      Int32.toInt_minValue, h, Fits]
    omega
  rw [ofInt32Result]
  split
  next hif =>
    have hfits := hsmall.mp hif
    have hval : n.toInt32.toInt = x := by
      rw [toInt_toInt32, h, bmod_eq_of_le] <;> simp only [Fits] at hfits <;> omega
    constructor <;> simp [isValid, integer, isNumberInt, hx, hval, hfits]
  next hif =>
    have hbig : ¬ Fits 32 x := fun hfits => hif (hsmall.mpr hfits)
    constructor <;> simp [isValid, integer, isNumberInt, hx, h, hbig]

section
variable (l r : Int32)

theorem exact_addInt32Int32 :
    Exact (addInt32Int32 l r : SafeNum Double Decimal) (l.toInt + r.toInt) true := by
  apply exact_ofInt32Result
  · have hl := And.intro l.le_toInt l.toInt_lt
    have hr := And.intro r.le_toInt r.toInt_lt
    simp only [Fits]
    omega
  · simp only [toInt_add, Int32.toInt_toInt64]

theorem exact_mulInt32Int32 :
    Exact (mulInt32Int32 l r : SafeNum Double Decimal) (l.toInt * r.toInt) true := by
  apply exact_ofInt32Result
  · obtain ⟨hl, hl'⟩ := And.intro l.le_toInt l.toInt_lt
    obtain ⟨hr, hr'⟩ := And.intro r.le_toInt r.toInt_lt
    constructor <;> norm_num at * <;> nlinarith
  · simp only [toInt_mul, Int32.toInt_toInt64]

end

section
variable (l r : Int64)

theorem exact_addInt64Int64 :
    Exact (addInt64Int64 l r : SafeNum Double Decimal) (l.toInt + r.toInt) false := by
  have hoverflow : ((r > 0 ∧ l > maxValue - r) ∨ (r < 0 ∧ l < minValue - r)) ↔
      ¬ Fits 64 (l.toInt + r.toInt) := by
    have hl := And.intro l.le_toInt l.toInt_lt
    have hr := And.intro r.le_toInt r.toInt_lt
    simp only [GT.gt, lt_iff_toInt_lt, toInt_sub, toInt_maxValue,
      toInt_minValue, toInt_zero, Fits]
    by_cases hpos : 0 < r.toInt
    · rw [bmod_eq_of_le (n := 2 ^ 63 - 1 - r.toInt)] <;> omega
    · rw [bmod_eq_of_le (n := -2 ^ 63 - r.toInt)] <;> omega
  rw [addInt64Int64]
  split
  next hif => exact exact_eoo (hoverflow.mp hif)
  next hif => exact exact_numberLong (not_not.mp fun h => hif (hoverflow.mpr h)) (toInt_add l r)

/-- Division rounds toward zero. -/
theorem tdiv_lt_iff {a b c : Int} (ha : 0 ≤ a) (hc : 0 < c) : a.tdiv c < b ↔ a < b * c := by
  rw [tdiv_eq_ediv_of_nonneg ha, Int.ediv_lt_iff_lt_mul hc]

theorem minValue_div {n : Int64} (hn : 0 < n.toInt) :
    (Int64.minValue / n).toInt = -((2 ^ 63 : Int).tdiv n.toInt) := by
  rw [toInt_div_of_ne_right, toInt_minValue, Int.neg_tdiv]
  rintro rfl
  exact absurd hn (by decide)

theorem mulOverflows_iff : mulOverflows l r = true ↔ ¬ Fits 64 (l.toInt * r.toInt) := by
  have hmax : ∀ n : Int64, (maxValue / n).toInt = (2 ^ 63 - 1 : Int).tdiv n.toInt := by
    intro n
    rw [toInt_div_of_ne_left _ _ (by decide), toInt_maxValue]
  have hzero : l ≠ 0 ↔ l.toInt ≠ 0 := by
    rw [ne_eq, ← toInt_inj, toInt_zero]
  simp only [mulOverflows, GT.gt, lt_iff_toInt_lt, toInt_zero, hzero, hmax]
  generalize hx : l.toInt = x at *
  generalize hy : r.toInt = y at *
  split_ifs with hl hr hr
  · have hprod := mul_pos hl hr
    rw [decide_eq_true_iff, tdiv_lt_iff (by decide) hr, Fits]
    omega
  · have hprod := mul_nonpos_of_nonneg_of_nonpos hl.le (not_lt.mp hr)
    rw [decide_eq_true_iff, minValue_div (hx ▸ hl), hx, lt_neg, tdiv_lt_iff (by decide) hl,
      neg_mul, mul_comm, Fits]
    omega
  · have hprod := mul_nonpos_of_nonpos_of_nonneg (not_lt.mp hl) hr.le
    rw [decide_eq_true_iff, minValue_div (hy ▸ hr), hy, lt_neg, tdiv_lt_iff (by decide) hr,
      neg_mul, Fits]
    omega
  · have hprod := mul_nonneg_of_nonpos_of_nonpos (not_lt.mp hl) (not_lt.mp hr)
    rw [decide_eq_true_iff]
    rcases (not_lt.mp hl).lt_or_eq with hneg | rfl
    · rw [← neg_neg x, Int.tdiv_neg, lt_neg, tdiv_lt_iff (by decide) (by omega), neg_mul_neg,
        mul_comm, neg_neg, Fits]
      omega
    · simp [Fits]

theorem exact_mulInt64Int64 :
    Exact (mulInt64Int64 l r : SafeNum Double Decimal) (l.toInt * r.toInt) false := by
  rw [mulInt64Int64]
  split
  next hif => exact exact_eoo ((mulOverflows_iff l r).mp hif)
  next hif =>
    exact exact_numberLong (not_not.mp fun h => hif ((mulOverflows_iff l r).mpr h))
      (toInt_mul l r)

end

/-- Integers added and multiplied: the result is valid if and only if it has 64 bits, it is then
exact, and it is a `NumberInt` if and only if both operands are and it has 32 bits. -/
theorem integer_arithmetic_exact [IntCast Double] [IntCast Decimal] [Add Double] [Add Decimal]
    [Mul Double] [Mul Decimal] (toDouble : Decimal → Double) (toDecimal : Double → Decimal)
    {l r : SafeNum Double Decimal} {x y : Int} (hl : l.integer = some x) (hr : r.integer = some y) :
    Exact (addInternal toDouble toDecimal l r) (x + y) (l.isNumberInt && r.isNumberInt) ∧
      Exact (mulInternal toDouble toDecimal l r) (x * y) (l.isNumberInt && r.isNumberInt) := by
  cases l <;> cases hl <;> cases r <;> cases hr
  · exact ⟨exact_addInt32Int32 _ _, exact_mulInt32Int32 _ _⟩
  · rw [← Int32.toInt_toInt64]
    exact ⟨exact_addInt64Int64 _ _, exact_mulInt64Int64 _ _⟩
  · rw [← Int32.toInt_toInt64]
    exact ⟨exact_addInt64Int64 _ _, exact_mulInt64Int64 _ _⟩
  · exact ⟨exact_addInt64Int64 _ _, exact_mulInt64Int64 _ _⟩

/-- The least sum of two of 32 bits that needs more. -/
theorem integer_arithmetic_exact_maxValue :
    Exact (addInternal id id (.numberInt Int32.maxValue : SafeNum Int Int) (.numberInt 1))
      (2147483647 + 1) true :=
  (integer_arithmetic_exact id id rfl rfl).1

end SafeNum

end MongolDb.Update
