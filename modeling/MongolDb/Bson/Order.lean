import MongolDb.Lib.OrderedCode
import MongolDb.Bson.NumericOrder

/-! The comparison of BSON values is an order: symmetric, and transitive over all types. -/
namespace MongolDb.Bson
open ByteOrder ThreeWay Value

theorem woCompare_typed (l r : Value) (o : Ordering) :
    (if l.canonicalType ≠ r.canonicalType ∧ ¬ (l.isNumber ∧ r.isNumber) then
      compare l.canonicalType r.canonicalType else o) =
      (compare l.canonicalType r.canonicalType).then o := by
  by_cases h : l.canonicalType = r.canonicalType
  · rw [if_neg (fun hc => hc.1 h), compare_eq_iff_eq.mpr h]
    rfl
  · have hnum : ¬ (l.isNumber ∧ r.isNumber) := by
      rintro ⟨hl, hr⟩
      apply h
      cases l <;> simp [isNumber] at hl <;> cases r <;> simp [isNumber] at hr <;> rfl
    rw [if_pos ⟨h, hnum⟩]
    rcases Int.lt_or_gt_of_ne h with h | h
    · rw [compare_lt_iff_lt.mpr h]
      rfl
    · rw [compare_gt_iff_gt.mpr h]
      rfl

theorem woCompareElement_eq (timestamps : UInt64 → UInt64 → Ordering) (l r : Value) :
    woCompareElement timestamps l r =
      (compare l.canonicalType r.canonicalType).then (compareElementValues timestamps l r) :=
  woCompare_typed l r _

/-! What a value is compared by: a number, two texts, and the fields inside it. -/

def Value.number : Value → Option Int
  | .bool b => some b.toNat
  | .timestamp t => some t.toInt64.toInt
  | .date d => some d.toInt
  | .dbRef ns _ => some (4 + ns.length + 1 + 12 : Nat)
  | .binData _ data => some data.length
  | v => v.numericKey

def Value.text : Value → Bytes
  | .oid o => o.bytes
  | .code s | .string s | .symbol s => s ++ [0]
  | .dbRef ns o => dbRefBytes ns o
  | .binData subtype data => subtype :: data
  | .regEx pattern _ => pattern
  | .codeWScope c _ => c
  | _ => []

def Value.secondText : Value → Bytes
  | .regEx _ flags => flags
  | _ => []

def Value.embedded : Value → Obj
  | .object fields | .array fields => fields
  | .codeWScope _ scope => scope
  | _ => []

theorem compare_natCast (a b : Nat) : compare (a : Int) b = compare a b :=
  compare_congr (by omega) (by omega)

/-- Two values of one type, part by part. -/
theorem compareElementValues_parts {l r : Value} (h : l.canonicalType = r.canonicalType) :
    compareElementValues compareAsDates l r =
      (compareNumericKeys l.number r.number).then ((lex l.text r.text).then
        ((lex l.secondText r.secondText).then
          (woCompare compareAsDates l.embedded r.embedded))) := by
  by_cases hn : l.isNumber ∧ r.isNumber
  · rw [compareElementValues_numeric _ hn.1 hn.2]
    obtain ⟨hl, hr⟩ := hn
    cases l <;> simp [isNumber] at hl <;> cases r <;> simp [isNumber] at hr <;>
      simp [number, text, secondText, embedded, lex, woCompare]
  · cases l <;> cases r <;> simp [canonicalType] at h <;>
      simp [isNumber] at hn <;>
      simp only [compareElementValues, number, text, secondText, embedded,
        numericKey, lex_self, woCompare, compareNumericKeys, compareLongs_eq, compareAsDates,
        compareStrings, strcmp, compare_natCast, Ordering.eq_then, Ordering.then_eq]
    all_goals rfl

theorem sizeOf_embedded_le (v : Value) : sizeOf v.embedded ≤ sizeOf v := by
  cases v <;> simp [embedded] <;> omega

/-- One element of a document against one of another: type, name, value. -/
theorem woCompare_cons {timestamps : UInt64 → UInt64 → Ordering} (ln rn : Bytes) (l r : Value)
    (ls rs : Obj) : woCompare timestamps ((ln, l) :: ls) ((rn, r) :: rs) =
      ((compare l.canonicalType r.canonicalType).then
        ((lex ln rn).then (compareElementValues timestamps l r))).then
          (woCompare timestamps ls rs) := by
  rw [woCompare, woCompare_typed]
  rfl

theorem chained_numericKeys (a b c : Option Int) :
    Chained (compareNumericKeys a b) (compareNumericKeys b c) (compareNumericKeys a c) := by
  cases a <;> cases b <;> cases c <;> simp [compareNumericKeys]
  case some.some.some a b c => exact chained_compare a b c

theorem chained_lex : ∀ u v w : Bytes, Chained (lex u v) (lex v w) (lex u w)
  | [], [], _ | [], _ :: _, [] => by simp [lex]
  | [], _ :: _, _ :: _ => chained_lt_left _
  | _ :: _, [], [] => by simp [lex]
  | _ :: _, [], _ :: _ => chained_gt_lt _
  | _ :: _, _ :: _, [] => chained_gt_right _
  | a :: u, b :: v, c :: w => by
    simp only [lex_cons]
    exact (chained_compare a.toNat b.toNat c.toNat).then fun _ _ => chained_lex u v w

/-- Values of one type chain if the fields inside them do. -/
theorem chained_values {l m r : Value} (hl : l.canonicalType = m.canonicalType)
    (hr : m.canonicalType = r.canonicalType)
    (h : Chained (woCompare compareAsDates l.embedded m.embedded)
      (woCompare compareAsDates m.embedded r.embedded)
      (woCompare compareAsDates l.embedded r.embedded)) :
    Chained (compareElementValues compareAsDates l m) (compareElementValues compareAsDates m r)
      (compareElementValues compareAsDates l r) := by
  rw [compareElementValues_parts hl, compareElementValues_parts hr,
    compareElementValues_parts (hl.trans hr)]
  refine (chained_numericKeys _ _ _).then fun _ _ => ?_
  refine (chained_lex _ _ _).then fun _ _ => ?_
  exact (chained_lex _ _ _).then fun _ _ => h

theorem chained_woCompare (a b c : Obj) : Chained (woCompare compareAsDates a b)
    (woCompare compareAsDates b c) (woCompare compareAsDates a c) := by
  match a, b, c with
  | [], [], c => cases c <;> simp [woCompare]
  | [], _ :: _, [] | [], _ :: _, _ :: _ | _ :: _, [], [] | _ :: _, [], _ :: _
  | _ :: _, _ :: _, [] => simp [woCompare]
  | (ln, l) :: ls, (mn, m) :: ms, (rn, r) :: rs =>
    have hsize := sizeOf_embedded_le l
    simp only [woCompare_cons]
    refine Chained.then ?_ fun _ _ => chained_woCompare ls ms rs
    refine (chained_compare _ _ _).then fun hl hr => ?_
    refine (chained_lex _ _ _).then fun _ _ => ?_
    exact chained_values (compare_eq_iff_eq.mp hl) (compare_eq_iff_eq.mp hr)
      (chained_woCompare l.embedded m.embedded r.embedded)
termination_by sizeOf a
decreasing_by
  all_goals simp
  all_goals omega

theorem compareElementValues_swap {l r : Value} (h : l.canonicalType = r.canonicalType)
    (he : (woCompare compareAsDates l.embedded r.embedded).swap =
      woCompare compareAsDates r.embedded l.embedded) :
    (compareElementValues compareAsDates l r).swap = compareElementValues compareAsDates r l := by
  rw [compareElementValues_parts h, compareElementValues_parts h.symm]
  simp only [Ordering.swap_then, compareNumericKeys_swap, lex_swap, he]

/-- Swapping a comparison by type that goes on to compare only values of one type. -/
theorem typed_swap {l r : Value} {o o' : Ordering}
    (h : l.canonicalType = r.canonicalType → o.swap = o') :
    ((compare l.canonicalType r.canonicalType).then o).swap =
      (compare r.canonicalType l.canonicalType).then o' := by
  rw [Ordering.swap_then, ← Std.OrientedOrd.eq_swap]
  by_cases he : l.canonicalType = r.canonicalType
  · rw [h he]
  · have hne : compare r.canonicalType l.canonicalType ≠ .eq := by
      rw [Ne, compare_eq_iff_eq]
      exact fun hc => he hc.symm
    cases hc : compare r.canonicalType l.canonicalType <;> simp_all

theorem woCompare_swap (a b : Obj) :
    (woCompare compareAsDates a b).swap = woCompare compareAsDates b a := by
  match a, b with
  | [], [] => rfl
  | [], _ :: _ => rfl
  | _ :: _, [] => rfl
  | (ln, l) :: ls, (rn, r) :: rs =>
    have hsize := sizeOf_embedded_le l
    rw [woCompare_cons, woCompare_cons, Ordering.swap_then, woCompare_swap ls rs]
    congr 1
    apply typed_swap
    intro h
    rw [Ordering.swap_then, lex_swap,
      compareElementValues_swap h (woCompare_swap l.embedded r.embedded)]
termination_by sizeOf a
decreasing_by
  all_goals simp
  all_goals omega

/-- `BSONElement::woCompare` without field names. -/
def Value.woCompare (l r : Value) : Ordering := woCompareElement compareAsDates l r

instance : Std.TransCmp Value.woCompare := by
  apply transCmp_of_chained
  · intro l r
    simp only [Value.woCompare, woCompareElement_eq]
    exact typed_swap fun h => compareElementValues_swap h (woCompare_swap _ _)
  · intro l m r
    simp only [Value.woCompare, woCompareElement_eq]
    refine (chained_compare _ _ _).then fun hl hr => ?_
    exact chained_values (compare_eq_iff_eq.mp hl) (compare_eq_iff_eq.mp hr)
      (chained_woCompare _ _ _)

end MongolDb.Bson
