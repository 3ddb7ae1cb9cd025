import Mathlib.Data.List.TakeWhile
import MongolDb.Bson.KeyOrder
import MongolDb.KeyString.Encode

/-! Values as key strings keep them: a DBRef's namespace ends at its first NUL byte, and the elements
of an array have no names of their own. -/
namespace MongolDb.KeyString
open ByteOrder Bson

mutual
def kept : Value → Value
  | .object fields => .object (keptFields fields)
  | .array fields => .array (keptElements 0 fields)
  | .codeWScope code scope => .codeWScope code (keptFields scope)
  | .dbRef ns o => .dbRef (dbrefNS ns) o
  | v => v
def keptFields : List (Bytes × Value) → List (Bytes × Value)
  | [] => []
  | (name, v) :: rest => (name, kept v) :: keptFields rest
def keptElements : Nat → List (Bytes × Value) → List (Bytes × Value)
  | _, [] => []
  | i, (_, v) :: rest => (numStr i, kept v) :: keptElements (i + 1) rest
end

@[simp] theorem canonicalType_kept (v : Value) : (kept v).canonicalType = v.canonicalType := by
  cases v <;> rfl

theorem cstring_iff {s : Bytes} : cstring s = true ↔ ∀ c ∈ s, c ≠ 0 := by
  simp [cstring]

theorem dbrefNS_eq_iff {ns : Bytes} : dbrefNS ns = ns ↔ cstring ns = true := by
  rw [dbrefNS, List.takeWhile_eq_self_iff, cstring_iff]
  simp only [decide_eq_true_eq]

theorem length_dbrefNS_le (ns : Bytes) : (dbrefNS ns).length ≤ ns.length :=
  (List.takeWhile_prefix _).length_le

mutual
/-- Nothing is lost of a value exactly when its arrays and DBRefs are regular. -/
theorem kept_eq_iff : ∀ v : Value, kept v = v ↔ v.positional = true ∧ v.terminated = true
  | .object fields => by
    simpa [kept, Value.positional, Value.terminated] using keptFields_eq_iff fields
  | .codeWScope code fields => by
    simpa [kept, Value.positional, Value.terminated] using keptFields_eq_iff fields
  | .array fields => by
    simpa [kept, Value.positional, Value.terminated] using keptElements_eq_iff 0 fields
  | .dbRef ns o => by simp [kept, Value.positional, Value.terminated, dbrefNS_eq_iff]
  | .minKey | .maxKey | .undefined | .null | .numberDouble _ | .numberInt _ | .numberLong _
  | .string _ | .symbol _ | .binData _ _ | .oid _ | .bool _ | .date _ | .timestamp _ | .regEx _ _
  | .code _ => by simp [kept, Value.positional, Value.terminated]
theorem keptFields_eq_iff : ∀ fields : List (Bytes × Value), keptFields fields = fields ↔
    fieldsPositional fields = true ∧ fieldsTerminated fields = true
  | [] => by simp [keptFields, fieldsPositional, fieldsTerminated]
  | (name, v) :: rest => by
    simp only [keptFields, fieldsPositional, fieldsTerminated, List.cons.injEq, Prod.mk.injEq,
      true_and, Bool.and_eq_true, kept_eq_iff v, keptFields_eq_iff rest]
    tauto
theorem keptElements_eq_iff : ∀ (i : Nat) (fields : List (Bytes × Value)),
    keptElements i fields = fields ↔
      elementsPositional i fields = true ∧ fieldsTerminated fields = true
  | _, [] => by simp [keptElements, elementsPositional, fieldsTerminated]
  | i, (name, v) :: rest => by
    simp only [keptElements, elementsPositional, fieldsTerminated, List.cons.injEq,
      Prod.mk.injEq, Bool.and_eq_true, decide_eq_true_eq, kept_eq_iff v,
      keptElements_eq_iff (i + 1) rest, @eq_comm _ (numStr i)]
    tauto
end

theorem unsigned_of_dates {l r : UInt64} (h : compareAsDates l r = .eq) :
    compareAsUnsigned l r = .eq := by
  have heq : l.toInt64 = r.toInt64 := Int64.toInt_inj.mp (compare_eq_iff_eq.mp h)
  obtain rfl : l = r := by simpa using congrArg Int64.toUInt64 heq
  exact compare_eq_iff_eq.mpr rfl

theorem dbRefBytes_inj {ln rn : Bytes} {lo ro : OID} (hlen : ln.length = rn.length)
    (h : dbRefBytes ln lo = dbRefBytes rn ro) : ln = rn ∧ lo = ro := by
  have hbytes : ln ++ ([0] ++ lo.bytes) = rn ++ ([0] ++ ro.bytes) := by
    simpa [dbRefBytes, hlen] using h
  obtain ⟨hns, hoid⟩ := List.append_inj hbytes hlen
  exact ⟨hns, OID.ext (List.cons.inj hoid).2⟩

mutual
/-- Values that compare equal are kept as values that do. -/
theorem compare_kept : ∀ l r : Value, l.canonicalType = r.canonicalType →
    compareElementValues compareAsDates l r = .eq →
    compareElementValues compareAsUnsigned (kept l) (kept r) = .eq
  | .object ls, r, hc, h => by
    cases r <;> simp [Value.canonicalType] at hc
    case object rs => exact woCompare_keptFields ls rs h
  | .array ls, r, hc, h => by
    cases r <;> simp [Value.canonicalType] at hc
    case array rs => exact woCompare_keptElements 0 ls rs h
  | .codeWScope lc ls, r, hc, h => by
    cases r <;> simp [Value.canonicalType] at hc
    case codeWScope rc rs =>
      obtain ⟨hcode, hscope⟩ := Ordering.then_eq_eq.mp h
      exact Ordering.then_eq_eq.mpr ⟨hcode, woCompare_keptFields ls rs hscope⟩
  | .dbRef ln lo, r, hc, h => by
    cases r <;> simp [Value.canonicalType] at hc
    case dbRef rn ro =>
      obtain ⟨hsize, hbytes⟩ := Ordering.then_eq_eq.mp h
      have hlen := Nat.compare_eq_eq.mp hsize
      obtain ⟨rfl, rfl⟩ := dbRefBytes_inj (by omega) (lex_eq_iff.mp hbytes)
      exact Ordering.then_eq_eq.mpr ⟨Nat.compare_eq_eq.mpr rfl, lex_self _⟩
  | .timestamp l, r, hc, h => by
    cases r <;> simp [Value.canonicalType] at hc
    case timestamp r => exact unsigned_of_dates h
  | .minKey, r, _, h | .maxKey, r, _, h | .undefined, r, _, h | .null, r, _, h
  | .numberDouble _, r, _, h | .numberInt _, r, _, h | .numberLong _, r, _, h
  | .string _, r, _, h | .symbol _, r, _, h | .binData _ _, r, _, h | .oid _, r, _, h
  | .bool _, r, _, h | .date _, r, _, h | .regEx _ _, r, _, h | .code _, r, _, h => by
    cases r <;> exact h
theorem woCompare_keptFields : ∀ l r : List (Bytes × Value), woCompare compareAsDates l r = .eq →
    woCompare compareAsUnsigned (keptFields l) (keptFields r) = .eq
  | [], [], _ => rfl
  | (ln, l) :: ls, (rn, r) :: rs, h => by
    simp only [woCompare_cons, Ordering.then_eq_eq, keptFields, canonicalType_kept] at h ⊢
    exact ⟨⟨h.1.1, h.1.2.1, compare_kept l r (compare_eq_iff_eq.mp h.1.1) h.1.2.2⟩,
      woCompare_keptFields ls rs h.2⟩
theorem woCompare_keptElements : ∀ (i : Nat) (l r : List (Bytes × Value)),
    woCompare compareAsDates l r = .eq →
    woCompare compareAsUnsigned (keptElements i l) (keptElements i r) = .eq
  | _, [], [], _ => rfl
  | i, (ln, l) :: ls, (rn, r) :: rs, h => by
    simp only [woCompare_cons, Ordering.then_eq_eq, keptElements, canonicalType_kept] at h ⊢
    exact ⟨⟨h.1.1, lex_self _, compare_kept l r (compare_eq_iff_eq.mp h.1.1) h.1.2.2⟩,
      woCompare_keptElements (i + 1) ls rs h.2⟩
end

theorem woCompareOrdered_keptFields {ord : KeyOrdering} {i : Nat} {l r : Obj}
    (h : woCompareOrdered compareAsDates ord i l r = .eq) :
    woCompareOrdered compareAsUnsigned ord i (keptFields l) (keptFields r) = .eq := by
  have hfield : ∀ o : Ordering, (if ord.descending i then o.swap else o) = .eq ↔ o = .eq := by
    intro o
    cases ord.descending i <;> cases o <;> simp
  match l, r with
  | [], [] => rfl
  | (_, l) :: ls, (_, r) :: rs =>
    simp only [keptFields, woCompareOrdered, Ordering.then_eq_eq, hfield, woCompareElement_eq,
      canonicalType_kept] at h ⊢
    exact ⟨⟨h.1.1, compare_kept l r (compare_eq_iff_eq.mp h.1.1) h.1.2⟩,
      woCompareOrdered_keptFields h.2⟩

/-! A key of which nothing is lost and whose timestamps are not negative as dates has one place in
both orders. -/

mutual
/-- No timestamp in the value is negative as a date. -/
def datable : Value → Bool
  | .timestamp t => decide (t.toNat < 2 ^ 63)
  | .object fields | .array fields | .codeWScope _ fields => fieldsDatable fields
  | _ => true
def fieldsDatable : List (Bytes × Value) → Bool
  | [] => true
  | (_, v) :: rest => datable v && fieldsDatable rest
end

theorem dates_eq_unsigned {l r : UInt64} (hl : l.toNat < 2 ^ 63) (hr : r.toNat < 2 ^ 63) :
    compareAsDates l r = compareAsUnsigned l r := by
  have hint : ∀ t : UInt64, t.toNat < 2 ^ 63 → t.toInt64.toInt = t.toNat := by
    intro t ht
    exact BitVec.toInt_eq_toNat_of_lt (x := t.toBitVec) (by change 2 * t.toNat < _; omega)
  rw [compareAsDates, hint l hl, hint r hr, compareAsUnsigned, compare_natCast]

mutual
theorem compare_datable : ∀ l r : Value, datable l = true → datable r = true →
    compareElementValues compareAsDates l r = compareElementValues compareAsUnsigned l r
  | .object ls, r, hl, hr => by
    cases r
    case object rs => exact woCompare_datable ls rs hl hr
    all_goals simp only [compareElementValues]
  | .array ls, r, hl, hr => by
    cases r
    case array rs => exact woCompare_datable ls rs hl hr
    all_goals simp only [compareElementValues]
  | .codeWScope lc ls, r, hl, hr => by
    cases r
    case codeWScope rc rs => exact congrArg (lex lc rc).then (woCompare_datable ls rs hl hr)
    all_goals simp only [compareElementValues]
  | .timestamp l, r, hl, hr => by
    cases r
    case timestamp r => exact dates_eq_unsigned (of_decide_eq_true hl) (of_decide_eq_true hr)
    all_goals simp only [compareElementValues]
  | .minKey, r, _, _ | .maxKey, r, _, _ | .undefined, r, _, _ | .null, r, _, _
  | .numberDouble _, r, _, _ | .numberInt _, r, _, _ | .numberLong _, r, _, _
  | .string _, r, _, _ | .symbol _, r, _, _ | .binData _ _, r, _, _ | .oid _, r, _, _
  | .bool _, r, _, _ | .date _, r, _, _ | .regEx _ _, r, _, _ | .code _, r, _, _
  | .dbRef _ _, r, _, _ => by
    cases r <;> simp only [compareElementValues]
theorem woCompare_datable : ∀ l r : List (Bytes × Value), fieldsDatable l = true →
    fieldsDatable r = true → woCompare compareAsDates l r = woCompare compareAsUnsigned l r
  | [], [], _, _ | [], _ :: _, _, _ | _ :: _, [], _, _ => rfl
  | (_, l) :: ls, (_, r) :: rs, hl, hr => by
    obtain ⟨hl, hls⟩ := Bool.and_eq_true_iff.mp hl
    obtain ⟨hr, hrs⟩ := Bool.and_eq_true_iff.mp hr
    rw [woCompare_cons, woCompare_cons, compare_datable l r hl hr, woCompare_datable ls rs hls hrs]
end

theorem woCompareElement_datable {l r : Value} (hl : datable l = true) (hr : datable r = true) :
    woCompareElement compareAsDates l r = woCompareElement compareAsUnsigned l r := by
  rw [woCompareElement_eq, woCompareElement_eq, compare_datable l r hl hr]

theorem woCompareOrdered_datable (ord : KeyOrdering) : ∀ (i : Nat) (l r : Obj),
    fieldsDatable l = true → fieldsDatable r = true →
    woCompareOrdered compareAsDates ord i l r = woCompareOrdered compareAsUnsigned ord i l r
  | _, [], [], _, _ | _, [], _ :: _, _, _ | _, _ :: _, [], _, _ => rfl
  | i, (_, l) :: ls, (_, r) :: rs, hl, hr => by
    obtain ⟨hl, hls⟩ := Bool.and_eq_true_iff.mp hl
    obtain ⟨hr, hrs⟩ := Bool.and_eq_true_iff.mp hr
    rw [woCompareOrdered, woCompareOrdered, woCompareElement_datable hl hr,
      woCompareOrdered_datable ord (i + 1) ls rs hls hrs]

end MongolDb.KeyString
