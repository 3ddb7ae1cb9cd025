import Mathlib.Order.Antisymmetrization

/-! Comparison functions with three outcomes that order a type up to equivalence, and the linear
order of the equivalence classes. -/
namespace ThreeWay

/-- What the outcomes of comparing `a` with `b`, `b` with `c` and `a` with `c` have to do with
each other when the comparison is an order. -/
def Chained (x y z : Ordering) : Prop :=
  (x = .eq → z = y) ∧ (y = .eq → z = x) ∧ (x = .lt → y = .lt → z = .lt) ∧
    (x = .gt → y = .gt → z = .gt)

instance (x y z : Ordering) : Decidable (Chained x y z) := by
  unfold Chained
  infer_instance

/-- Comparing by a first criterion and, where it finds no difference, by a second one. -/
theorem Chained.then {x y z x' y' z' : Ordering} (h : Chained x y z)
    (h' : x = .eq → y = .eq → Chained x' y' z') :
    Chained (x.then x') (y.then y') (z.then z') := by
  revert x y z x' y' z'
  decide

theorem Chained.swap {x y z : Ordering} (h : Chained x y z) : Chained x.swap y.swap z.swap := by
  revert x y z
  decide

/-! Where the shorter of two sequences ends, the outcome is known without looking further. -/

@[simp] theorem chained_eq_left (o : Ordering) : Chained .eq o o := by cases o <;> decide

@[simp] theorem chained_eq_right (o : Ordering) : Chained o .eq o := by cases o <;> decide

@[simp] theorem chained_lt_left (o : Ordering) : Chained .lt o .lt := by cases o <;> decide

@[simp] theorem chained_gt_right (o : Ordering) : Chained o .gt .gt := by cases o <;> decide

@[simp] theorem chained_lt_gt (o : Ordering) : Chained .lt .gt o := by cases o <;> decide

@[simp] theorem chained_gt_lt (o : Ordering) : Chained .gt .lt o := by cases o <;> decide

/-- Two comparisons come out alike if they agree on what is less. -/
theorem compare_congr {α β : Type*} [LinearOrder α] [LinearOrder β] {a b : α} {c d : β}
    (hlt : a < b ↔ c < d) (hgt : b < a ↔ d < c) : compare a b = compare c d := by
  rcases lt_trichotomy a b with h | h | h
  · rw [compare_lt_iff_lt.mpr h, compare_lt_iff_lt.mpr (hlt.mp h)]
  · have hcd : c = d := le_antisymm (not_lt.mp (mt hgt.mpr h.not_gt)) (not_lt.mp (mt hlt.mpr h.not_lt))
    rw [compare_eq_iff_eq.mpr h, compare_eq_iff_eq.mpr hcd]
  · rw [compare_gt_iff_gt.mpr h, compare_gt_iff_gt.mpr (hgt.mp h)]

theorem chained_compare {α : Type*} [LinearOrder α] (a b c : α) :
    Chained (compare a b) (compare b c) (compare a c) := by
  refine ⟨?_, ?_, ?_, ?_⟩
  · intro h
    rw [compare_eq_iff_eq.mp h]
  · intro h
    rw [compare_eq_iff_eq.mp h]
  · intro h h'
    exact compare_lt_iff_lt.mpr ((compare_lt_iff_lt.mp h).trans (compare_lt_iff_lt.mp h'))
  · intro h h'
    exact compare_gt_iff_gt.mpr ((compare_gt_iff_gt.mp h').trans (compare_gt_iff_gt.mp h))

/-- The laws of an order, from the symmetry of the outcomes and from how they chain. -/
theorem transCmp_of_chained {α : Type*} {cmp : α → α → Ordering}
    (hs : ∀ a b, (cmp a b).swap = cmp b a)
    (hc : ∀ a b c, Chained (cmp a b) (cmp b c) (cmp a c)) : Std.TransCmp cmp where
  eq_swap := by
    intro a b
    exact (hs b a).symm
  isLE_trans := by
    intro a b c
    have key : ∀ x y z, Chained x y z → x.isLE → y.isLE → z.isLE := by decide
    exact key _ _ _ (hc a b c)

/-- The outcomes of an order chain. -/
theorem chained_of_transCmp {α : Type*} {cmp : α → α → Ordering} [Std.TransCmp cmp] (a b c : α) :
    Chained (cmp a b) (cmp b c) (cmp a c) := by
  refine ⟨?_, ?_, ?_, ?_⟩
  · intro h
    exact Std.TransCmp.congr_left h
  · intro h
    exact (Std.TransCmp.congr_right h).symm
  · intro h h'
    exact Std.TransCmp.lt_trans h h'
  · intro h h'
    exact Std.TransCmp.gt_trans h h'

section
variable {α : Type*} (cmp : α → α → Ordering) [Std.TransCmp cmp]

/-- A value, as a member of the order that `cmp` decides. -/
structure Carrier (cmp : α → α → Ordering) where
  value : α

instance : Preorder (Carrier cmp) where
  le a b := (cmp a.value b.value).isLE = true
  le_refl a := by
    rw [@Std.ReflCmp.compare_self _ cmp]
    rfl
  le_trans _ _ _ hab hbc := @Std.TransCmp.isLE_trans _ cmp _ _ _ _ hab hbc

instance : Std.Total (α := Carrier cmp) (· ≤ ·) where
  total a b := by
    change (cmp a.value b.value).isLE = true ∨ (cmp b.value a.value).isLE = true
    rw [@Std.OrientedCmp.eq_swap _ cmp _ b.value]
    cases cmp a.value b.value <;> simp

/-- The values between which the comparison sees no difference. -/
abbrev Class : Type _ := Antisymmetrization (Carrier cmp) (· ≤ ·)

noncomputable instance : LinearOrder (Class cmp) := by
  classical
  infer_instance

def classOf (a : α) : Class cmp := toAntisymmetrization (· ≤ ·) ⟨a⟩

variable {cmp} {a b : α}

theorem classOf_le : classOf cmp a ≤ classOf cmp b ↔ cmp a b ≠ .gt := by
  change (cmp a b).isLE = true ↔ _
  cases cmp a b <;> simp

theorem classOf_lt : classOf cmp a < classOf cmp b ↔ cmp a b = .lt := by
  rw [← not_le, classOf_le, @Std.OrientedCmp.eq_swap _ cmp _ b]
  cases cmp a b <;> simp

theorem classOf_eq : classOf cmp a = classOf cmp b ↔ cmp a b = .eq := by
  rw [le_antisymm_iff, classOf_le, classOf_le, @Std.OrientedCmp.eq_swap _ cmp _ b]
  cases cmp a b <;> simp

end

end ThreeWay
