import MongolDb.Bson.Order

/-! Keys under an ordering, whose fields may descend, are ordered too. -/
namespace MongolDb.Bson
open ThreeWay

section
variable {ord : KeyOrdering}

theorem chained_woCompareOrdered (i : Nat) (a b c : Obj) :
    Chained (woCompareOrdered compareAsDates ord i a b) (woCompareOrdered compareAsDates ord i b c)
      (woCompareOrdered compareAsDates ord i a c) := by
  induction a generalizing i b c with
  | nil =>
    cases b with
    | nil | cons => cases c <;> simp [woCompareOrdered]
  | cons x a ih =>
    cases b with
    | nil => cases c <;> simp [woCompareOrdered]
    | cons y b =>
      cases c with
      | nil => simp [woCompareOrdered]
      | cons z c =>
        simp only [woCompareOrdered]
        refine Chained.then ?_ fun _ _ => ih (i + 1) b c
        have hvalues : Chained (x.2.woCompare y.2) (y.2.woCompare z.2) (x.2.woCompare z.2) :=
          chained_of_transCmp _ _ _
        cases ord.descending i with
        | false => exact hvalues
        | true => exact hvalues.swap

theorem woCompareOrdered_swap (i : Nat) (a b : Obj) :
    (woCompareOrdered compareAsDates ord i a b).swap =
      woCompareOrdered compareAsDates ord i b a := by
  induction a generalizing i b with
  | nil => cases b <;> rfl
  | cons x a ih =>
    cases b with
    | nil => rfl
    | cons y b =>
      have hvalues : (x.2.woCompare y.2).swap = y.2.woCompare x.2 :=
        (@Std.OrientedCmp.eq_swap _ Value.woCompare _ y.2 x.2).symm
      simp only [woCompareOrdered, Ordering.swap_then, ih]
      congr 1
      change (if ord.descending i then (x.2.woCompare y.2).swap else x.2.woCompare y.2).swap =
        if ord.descending i then (y.2.woCompare x.2).swap else y.2.woCompare x.2
      rw [← hvalues]
      cases ord.descending i <;> simp

instance (ord : KeyOrdering) (i : Nat) : Std.TransCmp (woCompareOrdered compareAsDates ord i) :=
  transCmp_of_chained (woCompareOrdered_swap i) (chained_woCompareOrdered i)

end

end MongolDb.Bson
