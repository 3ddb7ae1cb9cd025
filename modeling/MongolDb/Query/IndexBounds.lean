import MongolDb.Bson.Order
import MongolDb.Lib.Intervals

/-! Bounds on the fields of an index and their validity (query/interval.h, query/index_bounds.cpp).
Simple ranges, which bounds can hold in place of lists of intervals, are left out. -/
namespace MongolDb.Query
open ByteOrder Bson ThreeWay Intervals

/-- The intervals of one field, in the order of the scan. -/
structure OrderedIntervalList where
  name : Bytes
  intervals : List (Interval Value)

/-- One list of intervals for each field of the index. -/
structure IndexBounds where
  fields : List OrderedIntervalList

/-- The two directions of a scan, 1 and -1, and of a field of an index. -/
inductive Direction where
  | forward
  | backward
  deriving DecidableEq

namespace Direction

def mul : Direction → Direction → Direction
  | .forward, d => d
  | .backward, .forward => .backward
  | .backward, .backward => .forward

/-- The sign of a comparison that goes in this direction. -/
def sign : Direction → Ordering
  | .forward => .gt
  | .backward => .lt

end Direction

/-- `elt.number() >= 0`, which is false for NaN. -/
def numberIsNonNegative : Value → Bool
  | .numberInt n | .numberLong n => decide (0 ≤ n)
  | .numberDouble d => !d.isNaN && !d.lt (Binary64.ofNat 0)
  | _ => true

/-- The direction in which the checks take a field of a key pattern to be indexed. -/
def indexDirection (elt : Bytes × Value) : Direction :=
  if numberIsNonNegative elt.2 then .forward else .backward

/-- The first loop of `OrderedIntervalList::isValidFor`: each start against its end. -/
def startsBeforeEnd (expectedOrientation : Direction) (interval : Interval Value) : Bool :=
  let cmp := interval.stop.woCompare interval.start
  if cmp = .eq && interval.startInclusive && interval.stopInclusive then true
  else cmp = expectedOrientation.sign

/-- The second loop: each interval against its neighbour. -/
def neighboursInOrder (expectedOrientation : Direction) : List (Interval Value) → Bool
  | previous :: next :: rest =>
    let cmp := next.start.woCompare previous.stop
    (cmp = .eq || cmp = expectedOrientation.sign) &&
      neighboursInOrder expectedOrientation (next :: rest)
  | _ => true

def OrderedIntervalList.isValidFor (oil : OrderedIntervalList) (expectedOrientation : Direction) :
    Bool :=
  oil.intervals.all (startsBeforeEnd expectedOrientation) &&
    neighboursInOrder expectedOrientation oil.intervals

/-- The loop of `IndexBounds::isValidFor`. -/
def fieldsValidFor (direction : Direction) : List OrderedIntervalList → Obj → Bool
  | field :: fields, elt :: pattern =>
    field.name = elt.1 && field.isValidFor (direction.mul (indexDirection elt)) &&
      fieldsValidFor direction fields pattern
  | [], [] => true
  | _, _ => false

def IndexBounds.isValidFor (bounds : IndexBounds) (keyPattern : Obj) (direction : Direction) :
    Bool :=
  fieldsValidFor direction bounds.fields keyPattern

/-! The order in which a scan meets the values of a field. -/

def scanCompare (d : Direction) (l r : Value) : Ordering :=
  match d with
  | .forward => l.woCompare r
  | .backward => r.woCompare l

instance (d : Direction) : Std.TransCmp (scanCompare d) := by
  apply transCmp_of_chained
  · intro a b
    cases d <;> exact (@Std.OrientedCmp.eq_swap _ Value.woCompare _ _ _).symm
  · intro a b c
    cases d
    · exact @chained_of_transCmp _ Value.woCompare _ a b c
    · have key : ∀ x y z : Ordering, Chained x y z → Chained y x z := by decide
      exact key _ _ _ (@chained_of_transCmp _ Value.woCompare _ c b a)

/-- The place of a value among those that a scan in this direction meets. -/
noncomputable abbrev place (d : Direction) : Value → Class (scanCompare d) := classOf (scanCompare d)

variable {d : Direction} {l r : Value}

theorem woCompare_eq_sign : l.woCompare r = d.sign ↔ place d r < place d l := by
  rw [classOf_lt]
  cases d
  · rw [scanCompare, @Std.OrientedCmp.eq_swap _ Value.woCompare _ l r]
    cases r.woCompare l <;> simp [Direction.sign]
  · rfl

theorem woCompare_eq_swap_sign : l.woCompare r = d.sign.swap ↔ place d l < place d r := by
  rw [classOf_lt]
  cases d
  · rfl
  · rw [scanCompare, @Std.OrientedCmp.eq_swap _ Value.woCompare _ l r]
    cases r.woCompare l <;> simp [Direction.sign]

theorem woCompare_eq_eq : l.woCompare r = .eq ↔ place d l = place d r := by
  rw [classOf_eq]
  cases d
  · rfl
  · rw [scanCompare, @Std.OrientedCmp.eq_swap _ Value.woCompare _ l r]
    cases r.woCompare l <;> simp

theorem runs_of_startsBeforeEnd {interval : Interval Value} (h : startsBeforeEnd d interval) :
    interval.Runs (place d) := by
  rw [startsBeforeEnd] at h
  split at h
  next hpoint =>
    simp only [Bool.and_eq_true, decide_eq_true_eq] at hpoint
    exact .inr ⟨(woCompare_eq_eq.mp hpoint.1.1).symm, hpoint.1.2, hpoint.2⟩
  · exact .inl (woCompare_eq_sign.mp (by simpa using h))

/-- Valid lists of intervals are in the order of the scan. -/
theorem ordered_of_isValidFor {oil : OrderedIntervalList} (h : oil.isValidFor d) :
    Ordered (place d) oil.intervals := by
  rw [OrderedIntervalList.isValidFor, Bool.and_eq_true, List.all_eq_true] at h
  obtain ⟨hruns, hneighbours⟩ := h
  have hruns : ∀ I ∈ oil.intervals, I.Runs (place d) :=
    fun I hI => runs_of_startsBeforeEnd (hruns I hI)
  refine ⟨hruns, ?_⟩
  generalize oil.intervals = l at hruns hneighbours
  induction l with
  | nil => exact .nil
  | cons I l ih =>
    cases l with
    | nil => exact List.pairwise_singleton _ _
    | cons J l =>
      simp only [neighboursInOrder, Bool.and_eq_true, Bool.or_eq_true, decide_eq_true_eq] at hneighbours
      have htail := ih (List.forall_mem_cons.mp hruns).2 hneighbours.2
      have hIJ : place d I.stop ≤ place d J.start := by
        rcases hneighbours.1 with heq | hlt
        · exact (woCompare_eq_eq.mp heq).ge
        · exact (woCompare_eq_sign.mp hlt).le
      refine List.pairwise_cons.mpr ⟨?_, htail⟩
      intro K hK
      rcases List.mem_cons.mp hK with rfl | hK
      · exact hIJ
      · -- the interval in between runs forward
        have hJ := (hruns J (by simp)).le
        exact hIJ.trans (hJ.trans ((List.pairwise_cons.mp htail).1 K hK))

end MongolDb.Query
