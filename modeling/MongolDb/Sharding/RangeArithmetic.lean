import MongolDb.Lib.Ranges

/-! Maps of key ranges (db/range_arithmetic.cpp). Keys are shard keys in the order of
`BSONObj::woCompare`; keys that compare as equal are not told apart. -/
namespace MongolDb.Sharding
open Ranges List

/-- A map from the start of each range to its end. -/
abbrev RangeMap (κ : Type) [LinearOrder κ] := SortedMap κ κ

section
variable {κ : Type} [LinearOrder κ] (ranges : RangeMap κ) (k inclusiveLower exclusiveUpper : κ)

def rangeContains (inclusiveLower exclusiveUpper point : κ) : Bool :=
  inclusiveLower ≤ point && point < exclusiveUpper

/-- An iterator into a map: how many entries come before it. -/
def lowerBound : Nat :=
  (ranges.entries.takeWhile fun e => decide (e.1 < k)).length

def upperBound : Nat :=
  (ranges.entries.takeWhile fun e => decide (e.1 ≤ k)).length

/-- The range before `upper_bound`. -/
def lowerRange : Option (κ × κ) :=
  (ranges.entries.take (upperBound ranges k)).getLast?

/-- The range at `upper_bound`. -/
def upperRange : Option (κ × κ) :=
  (ranges.entries.drop (upperBound ranges k)).head?

def rangeMapOverlapBounds : Nat × Nat :=
  let low := lowerBound ranges inclusiveLower
  let low :=
    match (ranges.entries.take low).getLast? with
    -- the previous range may overlap
    | some prev => if prev.2 ≤ inclusiveLower then low else low - 1
    | none => low
  (low, lowerBound ranges exclusiveUpper)

/-- `getRangeMapOverlap`; nothing if the loop passes the end of the map. -/
def getRangeMapOverlap : Option (List (κ × κ)) :=
  let (low, high) := rangeMapOverlapBounds ranges inclusiveLower exclusiveUpper
  if low ≤ high then some ((ranges.entries.drop low).take (high - low)) else none

def rangeMapOverlaps : Bool :=
  let (low, high) := rangeMapOverlapBounds ranges inclusiveLower exclusiveUpper
  low ≠ high

def rangeMapContains : Bool :=
  let (low, _) := rangeMapOverlapBounds ranges inclusiveLower exclusiveUpper
  match ranges.entries[low]? with
  | none => false
  | some e => e.1 = inclusiveLower && e.2 = exclusiveUpper

end

section Overlap
variable {κ : Type} [LinearOrder κ] {ranges : RangeMap κ} {lower upper k : κ}

/-- Of the ranges that start up to the key, the one before `upper_bound` ends last. -/
theorem lowerRange_spec (h : Apart ranges.entries) (k : κ) :
    match lowerRange ranges k with
    | some lower => (lower ∈ ranges.entries ∧ lower.1 ≤ k) ∧ IsGreatest (stops ranges.entries k) lower.2
    | none => stops ranges.entries k = ∅ := by
  have hmem : ∀ {e}, e ∈ ranges.entries ∧ e.1 ≤ k ↔
      e ∈ ranges.entries.filter fun e => decide (e.1 ≤ k) := by simp
  rw [lowerRange, upperBound, take_takeWhile (ranges.sorted_le k)]
  split
  next lower hlower =>
    obtain ⟨hin, hlast⟩ := SortedMap.getLast_greatest (ranges.sorted.filter _) hlower
    have hin := hmem.mpr hin
    refine ⟨hin, ⟨lower, hin.1, hin.2, rfl⟩, ?_⟩
    rintro x ⟨e, he, hek, rfl⟩
    rcases hlast e (hmem.mp ⟨he, hek⟩) with rfl | hlt
    · exact le_rfl
    · exact (h.apart e he lower hin.1 hlt).trans (h.nonempty lower hin.1).le
  next hlower =>
    rw [Set.eq_empty_iff_forall_notMem]
    rintro x ⟨e, he, hek, rfl⟩
    cases getLast?_eq_none_iff.mp hlower ▸ hmem.mp ⟨he, hek⟩

theorem upperRange_spec (ranges : RangeMap κ) (k : κ) :
    match upperRange ranges k with
    | some upper => IsLeast (starts ranges.entries k) upper.1
    | none => starts ranges.entries k = ∅ := by
  have hmem : ∀ {e}, e ∈ ranges.entries ∧ k < e.1 ↔
      e ∈ ranges.entries.filter fun e => !decide (e.1 ≤ k) := by simp
  rw [upperRange, upperBound, drop_takeWhile (ranges.sorted_le k)]
  split
  next upper hupper =>
    obtain ⟨hin, hfirst⟩ := SortedMap.head_least (ranges.sorted.filter _) hupper
    have hin := hmem.mpr hin
    refine ⟨⟨upper, hin.1, hin.2, rfl⟩, ?_⟩
    rintro x ⟨e, he, hek, rfl⟩
    rcases hfirst e (hmem.mp ⟨he, hek⟩) with rfl | hlt
    · exact le_rfl
    · exact hlt.le
  next hupper =>
    rw [Set.eq_empty_iff_forall_notMem]
    rintro x ⟨e, he, hek, rfl⟩
    cases head?_eq_none_iff.mp hupper ▸ hmem.mp ⟨he, hek⟩

theorem owns_iff_lowerRange (h : Apart ranges.entries) :
    Owns ranges.entries k ↔ ∃ lower ∈ lowerRange ranges k, InRange lower k := by
  have hspec := lowerRange_spec h k
  constructor
  · rintro ⟨e, he, hek⟩
    have hstop : e.2 ∈ stops ranges.entries k := ⟨e, he, hek.1, rfl⟩
    split at hspec
    next lower hlower => exact ⟨lower, hlower, hspec.1.2, hek.2.trans_le (hspec.2.2 hstop)⟩
    next => cases hspec ▸ hstop
  · rintro ⟨lower, hlower, hk⟩
    rw [Option.mem_def.mp hlower] at hspec
    exact ⟨lower, hspec.1.1, hk⟩

/-- The entries that share a key with the range. -/
def overlapping (l : List (κ × κ)) (lower upper : κ) : List (κ × κ) :=
  l.filter fun e => decide (e.1 < upper) && decide (lower < e.2)

theorem free_iff_overlapping {l : List (κ × κ)} :
    Free l (lower, upper) ↔ overlapping l lower upper = [] := by
  simp only [Free, overlapping, filter_eq_nil_iff, Bool.and_eq_true, decide_eq_true_eq, not_and,
    not_lt]
  constructor
  · intro h e he hlt
    rcases h e he with hle | hle
    · exact hle
    · exact absurd hlt (not_lt.mpr hle)
  · intro h e he
    rcases lt_or_ge e.1 upper with hlt | hge
    · exact .inl (h e he hlt)
    · exact .inr hge

theorem lowerBound_eq (ranges : RangeMap κ) (k : κ) :
    lowerBound ranges k = (ranges.entries.filter fun e => decide (e.1 < k)).length := by
  rw [lowerBound, Ranges.takeWhile_eq_filter (ranges.sorted_lt k)]

section
variable (h : Apart ranges.entries)
include h

theorem sorted_stop (k : κ) :
    ranges.entries.Pairwise fun a b => decide (b.2 ≤ k) = true → decide (a.2 ≤ k) = true := by
  refine ranges.sorted.imp_of_mem fun {a b} ha hb hab hk => decide_eq_true ?_
  exact (h.apart a ha b hb hab).trans ((h.nonempty b hb).le.trans (of_decide_eq_true hk))

/-- Of the ranges that start before `lower` only the last can end after it. -/
theorem overlapBounds_fst : (rangeMapOverlapBounds ranges lower upper).1 =
      (ranges.entries.takeWhile fun e => decide (e.2 ≤ lower)).length := by
  have hmem : ∀ e ∈ ranges.entries.filter fun e => decide (e.1 < lower),
      e ∈ ranges.entries ∧ e.1 < lower := by
    intro e he
    simpa using he
  have hends : (ranges.entries.filter fun e => decide (e.2 ≤ lower)) =
      (ranges.entries.filter fun e => decide (e.1 < lower)).filter fun e => decide (e.2 ≤ lower) := by
    rw [filter_filter]
    refine filter_congr fun e he => ?_
    by_cases hle : e.2 ≤ lower
    · simp [hle, (h.nonempty e he).trans_le hle]
    · simp [hle]
  have hsorted := ranges.sorted.filter fun e => decide (e.1 < lower)
  rw [rangeMapOverlapBounds, lowerBound, Ranges.take_takeWhile (ranges.sorted_lt lower),
    Ranges.takeWhile_eq_filter (ranges.sorted_lt lower),
    Ranges.takeWhile_eq_filter (sorted_stop h lower), hends]
  generalize (ranges.entries.filter fun e => decide (e.1 < lower)) = A at *
  rcases eq_nil_or_concat' A with rfl | ⟨A', prev, rfl⟩
  · rfl
  · have hprev := hmem prev (by simp)
    have hbefore : (A'.filter fun e => decide (e.2 ≤ lower)) = A' := by
      rw [filter_eq_self]
      intro e he
      have hlt := (pairwise_append.mp hsorted).2.2 e he prev (mem_singleton_self prev)
      have hle := h.apart e (hmem e (by simp [he])).1 prev hprev.1 hlt
      exact decide_eq_true (hle.trans hprev.2.le)
    rw [getLast?_concat, filter_append, hbefore]
    by_cases hle : prev.2 ≤ lower <;> simp [hle]

theorem overlapBounds_spec (hlt : lower < upper) :
    (rangeMapOverlapBounds ranges lower upper).1 ≤ (rangeMapOverlapBounds ranges lower upper).2 ∧
    (ranges.entries.drop (rangeMapOverlapBounds ranges lower upper).1).take
        ((rangeMapOverlapBounds ranges lower upper).2 - (rangeMapOverlapBounds ranges lower upper).1) =
      overlapping ranges.entries lower upper := by
  have hsplit := Ranges.filter_append_filter (sorted_stop h lower)
  have hsorted := (ranges.sorted_lt upper).filter fun e => !decide (e.2 ≤ lower)
  have hover : overlapping ranges.entries lower upper =
      (ranges.entries.filter fun e => !decide (e.2 ≤ lower)).filter
        fun e => decide (e.1 < upper) := by
    rw [filter_filter, overlapping]
    refine filter_congr fun e _ => ?_
    simp [← not_le]
  have hfirst : ((ranges.entries.filter fun e => decide (e.2 ≤ lower)).filter
      fun e => decide (e.1 < upper)) = ranges.entries.filter fun e => decide (e.2 ≤ lower) := by
    rw [filter_eq_self]
    intro e he
    obtain ⟨hmem, hle⟩ := mem_filter.mp he
    exact decide_eq_true (((h.nonempty e hmem).trans_le (of_decide_eq_true hle)).trans hlt)
  have hhigh : (rangeMapOverlapBounds ranges lower upper).2 =
      (ranges.entries.filter fun e => decide (e.2 ≤ lower)).length +
        (overlapping ranges.entries lower upper).length := by
    rw [hover, ← length_append]
    nth_rewrite 1 [← hfirst]
    rw [← filter_append, hsplit]
    exact lowerBound_eq ranges upper
  rw [hhigh, overlapBounds_fst h, Ranges.drop_takeWhile (sorted_stop h lower),
    Ranges.takeWhile_eq_filter (sorted_stop h lower), Nat.add_sub_cancel_left, hover,
    ← Ranges.takeWhile_eq_filter hsorted]
  refine ⟨Nat.le_add_right _ _, ?_⟩
  rw [Ranges.take_takeWhile hsorted, Ranges.takeWhile_eq_filter hsorted]

theorem getRangeMapOverlap_eq (hlt : lower < upper) :
    getRangeMapOverlap ranges lower upper = some (overlapping ranges.entries lower upper) := by
  obtain ⟨hle, hslice⟩ := overlapBounds_spec h hlt
  rw [getRangeMapOverlap]
  dsimp only
  rw [if_pos hle, hslice]

theorem free_of_not_overlaps (hlt : lower < upper)
    (hfree : rangeMapOverlaps ranges lower upper = false) : Free ranges.entries (lower, upper) := by
  obtain ⟨-, hslice⟩ := overlapBounds_spec h hlt
  rw [rangeMapOverlaps] at hfree
  have heq : (rangeMapOverlapBounds ranges lower upper).1 =
      (rangeMapOverlapBounds ranges lower upper).2 := by simpa using hfree
  rw [free_iff_overlapping, ← hslice, heq, Nat.sub_self, take_zero]

end

/-- An empty range overlaps at most with the range it lies in. -/
theorem length_getRangeMapOverlap {overlap : List (κ × κ)} (hle : upper ≤ lower)
    (h : getRangeMapOverlap ranges lower upper = some overlap) : overlap.length ≤ 1 := by
  have hbound : (rangeMapOverlapBounds ranges lower upper).2 ≤
      (rangeMapOverlapBounds ranges lower upper).1 + 1 := by
    have hmono : lowerBound ranges upper ≤ lowerBound ranges lower := by
      simp only [lowerBound_eq]
      refine (monotone_filter_right ranges.entries ?_).length_le
      intro e he
      exact decide_eq_true ((of_decide_eq_true he).trans_le hle)
    rw [rangeMapOverlapBounds]
    split
    · split
      · exact Nat.le_succ_of_le hmono
      · exact hmono.trans (Nat.le_add_of_sub_le le_rfl)
    · exact Nat.le_succ_of_le hmono
  rw [getRangeMapOverlap] at h
  dsimp only at h
  split at h
  · cases h
    rw [length_take]
    omega
  · cases h

theorem mem_of_rangeMapContains (h : rangeMapContains ranges lower upper) :
    (lower, upper) ∈ ranges.entries := by
  rw [rangeMapContains] at h
  dsimp only at h
  split at h
  · cases h
  next e he =>
    simp only [Bool.and_eq_true, decide_eq_true_eq] at h
    obtain ⟨rfl, rfl⟩ := h
    exact mem_of_getElem? he

end Overlap

end MongolDb.Sharding
