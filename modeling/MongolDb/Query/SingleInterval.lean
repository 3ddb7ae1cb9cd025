import MongolDb.Query.RangePredicates
import MongolDb.Query.SkipScan

/-! Bounds that come down to one range of keys (`isSingleInterval` in
query/index_bounds_builder.cpp). -/
namespace MongolDb.Query
open Bson ThreeWay Intervals

namespace IndexBoundsBuilder

def isPoint (I : Interval Value) : Bool :=
  I.startInclusive && I.stopInclusive && I.start.woCompare I.stop = .eq

def equals (I J : Interval Value) : Bool :=
  I.startInclusive = J.startInclusive && I.stopInclusive = J.stopInclusive &&
    I.start.woCompare J.start = .eq && I.stop.woCompare J.stop = .eq

def reverse (I : Interval Value) : Interval Value :=
  ⟨I.stop, I.stopInclusive, I.start, I.startInclusive⟩

/-- The last loop of `isSingleInterval`: what the fields after the range append to the keys. -/
def appendAllValues (startKeyInclusive endKeyInclusive : Bool) :
    List OrderedIntervalList → Option (IndexKey × IndexKey)
  | [] => some ([], [])
  | ⟨_, [interval]⟩ :: fields =>
    if equals interval allValues then
      (appendAllValues startKeyInclusive endKeyInclusive fields).map fun keys =>
        ((if !startKeyInclusive then .maxKey else .minKey) :: keys.1,
          (if !endKeyInclusive then .minKey else .maxKey) :: keys.2)
    else if equals interval (reverse allValues) then
      (appendAllValues startKeyInclusive endKeyInclusive fields).map fun keys =>
        ((if !startKeyInclusive then .minKey else .maxKey) :: keys.1,
          (if !endKeyInclusive then .maxKey else .minKey) :: keys.2)
    else none
  | _ => none

/-- `isSingleInterval` from one field on: points, then a range, then fields with all values. -/
def singleInterval : List OrderedIntervalList → Option (Interval IndexKey)
  | [] => some ⟨[], true, [], true⟩
  | ⟨_, [interval]⟩ :: fields =>
    if isPoint interval then
      (singleInterval fields).map fun keys =>
        ⟨interval.start :: keys.start, keys.startInclusive, interval.stop :: keys.stop,
          keys.stopInclusive⟩
    else
      (appendAllValues interval.startInclusive interval.stopInclusive fields).map fun keys =>
        ⟨interval.start :: keys.1, interval.startInclusive, interval.stop :: keys.2,
          interval.stopInclusive⟩
  | _ => none

def isSingleInterval (bounds : IndexBounds) : Option (Interval IndexKey) :=
  singleInterval bounds.fields

end IndexBoundsBuilder

/-- The direction in which a scan meets the values of each field. -/
def directions (direction : Direction) (keyPattern : Obj) : List Direction :=
  keyPattern.map fun elt => (indexDirection elt).mul direction

/-- Keys in the compound order: the first field that differs decides, in its direction. -/
def compareKeys : List Direction → IndexKey → IndexKey → Ordering
  | d :: ds, v :: key, w :: key' => (scanCompare d v w).then (compareKeys ds key key')
  | _, _, _ => .eq

/-- With this outcome of a comparison the end of a range is kept. -/
def keeps (inclusive : Bool) (o : Ordering) : Bool := o = .gt || (o = .eq && inclusive)

/-- The key lies between the two keys of a range. -/
def liesBetween (ds : List Direction) (range : Interval IndexKey) (key : IndexKey) : Bool :=
  keeps range.startInclusive (compareKeys ds key range.start) &&
    keeps range.stopInclusive (compareKeys ds range.stop key)

open IndexBoundsBuilder

section
variable {d direction : Direction} {I : Interval Value} {v : Value} {pattern : Obj}
  {fields : List OrderedIntervalList} {key : IndexKey} {inclusive : Bool}

/-- What follows the range never decides whether its end is kept. -/
theorem keeps_then {o o' : Ordering} (h : o' ≠ if inclusive then .lt else .gt) :
    keeps inclusive (o.then o') = keeps inclusive o := by
  revert inclusive o o'
  decide

theorem then_ne {o o' p : Ordering} (h : o ≠ p) (h' : o' ≠ p) : o.then o' ≠ p := by
  revert o o' p
  decide

theorem lies_eq (hI : I.Runs (place d)) : lies I v =
    (keeps I.startInclusive (scanCompare d v I.start) &&
      keeps I.stopInclusive (scanCompare d I.stop v)) := by
  rw [Bool.eq_iff_iff, lies_iff hI, Bool.and_eq_true]
  simp only [Interval.Contains, Interval.Starts, Interval.Ends, keeps, Bool.or_eq_true,
    Bool.and_eq_true, decide_eq_true_eq, ← classOf_eq, Std.OrientedCmp.gt_iff_lt, ← classOf_lt]
  simp only [@eq_comm _ (place d v)]

theorem minKey_first (v : Value) : Value.minKey.woCompare v ≠ .gt := by
  rw [Value.woCompare, woCompareElement_eq]
  cases v <;> nofun

theorem maxKey_last (v : Value) : v.woCompare .maxKey ≠ .gt := by
  rw [Value.woCompare, woCompareElement_eq]
  cases v <;> nofun

/-- The interval holds all values, and one of its ends, as the last end of two keys, leaves the
fields before it to decide. -/
structure AllValues (d : Direction) (I J : Interval Value) : Prop where
  lies (v : Value) : lies I v = true
  start (inclusive : Bool) (v : Value) :
    scanCompare d v (if !inclusive then J.stop else J.start) ≠ if inclusive then .lt else .gt
  stop (inclusive : Bool) (v : Value) :
    scanCompare d (if !inclusive then J.start else J.stop) v ≠ if inclusive then .lt else .gt

theorem allValues_of_equals {J : Interval Value} (hJ : J = allValues ∨ J = reverse allValues)
    (h : equals I J) (hI : I.Runs (place d)) : AllValues d I J := by
  have hinc : J.startInclusive = true ∧ J.stopInclusive = true := by
    rcases hJ with rfl | rfl <;> exact ⟨rfl, rfl⟩
  simp only [equals, hinc, Bool.and_eq_true, decide_eq_true_eq, @woCompare_eq_eq d] at h
  have hruns := hI.le
  rw [h.1.2, h.2, classOf_le] at hruns
  -- the interval runs from one of the two keys to the other, as its direction has them
  have hall : ∀ v, place d J.start ≤ place d v ∧ place d v ≤ place d J.stop := by
    intro v
    rw [classOf_le, classOf_le]
    rcases hJ with rfl | rfl <;> cases d
    · exact ⟨minKey_first v, maxKey_last v⟩
    · exact absurd rfl hruns
    · exact absurd rfl hruns
    · exact ⟨maxKey_last v, minKey_first v⟩
  refine ⟨fun v => (lies_iff hI).mpr ⟨?_, ?_⟩, fun inclusive v => ?_, fun inclusive v => ?_⟩
  · exact (h.1.2.trans_le (hall v).1).lt_or_eq.imp_right fun he => ⟨he, h.1.1.1⟩
  · exact ((hall v).2.trans_eq h.2.symm).lt_or_eq.imp_right fun he => ⟨he, h.1.1.2⟩
  · cases inclusive
    · exact classOf_le.mp (hall v).2
    · exact mt classOf_lt.mpr (hall v).1.not_gt
  · cases inclusive
    · exact classOf_le.mp (hall v).1
    · exact mt classOf_lt.mpr (hall v).2.not_gt

theorem admits_single {name : ByteOrder.Bytes} : IndexBounds.admits ⟨⟨name, [I]⟩ :: fields⟩ (v :: key) =
    (lies I v && IndexBounds.admits ⟨fields⟩ key) := by
  simp [IndexBounds.admits]

theorem appendAllValues_cons {keys : IndexKey × IndexKey} {f : OrderedIntervalList} {si ei : Bool}
    (h : appendAllValues si ei (f :: fields) = some keys) :
    ∃ I J keys', f.intervals = [I] ∧ (J = allValues ∨ J = reverse allValues) ∧ equals I J ∧
      appendAllValues si ei fields = some keys' ∧
      keys = ((if !si then J.stop else J.start) :: keys'.1,
        (if !ei then J.start else J.stop) :: keys'.2) := by
  unfold appendAllValues at h
  split at h
  · cases ‹f :: fields = []›
  next name I fields heq =>
    cases heq
    split at h
    next hI =>
      obtain ⟨keys', hkeys, rfl⟩ := Option.map_eq_some_iff.mp h
      exact ⟨I, _, keys', rfl, .inl rfl, hI, hkeys, rfl⟩
    next =>
      split at h
      next hI =>
        obtain ⟨keys', hkeys, rfl⟩ := Option.map_eq_some_iff.mp h
        exact ⟨I, _, keys', rfl, .inr rfl, hI, hkeys, rfl⟩
      · cases h
  · cases h

theorem appendAllValues_spec {si ei : Bool} {keys : IndexKey × IndexKey}
    (h : appendAllValues si ei fields = some keys) (hvalid : List.Forall₂ (fun oil elt =>
      Ordered (place ((indexDirection elt).mul direction)) oil.intervals) fields pattern)
    (hlen : key.length = fields.length) :
    compareKeys (directions direction pattern) key keys.1 ≠ (if si then .lt else .gt) ∧
      compareKeys (directions direction pattern) keys.2 key ≠ (if ei then .lt else .gt) ∧
        IndexBounds.admits ⟨fields⟩ key := by
  induction hvalid generalizing key keys with
  | nil =>
    cases h
    rw [List.length_eq_zero_iff.mp hlen]
    cases si <;> cases ei <;> exact ⟨nofun, nofun, rfl⟩
  | @cons oil _ _ _ hl _ ih =>
    obtain ⟨name, l⟩ := oil
    obtain ⟨I, J, keys, rfl, hJ, hIJ, hkeys, rfl⟩ := appendAllValues_cons h
    cases key with
    | nil => cases hlen
    | cons v key =>
      have hfield := allValues_of_equals hJ hIJ (hl.runs I (List.mem_singleton_self I))
      obtain ⟨hstart, hstop, hrest⟩ := ih hkeys (Nat.succ.inj hlen)
      refine ⟨then_ne (hfield.start si v) hstart, then_ne (hfield.stop ei v) hstop, ?_⟩
      rw [admits_single, hfield.lies v, hrest]
      rfl

/-- A point leaves it to the fields after it. -/
theorem keeps_point {c o o' : Ordering} {first last : Bool} :
    (keeps first (c.then o) && keeps last (c.swap.then o')) =
      (keeps true c && keeps true c.swap && (keeps first o && keeps last o')) := by
  revert c o o' first last
  decide

theorem scanCompare_swap_of_isPoint (h : isPoint I) :
    scanCompare d I.stop v = (scanCompare d v I.start).swap ∧ I.startInclusive ∧ I.stopInclusive := by
  simp only [isPoint, Bool.and_eq_true, decide_eq_true_eq, @woCompare_eq_eq d, classOf_eq] at h
  rw [← @Std.OrientedCmp.eq_swap _ (scanCompare d)]
  exact ⟨(Std.TransCmp.congr_left h.2).symm, h.1⟩

end

/-- When bounds come down to a single interval, the keys between its ends are exactly those within
the bounds. -/
theorem isSingleInterval_exact {bounds : IndexBounds} {keyPattern : Obj} {direction : Direction}
    (hvalid : bounds.isValidFor keyPattern direction = true) {range : Interval IndexKey}
    (h : isSingleInterval bounds = some range) {key : IndexKey}
    (hlen : key.length = bounds.fields.length) :
    liesBetween (directions direction keyPattern) range key = bounds.admits key := by
  obtain ⟨fields⟩ := bounds
  have hfields : List.Forall₂ _ fields keyPattern := ordered_of_fieldsValidFor hvalid
  clear hvalid
  induction hfields generalizing range key with
  | nil =>
    cases h
    rw [List.length_eq_zero_iff.mp hlen]
    rfl
  | @cons oil elt fields pattern hl hfields ih =>
    match oil, key with
    | ⟨name, [I]⟩, v :: key =>
      rw [admits_single, lies_eq (hl.runs I (List.mem_singleton_self I))]
      rw [isSingleInterval, singleInterval] at h
      split at h
      next hpoint =>
        obtain ⟨keys, hkeys, rfl⟩ := Option.map_eq_some_iff.mp h
        obtain ⟨hswap, hstart, hstop⟩ := scanCompare_swap_of_isPoint hpoint
        rw [← ih hkeys (Nat.succ.inj hlen), hstart, hstop, hswap, liesBetween, liesBetween,
          ← keeps_point, ← hswap]
        rfl
      next =>
        obtain ⟨keys, hkeys, rfl⟩ := Option.map_eq_some_iff.mp h
        obtain ⟨hstart, hstop, hrest⟩ := appendAllValues_spec hkeys hfields (Nat.succ.inj hlen)
        rw [hrest, Bool.and_true, ← keeps_then hstart, ← keeps_then hstop]
        rfl

/-- The bounds of a in (2, 5) on an index that descends on its second field. -/
theorem isSingleInterval_exact_open :
    let bounds : IndexBounds := ⟨[⟨[97], [⟨.numberInt 2, false, .numberInt 5, false⟩]⟩,
      ⟨[98], [reverse allValues]⟩]⟩
    liesBetween [.forward, .backward] ⟨[.numberInt 2, .minKey], false, [.numberInt 5, .maxKey], false⟩
      [.numberInt 2, .null] = bounds.admits [.numberInt 2, .null] :=
  @isSingleInterval_exact _ [([97], .numberInt 1), ([98], .numberInt (-1))] .forward (by decide +kernel)
    _ rfl _ rfl

end MongolDb.Query
