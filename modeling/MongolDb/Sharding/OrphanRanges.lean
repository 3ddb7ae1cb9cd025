import MongolDb.Sharding.Ownership

/-! The ranges of keys that a shard does not own and is not about to own (`getNextOrphanRange` in
db/s/collection_metadata.cpp), which `cleanupOrphaned` empties one after the other. -/
namespace MongolDb.Sharding
open Bson Ranges List

structure KeyRange (κ : Type) where
  minKey : κ
  maxKey : κ
  keyPattern : Obj

section Model
variable {κ : Type} [LinearOrder κ]

/-- The end of the range that the key lies in. -/
def overlapEnd (ranges : RangeMap κ) (lookupKey : κ) : Option κ :=
  match lowerRange ranges lookupKey with
  | some lower => if lookupKey < lower.2 then some lower.2 else none
  | none => none

def raiseMin (lower : Option (κ × κ)) (minKey : κ) : κ :=
  match lower with
  | some lower => if minKey < lower.2 then lower.2 else minKey
  | none => minKey

def reduceMax (upper : Option (κ × κ)) (maxKey : κ) : κ :=
  match upper with
  | some upper => if upper.1 < maxKey then upper.1 else maxKey
  | none => maxKey

/-- How many of the bounds lie behind the key. -/
def ahead (bounds : List κ) (k : κ) : Nat := (bounds.filter fun b => decide (k < b)).length

theorem ahead_lt {bounds : List κ} {k k' : κ} (hlt : k < k') (hmem : k' ∈ bounds) :
    ahead bounds k' < ahead bounds k := by
  have hsub : (bounds.filter fun b => decide (k' < b)) =
      (bounds.filter fun b => decide (k < b)).filter fun b => decide (k' < b) := by
    rw [filter_filter]
    refine filter_congr fun b _ => ?_
    by_cases hb : k' < b
    · simp [hb, hlt.trans hb]
    · simp [hb]
  rw [ahead, hsub]
  apply length_filter_lt_length_iff_exists.mpr
  exact ⟨k', mem_filter.mpr ⟨hmem, decide_eq_true hlt⟩, by simp⟩

section
variable {ranges : RangeMap κ} {k a b : κ} {s : Set κ}

theorem raiseMin_greatest (h : Apart ranges.entries) (ha : IsGreatest s a) :
    IsGreatest (stops ranges.entries k ∪ s) (raiseMin (lowerRange ranges k) a) := by
  have hspec := lowerRange_spec h k
  split at hspec
  next lower hlower =>
    rw [hlower, raiseMin, ← max_def_lt, max_comm]
    exact hspec.2.union ha
  next hlower =>
    rw [hlower, hspec, Set.empty_union]
    exact ha

theorem reduceMax_least (hb : IsLeast s b) :
    IsLeast (starts ranges.entries k ∪ s) (reduceMax (upperRange ranges k) b) := by
  have hspec := upperRange_spec ranges k
  split at hspec
  next upper hupper =>
    rw [hupper, reduceMax, ← min_def_lt]
    exact hspec.union hb
  next hupper =>
    rw [hupper, hspec, Set.empty_union]
    exact hb

theorem overlapEnd_eq_some {stop : κ} (h : overlapEnd ranges k = some stop) :
    k < stop ∧ ∃ start, (start, stop) ∈ ranges.entries ∧ start ≤ k := by
  rw [overlapEnd] at h
  split at h
  next lower hlower =>
    split at h
    next hlt =>
      cases h
      rw [lowerRange, upperBound, take_takeWhile (ranges.sorted_le k)] at hlower
      exact ⟨hlt, lower.1, by simpa using mem_of_getLast? hlower⟩
    · cases h
  · cases h

theorem not_owns_of_overlapEnd (h : Apart ranges.entries) (hover : overlapEnd ranges k = none) :
    ¬ Owns ranges.entries k := by
  rw [owns_iff_lowerRange h]
  rintro ⟨lower, hlower, hk⟩
  simp [overlapEnd, Option.mem_def.mp hlower, hk.2] at hover

end

namespace CollectionMetadata
variable (key : Obj → κ) (m : CollectionMetadata κ)

/-- The ranges that are not orphaned. -/
def kept : List (κ × κ) := m.pendingMap.entries ++ m.chunksMap.entries

/-- `key` is the place of an object in the order of the keys. -/
def getMinKey : κ := key (m.keyPattern.map fun field => (field.1, .minKey))

def getMaxKey : κ := key (m.keyPattern.map fun field => (field.1, .maxKey))

/-- The end of the chunk or else of the pending range that the key lies in. -/
def overlap (lookupKey : κ) : Option κ :=
  (overlapEnd m.chunksMap lookupKey).or (overlapEnd m.pendingMap lookupKey)

/-- The bounds closest to a key that is not covered. -/
def surrounding (lookupKey : κ) : KeyRange κ where
  keyPattern := m.keyPattern
  minKey := raiseMin (lowerRange m.pendingMap lookupKey)
    (raiseMin (lowerRange m.chunksMap lookupKey) (m.getMinKey key))
  maxKey := reduceMax (upperRange m.pendingMap lookupKey)
    (reduceMax (upperRange m.chunksMap lookupKey) (m.getMaxKey key))

variable {m}

theorem overlap_eq_some {k stop : κ} (h : m.overlap k = some stop) :
    k < stop ∧ ∃ start, (start, stop) ∈ m.kept ∧ start ≤ k := by
  rcases Option.or_eq_some_iff.mp h with hchunk | ⟨-, hpending⟩
  · obtain ⟨hlt, start, hmem, hle⟩ := overlapEnd_eq_some hchunk
    exact ⟨hlt, start, mem_append_right _ hmem, hle⟩
  · obtain ⟨hlt, start, hmem, hle⟩ := overlapEnd_eq_some hpending
    exact ⟨hlt, start, mem_append_left _ hmem, hle⟩

variable (m)

/-- The loop: each round starts behind another range. -/
def orphanFrom (lookupKey : κ) : Option (KeyRange κ) :=
  if lookupKey < m.getMaxKey key then
    match _h : m.overlap lookupKey with
    | some stop => orphanFrom stop
    | none => some (m.surrounding key lookupKey)
  else none
termination_by ahead (m.kept.map Prod.snd) lookupKey
decreasing_by
  obtain ⟨hlt, start, hmem, -⟩ := overlap_eq_some _h
  exact ahead_lt hlt (List.mem_map_of_mem hmem)

def getNextOrphanRange (origLookupKey : κ) : Option (KeyRange κ) :=
  if m.keyPattern.isEmpty then none else m.orphanFrom key origLookupKey

/-- The loop hops over keys that are kept, to one that is not or to the end. -/
theorem orphanFrom_spec (k : κ) :
    match m.orphanFrom key k with
    | some range => ∃ k', k ≤ k' ∧ k' < m.getMaxKey key ∧ m.overlap k' = none ∧
        range = m.surrounding key k' ∧ ∀ x, InRange (k, k') x → Owns m.kept x
    | none => ∀ x, InRange (k, m.getMaxKey key) x → Owns m.kept x := by
  fun_induction orphanFrom key m k with
  | case1 k hmax stop hover ih =>
    obtain ⟨hlt, start, hmem, hle⟩ := overlap_eq_some hover
    have hhop : ∀ x y, InRange (k, y) x → (InRange (stop, y) x → Owns m.kept x) → Owns m.kept x := by
      intro x y hx hrest
      rcases lt_or_ge x stop with hstop | hstop
      · exact ⟨_, hmem, hle.trans hx.1, hstop⟩
      · exact hrest ⟨hstop, hx.2⟩
    split at ih
    · obtain ⟨k', hk, hmax', hover', hrange, hkept⟩ := ih
      exact ⟨k', hlt.le.trans hk, hmax', hover', hrange, fun x hx => hhop x k' hx (hkept x)⟩
    · exact fun x hx => hhop x _ hx (ih x)
  | case2 k hmax hover =>
    exact ⟨k, le_rfl, hmax, hover, rfl, fun x hx => absurd hx.1 (not_le.mpr hx.2)⟩
  | case3 k hmax => exact fun x hx => absurd (hx.1.trans_lt hx.2) hmax

theorem surrounding_maxKey (k : κ) :
    IsLeast (starts m.kept k ∪ {m.getMaxKey key}) (m.surrounding key k).maxKey := by
  rw [kept, starts_append, Set.union_assoc]
  exact reduceMax_least (reduceMax_least isLeast_singleton)

variable {key m}

theorem lt_maxKey {k : κ} {range : KeyRange κ} (h : m.getNextOrphanRange key k = some range) :
    k < range.maxKey ∧ range.maxKey ∈ m.getMaxKey key :: m.kept.map Prod.fst := by
  rw [getNextOrphanRange] at h
  split at h
  · cases h
  · have hspec := m.orphanFrom_spec key k
    rw [h] at hspec
    obtain ⟨k', hk, hmax, -, rfl, -⟩ := hspec
    rcases (m.surrounding_maxKey key k').1 with ⟨e, he, hlt, heq⟩ | heq
    · rw [← heq]
      exact ⟨hk.trans_lt hlt, mem_cons_of_mem _ (mem_map_of_mem he)⟩
    · rw [heq]
      exact ⟨hk.trans_lt hmax, mem_cons_self⟩

variable (key m)

/-- The ranges that repeated calls find, each from where the last one stopped. -/
def orphanRanges (startingFromKey : κ) : List (KeyRange κ) :=
  match _h : m.getNextOrphanRange key startingFromKey with
  | some range => range :: orphanRanges range.maxKey
  | none => []
termination_by ahead (m.getMaxKey key :: m.kept.map Prod.fst) startingFromKey
decreasing_by exact ahead_lt (lt_maxKey _h).1 (lt_maxKey _h).2

/-- The range is a gap, and the keys from the given one to its start are kept; without a range all
keys from there on are. -/
def FirstGap (k : κ) : Option (KeyRange κ) → Prop
  | some range => Gap m.kept (m.getMinKey key) (m.getMaxKey key) (range.minKey, range.maxKey) ∧
      ∀ x, InRange (k, range.minKey) x → Owns m.kept x
  | none => ∀ x, InRange (k, m.getMaxKey key) x → Owns m.kept x

section Gaps
variable {key m} {k : κ} (hchunks : Apart m.chunksMap.entries) (hpending : Apart m.pendingMap.entries)
include hchunks hpending

theorem kept_nonempty : ∀ e ∈ m.kept, e.1 < e.2 := by
  intro e he
  exact (mem_append.mp he).elim (hpending.nonempty e) (hchunks.nonempty e)

theorem getNextOrphanRange_spec (hk : m.getMinKey key ≤ k) :
    m.FirstGap key k (m.getNextOrphanRange key k) := by
  rw [getNextOrphanRange]
  by_cases hempty : m.keyPattern.isEmpty
  · -- without fields both bounds are the empty key
    have hbounds : m.getMinKey key = m.getMaxKey key := by
      rw [getMinKey, getMaxKey, List.isEmpty_iff.mp hempty]
      rfl
    rw [if_pos hempty]
    intro x hx
    exact absurd (hx.1.trans_lt hx.2) (hbounds ▸ hk).not_gt
  · have hspec := m.orphanFrom_spec key k
    rw [if_neg hempty]
    cases hnext : m.orphanFrom key k with
    | none =>
      rw [hnext] at hspec
      exact hspec
    | some range =>
      rw [hnext] at hspec
      obtain ⟨k', hk', hmax, hover, rfl, hkept⟩ := hspec
      obtain ⟨hchunk, hpend⟩ := Option.or_eq_none_iff.mp hover
      have hfree : ¬ Owns m.kept k' := by
        rw [kept, owns_append, not_or]
        exact ⟨not_owns_of_overlapEnd hpending hpend, not_owns_of_overlapEnd hchunks hchunk⟩
      have hmin : IsGreatest (stops m.kept k' ∪ {m.getMinKey key}) (m.surrounding key k').minKey := by
        rw [kept, stops_append, Set.union_assoc]
        exact raiseMin_greatest hpending (raiseMin_greatest hchunks isGreatest_singleton)
      obtain ⟨hgap, hin⟩ := gap_of_closest (kept_nonempty hchunks hpending) hfree (hk.trans hk') hmax
        hmin (m.surrounding_maxKey key k')
      exact ⟨hgap, fun x hx => hkept x ⟨hx.1, hx.2.trans_le hin.1⟩⟩

/-- From a key inside no gap on, the calls find the keys that are not kept. -/
theorem orphanRanges_spec (hk : m.getMinKey key ≤ k)
    (hedge : ∀ gap, Gap m.kept (m.getMinKey key) (m.getMaxKey key) gap → gap.1 < k → gap.2 ≤ k) :
    (m.orphanRanges key k).Pairwise (fun a b => a.maxKey ≤ b.minKey) ∧
      (∀ range ∈ m.orphanRanges key k, k ≤ range.minKey) ∧
      ∀ x, (∃ range ∈ m.orphanRanges key k, InRange (range.minKey, range.maxKey) x) ↔
        InRange (k, m.getMaxKey key) x ∧ ¬ Owns m.kept x := by
  fun_induction orphanRanges key m k with
  | case1 k range hnext ih =>
    have hspec := getNextOrphanRange_spec hchunks hpending hk
    rw [hnext] at hspec
    obtain ⟨hgap, hkept⟩ := hspec
    have hstart : k ≤ range.minKey :=
      not_lt.mp fun hlt => (lt_maxKey hnext).1.not_ge (hedge _ hgap hlt)
    obtain ⟨hpair, hafter, hiff⟩ := ih (hk.trans (lt_maxKey hnext).1.le)
      fun gap hgap' => hgap.stop_le (kept_nonempty hchunks hpending) hgap'
    refine ⟨pairwise_cons.mpr ⟨hafter, hpair⟩, ?_, ?_⟩
    · intro r hr
      rcases mem_cons.mp hr with rfl | hr
      · exact hstart
      · exact (lt_maxKey hnext).1.le.trans (hafter r hr)
    · intro x
      simp only [mem_cons, exists_eq_or_imp]
      rw [hiff]
      constructor
      · rintro (hx | ⟨hx, hfree⟩)
        · exact ⟨⟨hstart.trans hx.1, hx.2.trans_le hgap.inside.2⟩, not_owns_of_free hgap.free hx⟩
        · exact ⟨⟨(lt_maxKey hnext).1.le.trans hx.1, hx.2⟩, hfree⟩
      · rintro ⟨hx, hfree⟩
        rcases lt_or_ge x range.maxKey with hlt | hge
        · exact .inl ⟨not_lt.mp fun hmin => hfree (hkept x ⟨hx.1, hmin⟩), hlt⟩
        · exact .inr ⟨⟨hge, hx.2⟩, hfree⟩
  | case2 k hnext =>
    have hspec := getNextOrphanRange_spec hchunks hpending hk
    rw [hnext] at hspec
    refine ⟨.nil, nofun, fun x => ⟨nofun, ?_⟩⟩
    rintro ⟨hx, hfree⟩
    exact absurd (hspec x hx) hfree

end Gaps

end CollectionMetadata

end Model

/-- The calls find the gaps between the chunks and pending ranges of a shard: each the first that
ends behind the key it starts from, and from the global minimum on all of them, once. -/
theorem orphan_ranges_are_the_gaps {κ : Type} [LinearOrder κ] (key : Obj → κ) (m : CollectionMetadata κ)
    (hchunks : Apart m.chunksMap.entries) (hpending : Apart m.pendingMap.entries) :
    (∀ k, m.getMinKey key ≤ k → m.FirstGap key k (m.getNextOrphanRange key k)) ∧
    (m.orphanRanges key (m.getMinKey key)).Pairwise (fun a b => a.maxKey ≤ b.minKey) ∧
    ∀ x, (∃ range ∈ m.orphanRanges key (m.getMinKey key), InRange (range.minKey, range.maxKey) x) ↔
      InRange (m.getMinKey key, m.getMaxKey key) x ∧ ¬ Owns m.kept x := by
  obtain ⟨hpair, -, hiff⟩ := CollectionMetadata.orphanRanges_spec hchunks hpending le_rfl
    fun gap hgap hlt => absurd hlt hgap.inside.1.not_gt
  exact ⟨fun k hk => CollectionMetadata.getNextOrphanRange_spec hchunks hpending hk, hpair, hiff⟩

/-- A shard that owns the keys from 0 to 10 of those from 0 to 20, and is to get those from 12 to
15. -/
def pendingChunk : CollectionMetadata Nat := { twoChunks with pendingMap := ⟨[(12, 15)], by decide⟩ }

theorem orphan_ranges_are_the_gaps_pendingChunk :
    let key : Obj → Nat := fun | [(_, .maxKey)] => 20 | _ => 0
    (pendingChunk.orphanRanges key 0).map (fun range => (range.minKey, range.maxKey)) =
        [(10, 12), (15, 20)] ∧
    ∀ x, (∃ range ∈ pendingChunk.orphanRanges key 0, InRange (range.minKey, range.maxKey) x) ↔
      InRange (0, 20) x ∧ ¬ Owns [(12, 15), (0, 5), (5, 10)] x := by
  intro key
  refine ⟨by decide +kernel, ?_⟩
  exact (orphan_ranges_are_the_gaps key pendingChunk ⟨by decide, by decide⟩
    ⟨by decide, by decide⟩).2.2

end MongolDb.Sharding
