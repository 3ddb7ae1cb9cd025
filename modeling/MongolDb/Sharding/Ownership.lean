import MongolDb.Lib.Outcome
import MongolDb.Lib.Reach
import MongolDb.Sharding.CollectionMetadata

/-! Which keys a shard's metadata own, and how the calls that make new metadata change that. -/
namespace MongolDb.Sharding
open Ranges Outcome List SortedMap ChunkVersion

variable {κ : Type} [LinearOrder κ]

section Maps
variable {ranges acc : RangeMap κ} {min max k a b c : κ} {l : List (κ × κ)}

theorem rangeContains_iff : rangeContains min max k = true ↔ InRange (min, max) k := by
  simp only [rangeContains, Bool.and_eq_true, decide_eq_true_eq]
  rfl

theorem searchRange_iff (h : Apart ranges.entries) :
    searchRange ranges k = true ↔ Owns ranges.entries k := by
  have htake := Ranges.take_takeWhile (ranges.sorted_le k)
  have hle : upperBound ranges k ≤ ranges.entries.length := ( takeWhile_prefix _).length_le
  rw [owns_iff_lowerRange h, searchRange, lowerRange]
  rw [← upperBound] at htake
  by_cases hzero : upperBound ranges k = 0
  · -- every range starts after the key
    rw [hzero, take_zero] at htake
    rw [hzero]
    cases hfirst : ranges.entries[0]? with
    | none => simp [hfirst]
    | some e =>
      have := filter_eq_nil_iff.mp htake.symm e (mem_of_getElem? hfirst)
      simp_all [rangeContains]
  · have hlast : (ranges.entries.take (upperBound ranges k)).getLast? =
        ranges.entries[upperBound ranges k - 1]? := by
      rw [getLast?_eq_getElem?, length_take_of_le hle, getElem?_take_of_lt (by omega)]
    rw [hlast]
    simp only [ne_eq, hzero, not_false_eq_true, if_true]
    cases ranges.entries[upperBound ranges k - 1]? with
    | none => simp
    | some e => simp [rangeContains_iff]

/-- A range that overlaps with no other can be added to them. -/
theorem insert_free (hlt : min < max) (hacc : Apart acc.entries) (hfree : Free acc.entries (min, max)) :
    Apart (acc.insert min max).entries ∧
      ∀ e, e ∈ (acc.insert min max).entries ↔ e = (min, max) ∨ e ∈ acc.entries := by
  have hmem : ∀ e, e ∈ (acc.insert min max).entries ↔ e = (min, max) ∨ e ∈ acc.entries := by
    intro e
    apply mem_insert
    rintro a ha rfl
    rcases hfree a ha with hle | hle
    · exact absurd (hacc.nonempty a ha) (not_lt.mpr hle)
    · exact absurd hlt (not_lt.mpr hle)
  exact ⟨hacc.insert hlt hfree fun a ha => (hmem a).mp ha, hmem⟩

theorem inRange_append (hab : a < b) (hbc : b < c) :
    InRange (a, c) k ↔ InRange (a, b) k ∨ InRange (b, c) k := by
  constructor
  · intro hk
    rcases lt_or_ge k b with hlt | hge
    · exact .inl ⟨hk.1, hlt⟩
    · exact .inr ⟨hge, hk.2⟩
  · rintro (hk | hk)
    · exact ⟨hk.1, hk.2.trans hbc⟩
    · exact ⟨hab.le.trans hk.1, hk.2⟩

/-- What the loop of `fillRanges` adds to ranges that end before the current one starts. -/
theorem fillFrom_spec (hcur : min < max) (hl : Apart l) (hsorted : l.Pairwise fun a b => a.1 < b.1)
    (hnext : ∀ e ∈ l, max ≤ e.1) (hacc : Apart acc.entries) (hbefore : ∀ e ∈ acc.entries, e.2 ≤ min) :
    Apart (fillFrom l min max acc).entries ∧ (fillFrom l min max acc).entries ≠ [] ∧
      ∀ k, Owns (fillFrom l min max acc).entries k ↔
        Owns acc.entries k ∨ InRange (min, max) k ∨ Owns l k := by
  induction l generalizing min max acc with
  | nil =>
    obtain ⟨hapart, hmem⟩ := insert_free hcur hacc fun a ha => .inl (hbefore a ha)
    rw [fillFrom]
    refine ⟨hapart, ne_nil_of_mem ((hmem (min, max)).mpr (.inl rfl)), ?_⟩
    intro k
    rw [owns_of_mem_iff hmem, or_comm]
    simp [Owns]
  | cons chunk l ih =>
    obtain ⟨currMin, currMax⟩ := chunk
    obtain ⟨hfirst, htail⟩ := pairwise_cons.mp hsorted
    have hchunk := hl.nonempty _ mem_cons_self
    have hapartl : Apart l := hl.mono fun e he => mem_cons_of_mem _ he
    have hlater : ∀ e ∈ l, currMax ≤ e.1 := by
      intro e he
      exact hl.apart _ mem_cons_self e (mem_cons_of_mem _ he) (hfirst e he)
    rw [fillFrom]
    split
    next heq =>
      -- the chunk continues the current range
      subst heq
      obtain ⟨h1, h2, h3⟩ := ih (hcur.trans hchunk) hapartl htail hlater hacc hbefore
      refine ⟨h1, h2, fun k => ?_⟩
      rw [h3, owns_cons, inRange_append hcur hchunk, or_assoc]
    next hne =>
      have hle : max ≤ currMin := hnext _ mem_cons_self
      obtain ⟨hapart, hmem⟩ := insert_free hcur hacc fun a ha => .inl (hbefore a ha)
      have hbefore' : ∀ e ∈ (acc.insert min max).entries, e.2 ≤ currMin := by
        intro e he
        rcases (hmem e).mp he with rfl | he
        · exact hle
        · exact (hbefore e he).trans (hcur.le.trans hle)
      obtain ⟨h1, h2, h3⟩ := ih hchunk hapartl htail hlater hapart hbefore'
      refine ⟨h1, h2, fun k => ?_⟩
      rw [h3, owns_cons, owns_of_mem_iff hmem, or_comm (a := InRange (min, max) k), or_assoc]

/-- The coalesced ranges are apart and own what the chunks own. -/
theorem fillRanges_spec (h : Apart ranges.entries) :
    Apart (fillRanges ranges).entries ∧
      ((fillRanges ranges).entries = [] ↔ ranges.entries = []) ∧
      ∀ k, Owns (fillRanges ranges).entries k ↔ Owns ranges.entries k := by
  have hempty : Apart (empty : RangeMap κ).entries := ⟨nofun, nofun⟩
  have hsorted := ranges.sorted
  rw [fillRanges]
  generalize ranges.entries = l at h hsorted
  cases l with
  | nil => exact ⟨hempty, Iff.rfl, fun _ => Iff.rfl⟩
  | cons chunk l =>
    obtain ⟨min, max⟩ := chunk
    obtain ⟨hfirst, hsorted⟩ := pairwise_cons.mp hsorted
    have hnext : ∀ e ∈ l, max ≤ e.1 := by
      intro e he
      exact h.apart _ mem_cons_self e (mem_cons_of_mem _ he) (hfirst e he)
    obtain ⟨h1, h2, h3⟩ := @fillFrom_spec _ _ _ min max l (h.nonempty _ mem_cons_self)
      (h.mono fun e he => mem_cons_of_mem _ he) hsorted hnext hempty nofun
    refine ⟨h1, ⟨fun hnil => absurd hnil h2, nofun⟩, fun k => ?_⟩
    rw [h3, owns_cons]
    simp [Owns, empty]

theorem mem_eraseAll {overlap : List (κ × κ)} {e : κ × κ} :
    e ∈ (eraseAll ranges overlap).entries ↔ e ∈ ranges.entries ∧ ∀ a ∈ overlap, e.1 ≠ a.1 := by
  rw [eraseAll]
  induction overlap generalizing ranges with
  | nil => simp
  | cons a overlap ih =>
    rw [foldl_cons, ih, mem_erase, forall_mem_cons]
    constructor
    · rintro ⟨⟨hne, he⟩, hrest⟩
      exact ⟨he, hne, hrest⟩
    · rintro ⟨he, hne, hrest⟩
      exact ⟨⟨hne, he⟩, hrest⟩

/-- A range put in place of those it overlaps. -/
theorem replace_overlapping (h : Apart ranges.entries) (hlt : min < max) :
    Apart ((eraseAll ranges (overlapping ranges.entries min max)).insert min max).entries ∧
      ∀ e, e ∈ ((eraseAll ranges (overlapping ranges.entries min max)).insert min max).entries ↔
        e = (min, max) ∨ e ∈ (eraseAll ranges (overlapping ranges.entries min max)).entries := by
  refine insert_free hlt (h.mono fun e he => (mem_eraseAll.mp he).1) ?_
  rw [free_iff_overlapping, overlapping, filter_eq_nil_iff]
  intro e he hover
  obtain ⟨hmem, hnot⟩ := mem_eraseAll.mp he
  exact hnot e (mem_filter.mpr ⟨hmem, hover⟩) rfl

/-- Ranges without holes own what lies between their ends. -/
theorem owns_of_noHoles (hl : ∀ e ∈ l, e.1 < e.2) (h : noHoles min l)
    (hlast : l.getLast?.map Prod.snd = some max) : min < max ∧ (Owns l k ↔ InRange (min, max) k) := by
  induction l generalizing min with
  | nil => cases hlast
  | cons e l ih =>
    rw [noHoles, Bool.and_eq_true, decide_eq_true_eq] at h
    obtain ⟨rfl, h⟩ := h
    have he := hl e mem_cons_self
    rw [owns_cons]
    cases l with
    | nil =>
      obtain rfl : e.2 = max := by simpa using hlast
      exact ⟨he, by simp [Owns]⟩
    | cons e' l =>
      rw [getLast?_cons_cons] at hlast
      obtain ⟨hlt, hiff⟩ := ih (forall_mem_cons.mp hl).2 h hlast
      rw [hiff, inRange_append he hlt]
      exact ⟨he.trans hlt, Iff.rfl⟩

/-- Splitting a chunk cuts its range at each key. -/
theorem splitChunks_holds {splitKeys keys : List κ} {chunks : RangeMap κ} {version : ChunkVersion}
    (h : Apart chunks.entries) (hmem : (min, max) ∈ chunks.entries) (hkeys : ∀ k ∈ keys, k < max) :
    Holds (· = .invariantFailure) (fun r => Apart r.1.entries ∧ r.1.entries ≠ [] ∧
        (∀ k, Owns r.1.entries k ↔ Owns chunks.entries k) ∧
        r.2.major = version.major ∧ r.2.epoch = version.epoch)
      (splitChunks splitKeys max keys min chunks version) := by
  induction keys generalizing min chunks version with
  | nil => exact ⟨h, ne_nil_of_mem hmem, fun _ => Iff.rfl, rfl, rfl⟩
  | cons split keys ih =>
    rw [splitChunks]
    split
    · exact nofun
    next hlt =>
      have hlt := not_le.mp hlt
      have hmax := hkeys split mem_cons_self
      have hnew : ∀ e ∈ (chunks.put min split).entries, e.1 ≠ split := by
        intro e he heq
        rcases mem_put.mp he with rfl | ⟨hne, he⟩
        · exact hlt.ne heq
        · have hshared : InRange e split := ⟨heq.le, heq ▸ h.nonempty e he⟩
          exact hne (h.start_eq he hmem hshared ⟨hlt.le, hmax⟩)
      have hentries : ∀ e, e ∈ ((chunks.put min split).insert split max).entries ↔
          e = (min, split) ∨ e = (split, max) ∨ e.1 ≠ min ∧ e ∈ chunks.entries := by
        intro e
        rw [mem_insert hnew, mem_put, or_left_comm]
      obtain ⟨hapart, howns⟩ := h.cut hmem hlt hmax
        (fun e he => eq_of_key_eq chunks.sorted he hmem) hentries
      have hrest := @ih split ((chunks.put min split).insert split max) version.incMinor hapart
        ((hentries _).mpr (.inr (.inl rfl))) (forall_mem_cons.mp hkeys).2
      refine hrest.mono ?_
      rintro r ⟨h1, h2, h3, h4, h5⟩
      exact ⟨h1, h2, fun k => (h3 k).trans (howns k), h4, h5⟩

end Maps

namespace CollectionMetadata

theorem isValid_iff {m : CollectionMetadata κ} : m.isValid = true ↔
    m.shardVersion.combined ≤ m.collVersion.combined ∧ m.collVersion.major ≠ 0 ∧
    m.collVersion.epoch = m.shardVersion.epoch ∧
    ((0 < m.shardVersion.major ∧ m.rangesMap.entries ≠ [] ∧ m.chunksMap.entries ≠ []) ∨
      (¬ 0 < m.shardVersion.major ∧ ¬ 0 < m.shardVersion.minor ∧ m.rangesMap.entries = [] ∧
        m.chunksMap.entries = [])) := by
  rw [isValid]
  split
  next h => exact ⟨nofun, fun hv => absurd hv.1 (not_le.mpr h)⟩
  next h =>
    split
    next hmajor => exact ⟨nofun, fun hv => absurd hmajor hv.2.1⟩
    next hmajor =>
      split
      next hepoch => exact ⟨nofun, fun hv => absurd hv.2.2.1 hepoch⟩
      next hepoch =>
        simp only [not_lt.mp h, hmajor, not_not.mp hepoch, ne_eq, not_false_eq_true, true_and]
        split
        next hpos => simp [hpos]
        next hpos =>
          split
          next hminor => simp [hpos, hminor]
          next hminor => simp [hpos, hminor]

/-- Metadata of a sharded collection: valid, with disjoint chunks and pending ranges, and with
coalesced ranges for the keys of the chunks. -/
structure Sound (m : CollectionMetadata κ) (epoch : Bson.OID) : Prop where
  sharded : m.keyPattern ≠ []
  epoch_eq : m.shardVersion.epoch = epoch
  valid : m.isValid = true
  chunks : Apart m.chunksMap.entries
  pending : Apart m.pendingMap.entries
  ranges : Apart m.rangesMap.entries
  owned : ∀ k, Owns m.rangesMap.entries k ↔ Owns m.chunksMap.entries k

/-- The keys of the shard's chunks. -/
def Owned (m : CollectionMetadata κ) (k : κ) : Prop := Owns m.chunksMap.entries k

end CollectionMetadata

open CollectionMetadata

namespace CloneCall

/-- The version belongs to the epoch, and a pending range is not empty. -/
def Proper (epoch : Bson.OID) : CloneCall κ → Prop
  | .migrate _ _ version | .plusChunk _ _ version => version.epoch = epoch
  | .minusPending _ _ => True
  | .plusPending min max => min < max
  | .split _ _ _ version | .merge _ _ version => version.epoch = epoch

/-- The version is a regular one, and an added chunk is not empty. -/
def Regular : CloneCall κ → Prop
  | .migrate _ _ version => version.Regular
  | .plusChunk min max version => min < max ∧ version.Regular
  | .minusPending _ _ => True
  | .plusPending _ _ => True
  | .split _ _ _ version | .merge _ _ version => version.Regular

/-- What the call makes of the keys that are owned. -/
def effect (owned : κ → Prop) : CloneCall κ → κ → Prop
  | .migrate min max _ => fun k => owned k ∧ ¬ InRange (min, max) k
  | .plusChunk min max _ => fun k => owned k ∨ InRange (min, max) k
  | _ => owned

end CloneCall

/-- A regular call must not violate an invariant. -/
def Blamed (call : CloneCall κ) (failure : CloneFailure κ) : Prop :=
  failure = .invariantFailure ∧ call.Regular

/-- New metadata are as they should be after the call. -/
def Follows (epoch : Bson.OID) (m : CollectionMetadata κ) (call : CloneCall κ)
    (m' : CollectionMetadata κ) : Prop :=
  m'.Sound epoch ∧ (∀ k, m'.Owned k ↔ call.effect m.Owned k) ∧
    m.collVersion.combined ≤ m'.collVersion.combined

/-- The outcome of a call: such metadata, or a failure that is not blamed. -/
abbrev Answers (epoch : Bson.OID) (m : CollectionMetadata κ) (call : CloneCall κ)
    (outcome : Except (CloneFailure κ) (CollectionMetadata κ)) : Prop :=
  Holds (Blamed call) (Follows epoch m call) outcome

section Calls
variable {m : CollectionMetadata κ} {epoch : Bson.OID} {min max k : κ} {version : ChunkVersion}
  {call : CloneCall κ}

theorem keyBelongsToMe_iff (h : m.Sound epoch) : m.keyBelongsToMe k = true ↔ m.Owned k := by
  have hpattern : m.keyPattern.isEmpty = false := by simpa using h.sharded
  rw [keyBelongsToMe, if_neg (by simp [hpattern]), Owned, ← h.owned k]
  split
  next hnil =>
    simp [Owns, isEmpty_iff.mp hnil]
  · exact searchRange_iff h.ranges

theorem release_holds {Q : CollectionMetadata κ → Prop} (hvalid : call.Regular → m.isValid = true)
    (hq : m.isValid = true → Q m) : Holds (Blamed call) Q m.release := by
  rw [release]
  split
  next hv => exact hq hv
  next hv =>
    rintro ⟨-, hregular⟩
    exact hv (hvalid hregular)

/-- Chunks and ranges replaced by others, as the version says. -/
theorem release_chunks (h : m.Sound epoch) {chunks ranges : RangeMap κ}
    (hversion : call.Regular → version.Regular ∧
      ((0 < version.major ∧ ranges.entries ≠ [] ∧ chunks.entries ≠ []) ∨
        (¬ 0 < version.major ∧ ¬ 0 < version.minor ∧ ranges.entries = [] ∧ chunks.entries = [])))
    (hepoch : version.epoch = epoch) (hchunks : Apart chunks.entries) (hranges : Apart ranges.entries)
    (howned : ∀ k, Owns ranges.entries k ↔ Owns chunks.entries k)
    (heffect : ∀ k, Owns chunks.entries k ↔ call.effect m.Owned k) :
    Answers epoch m call (release { m with
      chunksMap := chunks
      rangesMap := ranges
      shardVersion := version
      collVersion := m.collVersion.raise version }) := by
  apply release_holds
  · intro hcall
    obtain ⟨-, hmajor, hcoll, -⟩ := isValid_iff.mp h.valid
    have hcollEpoch : m.collVersion.epoch = epoch := hcoll.trans h.epoch_eq
    have hraise := raise_epoch (hepoch.trans hcollEpoch.symm)
    apply isValid_iff.mpr
    exact ⟨le_raise_right _ _,
      raise_major_ne_zero hmajor (hversion hcall).1,
      hraise.trans (hcollEpoch.trans hepoch.symm), (hversion hcall).2⟩
  · intro hvalid
    exact ⟨⟨h.sharded, hepoch, hvalid, hchunks, h.pending, hranges, howned⟩, heffect,
      le_raise _ _⟩

/-- The same with the ranges of the new chunks, where there are some. -/
theorem release_filled (h : m.Sound epoch) {chunks : RangeMap κ}
    (hpos : call.Regular → 0 < version.major) (hepoch : version.epoch = epoch)
    (hchunks : Apart chunks.entries) (hne : chunks.entries ≠ [])
    (heffect : ∀ k, Owns chunks.entries k ↔ call.effect m.Owned k) :
    Answers epoch m call (release { m with
      chunksMap := chunks
      rangesMap := fillRanges chunks
      shardVersion := version
      collVersion := m.collVersion.raise version }) := by
  obtain ⟨hranges, hempty, howned⟩ := fillRanges_spec hchunks
  exact release_chunks h (fun hcall => ⟨.inr (hpos hcall), .inl ⟨hpos hcall, mt hempty.mp hne, hne⟩⟩)
    hepoch hchunks hranges howned heffect

theorem overlapFailure_ne {ranges : RangeMap κ} {error : List (κ × κ) → CloneError κ} :
    overlapFailure ranges min max error ≠ .invariantFailure := by
  rw [overlapFailure]
  split <;> nofun

theorem notContained_ne {ranges : RangeMap κ} {error : List (κ × κ) → CloneError κ} :
    notContained ranges min max error ≠ .invariantFailure := by
  rw [notContained]
  split
  · exact overlapFailure_ne
  · exact nofun

section
variable (h : m.Sound epoch)
include h

theorem cloneMigrate_answers (hepoch : version.epoch = epoch) :
    Answers epoch m (.migrate min max version) (m.cloneMigrate min max version) := by
  rw [cloneMigrate]
  split
  · exact fun hblamed => notContained_ne hblamed.1
  next hcontains =>
    have hmem := mem_of_rangeMapContains (by simpa using hcontains)
    have heffect : ∀ k, Owns (m.chunksMap.erase min).entries k ↔
        (CloneCall.migrate min max version).effect m.Owned k :=
      fun k => owns_erase h.chunks hmem
    have hapart : Apart (m.chunksMap.erase min).entries :=
      h.chunks.mono fun e he => (mem_erase.mp he).2
    have hlen := length_erase hmem
    split
    · exact nofun
    next hlast =>
      split
      · exact nofun
      next hgreater =>
        by_cases hone : m.chunksMap.entries.length = 1
        · -- the last chunk goes: the version is zero
          have hzero : version.combined = 0 := by
            have hset : version.isSet = false := by simpa [hone] using hlast
            rw [isSet] at hset
            simpa using hset
          obtain ⟨hmajor, hminor⟩ := parts_of_combined_eq_zero hzero
          have hnil := length_eq_zero_iff.mp (Nat.succ.inj (hlen.trans hone))
          obtain ⟨hranges, hempty, howned⟩ := fillRanges_spec hapart
          refine release_chunks h (fun hregular => ⟨hregular, .inr ⟨?_, ?_, hempty.mpr hnil, hnil⟩⟩)
            hepoch hapart hranges howned heffect
          · rw [hmajor]
            decide
          · rw [hminor]
            decide
        · have hgt : m.shardVersion.combined < version.combined := by simpa [hone] using hgreater
          have hne : (m.chunksMap.erase min).entries ≠ [] := by
            intro hnil
            rw [hnil] at hlen
            exact hone hlen.symm
          exact release_filled h (fun hregular => hregular.major_pos (by omega)) hepoch hapart hne heffect

theorem clonePlusChunk_answers (hepoch : version.epoch = epoch) :
    Answers epoch m (.plusChunk min max version) (m.clonePlusChunk min max version) := by
  rw [clonePlusChunk]
  split
  · exact nofun
  next hset =>
    have hset : 0 < version.combined := by
      simp only [isSet, Bool.not_eq_true', decide_eq_false_iff_not] at hset
      omega
    split
    next hle =>
      rintro ⟨-, hlt, -⟩
      exact absurd hlt (not_lt.mpr hle)
    next hlt =>
      have hlt := not_le.mp hlt
      split
      · exact fun hblamed => overlapFailure_ne hblamed.1
      next hover =>
        have hfree := free_of_not_overlaps h.chunks hlt (by simpa using hover)
        obtain ⟨hapart, hmem⟩ := insert_free hlt h.chunks hfree
        refine release_filled h (fun hregular => hregular.2.major_pos hset) hepoch hapart
          (ne_nil_of_mem ((hmem (min, max)).mpr (.inl rfl))) ?_
        intro k
        rw [owns_of_mem_iff hmem, or_comm]
        rfl

/-- Pending ranges replaced by others. -/
theorem release_pending {pending : RangeMap κ} (hp : Apart pending.entries)
    (hcall : call.effect m.Owned = m.Owned) :
    Answers epoch m call (release { m with pendingMap := pending }) := by
  apply release_holds
  · exact fun _ => h.valid
  · intro hvalid
    refine ⟨⟨h.sharded, h.epoch_eq, hvalid, h.chunks, hp, h.ranges, h.owned⟩, ?_, le_rfl⟩
    intro k
    rw [hcall]
    rfl

theorem cloneMinusPending_answers :
    Answers epoch m (.minusPending min max) (m.cloneMinusPending min max) := by
  rw [cloneMinusPending]
  split
  · exact fun hblamed => notContained_ne hblamed.1
  · exact release_pending h (h.pending.mono fun e he => (mem_erase.mp he).2) rfl

theorem clonePlusPending_answers (hlt : min < max) :
    Answers epoch m (.plusPending min max) (m.clonePlusPending min max) := by
  rw [clonePlusPending]
  split
  · exact fun hblamed => overlapFailure_ne hblamed.1
  · split
    next hover =>
      rw [getRangeMapOverlap_eq h.pending hlt]
      exact release_pending h (replace_overlapping h.pending hlt).1 rfl
    next hover =>
      have hfree := free_of_not_overlaps h.pending hlt (by simpa using hover)
      exact release_pending h (insert_free hlt h.pending hfree).1 rfl

theorem cloneSplit_answers {splitKeys : List κ} (hepoch : version.epoch = epoch) :
    Answers epoch m (.split min max splitKeys version)
      (m.cloneSplit min max splitKeys version) := by
  rw [cloneSplit]
  split
  · exact nofun
  next hgt =>
    split
    · exact fun hblamed => notContained_ne hblamed.1
    next hcontains =>
      have hmem := mem_of_rangeMapContains (by simpa using hcontains)
      split
      · exact nofun
      next hkeys =>
        have hkeys : ∀ k ∈ splitKeys, k < max := by
          intro k hk
          have hin := find?_eq_none.mp hkeys k hk
          exact (rangeContains_iff.mp (by simpa using hin)).2
        have hsplit := @splitChunks_holds _ _ min max splitKeys splitKeys m.chunksMap version h.chunks
          hmem hkeys
        refine (hsplit.of_blamed fun err hblamed => hblamed.1).bind ?_
        rintro ⟨chunks, version'⟩ ⟨hapart, hne, howns, hmajor, hepoch'⟩
        refine release_filled h ?_ (hepoch'.trans hepoch) hapart hne howns
        intro hregular
        rw [hmajor]
        exact hregular.major_pos (by omega)

theorem cloneMerge_answers (hepoch : version.epoch = epoch) :
    Answers epoch m (.merge min max version) (m.cloneMerge min max version) := by
  rw [cloneMerge]
  split
  · exact nofun
  next hgt =>
    match hoverlap : getRangeMapOverlap m.chunksMap min max with
    | none | some [] | some [_] => exact nofun
    | some (first :: second :: rest) =>
      have hlt : min < max := by
        by_contra hle
        have hlen := length_getRangeMapOverlap (not_lt.mp hle) hoverlap
        simp at hlen
      rw [getRangeMapOverlap_eq h.chunks hlt, Option.some.injEq] at hoverlap
      have hsub : ∀ e ∈ overlapping m.chunksMap.entries min max, e ∈ m.chunksMap.entries :=
        fun e he => (mem_filter.mp he).1
      dsimp only
      rw [← hoverlap]
      split
      · exact nofun
      next hends =>
        split
        · exact nofun
        next hholes =>
          have hholes : noHoles min (overlapping m.chunksMap.entries min max) := by simpa using hholes
          have hends : (overlapping m.chunksMap.entries min max).getLast?.map Prod.snd = some max := by
            simp only [Bool.or_eq_true, decide_eq_true_eq, not_or, not_not] at hends
            exact hends.2
          obtain ⟨hapart, hmem⟩ := replace_overlapping h.chunks hlt
          obtain ⟨-, -, -, hstate⟩ := isValid_iff.mp h.valid
          have hranges : m.rangesMap.entries ≠ [] := by
            rcases hstate with ⟨-, hne, -⟩ | ⟨-, -, -, hnil⟩
            · exact hne
            · have hfirst := hsub first (by rw [hoverlap]; simp)
              rw [hnil] at hfirst
              cases hfirst
          have howns : ∀ k, Owns ((eraseAll m.chunksMap
              (overlapping m.chunksMap.entries min max)).insert min max).entries k ↔
              Owns m.chunksMap.entries k := by
            intro k
            rw [owns_of_mem_iff hmem, ← (owns_of_noHoles
              (fun e he => h.chunks.nonempty e (hsub e he)) hholes hends).2]
            constructor
            · rintro (⟨e, he, hek⟩ | ⟨e, he, hek⟩)
              · exact ⟨e, hsub e he, hek⟩
              · exact ⟨e, (mem_eraseAll.mp he).1, hek⟩
            · rintro ⟨e, he, hek⟩
              by_cases hin : ∃ a ∈ overlapping m.chunksMap.entries min max, e.1 = a.1
              · obtain ⟨a, ha, hkey⟩ := hin
                have heq := eq_of_key_eq m.chunksMap.sorted he (hsub a ha) hkey
                exact .inl ⟨e, heq ▸ ha, hek⟩
              · simp only [not_exists, not_and] at hin
                exact .inr ⟨e, mem_eraseAll.mpr ⟨he, hin⟩, hek⟩
          exact release_chunks h (fun hregular => ⟨hregular, .inl ⟨hregular.major_pos (by omega),
            hranges, ne_nil_of_mem ((hmem (min, max)).mpr (.inl rfl))⟩⟩) hepoch hapart h.ranges
            (fun k => (h.owned k).trans (howns k).symm) howns

/-- One step: new metadata are sound again and own what they should. -/
theorem clone_answers (hcall : call.Proper epoch) : Answers epoch m call (m.clone call) := by
  cases call with
  | migrate min max version => exact cloneMigrate_answers h hcall
  | plusChunk min max version => exact clonePlusChunk_answers h hcall
  | minusPending min max => exact cloneMinusPending_answers h
  | plusPending min max => exact clonePlusPending_answers h hcall
  | split min max splitKeys version => exact cloneSplit_answers h hcall
  | merge minKey maxKey version => exact cloneMerge_answers h hcall

end

end Calls

/-! Sequences of calls. -/

def cloneStep (call : CloneCall κ) (m : CollectionMetadata κ) : Option (CollectionMetadata κ) :=
  (m.clone call).toOption

theorem sound_of_reach {m m' : CollectionMetadata κ} {epoch : Bson.OID} (h : m.Sound epoch)
    (hr : Transition.Reach cloneStep (fun _ call => call.Proper epoch) m m') : m'.Sound epoch := by
  refine @Transition.Reach.invariant _ _ _ _ _ _ (fun s => s.Sound epoch) hr h ?_
  intro s t call hs hcall hst
  rw [cloneStep] at hst
  match hclone : s.clone call with
  | .ok t' =>
    rw [hclone] at hst
    cases hst
    exact ((clone_answers hs hcall).of_ok hclone).1
  | .error err =>
    rw [hclone] at hst
    cases hst

/-- After any sequence of successful calls the metadata are valid, with disjoint chunks and pending
ranges, and own exactly the keys of their chunks; no further regular call violates an invariant,
and any call that succeeds changes what is owned as it should. -/
theorem clones_track_ownership {m m' : CollectionMetadata κ} {epoch : Bson.OID} (h : m.Sound epoch)
    (hr : Transition.Reach cloneStep (fun _ call => call.Proper epoch) m m') :
    m'.isValid = true ∧ Apart m'.chunksMap.entries ∧ Apart m'.pendingMap.entries ∧
    (∀ k, m'.keyBelongsToMe k = true ↔ Owns m'.chunksMap.entries k) ∧
    m'.shardVersion.combined ≤ m'.collVersion.combined ∧
    ∀ call : CloneCall κ, call.Proper epoch →
      (call.Regular → m'.clone call ≠ .error .invariantFailure) ∧
      ∀ m'', m'.clone call = .ok m'' →
        (∀ k, m''.keyBelongsToMe k = true ↔ call.effect (fun k => m'.keyBelongsToMe k = true) k) ∧
        m'.collVersion.combined ≤ m''.collVersion.combined := by
  have hs := sound_of_reach h hr
  have hbelongs : (fun k => m'.keyBelongsToMe k = true) = m'.Owned :=
    funext fun k => propext (keyBelongsToMe_iff hs)
  refine ⟨hs.valid, hs.chunks, hs.pending, fun k => keyBelongsToMe_iff hs,
    (isValid_iff.mp hs.valid).1, ?_⟩
  intro call hcall
  have hclone := clone_answers hs hcall
  refine ⟨fun hregular => hclone.not_error ⟨rfl, hregular⟩, ?_⟩
  intro m'' hm''
  obtain ⟨hs'', howned, hle⟩ := hclone.of_ok hm''
  refine ⟨fun k => ?_, hle⟩
  rw [keyBelongsToMe_iff hs'', howned, hbelongs]

/-- A shard that owns the keys from 0 to 10, as two chunks. -/
def twoChunks : CollectionMetadata Nat where
  keyPattern := [([97], .numberInt 1)]
  pendingMap := .empty
  chunksMap := ⟨[(0, 5), (5, 10)], by decide⟩
  rangesMap := ⟨[(0, 10)], by decide⟩
  shardVersion := ⟨1, 1, ⟨List.replicate 12 1, epoch_size⟩⟩
  collVersion := ⟨1, 1, ⟨List.replicate 12 1, epoch_size⟩⟩

theorem twoChunks_sound : twoChunks.Sound ⟨List.replicate 12 1, rfl⟩ := by
  refine ⟨by decide, rfl, by decide, ⟨by decide, by decide⟩, ⟨nofun, nofun⟩, ⟨by decide, by decide⟩, ?_⟩
  intro k
  simp only [Owns, InRange, twoChunks, mem_cons, not_mem_nil, or_false, exists_eq_left,
    exists_eq_or_imp]
  omega

/-- The shard expects a third chunk and gives the first one away; then it can take the third. -/
theorem clones_track_ownership_twoChunks : ∃ m,
    Transition.run cloneStep [.plusPending 12 15, .migrate 0 5 ⟨2, 0, ⟨List.replicate 12 1, rfl⟩⟩]
      twoChunks = some m ∧
    m.chunksMap.entries = [(5, 10)] ∧ m.pendingMap.entries = [(12, 15)] ∧
    (∀ k, m.keyBelongsToMe k = true ↔ Owns [(5, 10)] k) ∧
    m.clone (.plusChunk 12 15 ⟨3, 0, ⟨List.replicate 12 1, rfl⟩⟩) ≠ .error .invariantFailure := by
  have hrun : (Transition.run cloneStep
      [.plusPending 12 15, .migrate 0 5 ⟨2, 0, ⟨List.replicate 12 1, rfl⟩⟩] twoChunks).map
      (fun m => (m.chunksMap.entries, m.pendingMap.entries)) = some ([(5, 10)], [(12, 15)]) := by
    decide +kernel
  obtain ⟨m, hm, hmaps⟩ := Option.map_eq_some_iff.mp hrun
  obtain ⟨hchunks, hpending⟩ := Prod.mk.inj hmaps
  have hreach : Transition.Reach cloneStep
      (fun _ call => call.Proper ⟨List.replicate 12 1, rfl⟩) twoChunks m :=
    Transition.reach_of_run hm (by simp [CloneCall.Proper])
  obtain ⟨-, -, -, hbelongs, -, hcall⟩ := clones_track_ownership twoChunks_sound hreach
  exact ⟨m, hm, hchunks, hpending, hchunks ▸ hbelongs,
    (hcall (.plusChunk 12 15 ⟨3, 0, ⟨replicate 12 1, rfl⟩⟩) rfl).1 ⟨by decide, .inr (by decide)⟩⟩

/-- A shard of the same collection without chunks. -/
def noChunks : CollectionMetadata Nat where
  keyPattern := [([97], .numberInt 1)]
  pendingMap := .empty
  chunksMap := .empty
  rangesMap := .empty
  shardVersion := ⟨0, 0, ⟨List.replicate 12 1, epoch_size⟩⟩
  collVersion := ⟨1, 0, ⟨List.replicate 12 1, epoch_size⟩⟩

/-- A chunk added under the version 0|1, which is set but has no major part, violates an invariant;
and a pending range from 5 down to 0 hides an overlap from the next one. -/
theorem clones_lose_track : noChunks.Sound ⟨List.replicate 12 1, rfl⟩ ∧
    noChunks.clone (.plusChunk 0 10 ⟨0, 1, ⟨List.replicate 12 1, rfl⟩⟩) =
      .error .invariantFailure ∧
    (Transition.run cloneStep [.plusPending 0 10, .plusPending 5 0, .plusPending 6 8] noChunks).map
      (fun m => m.pendingMap.entries) = some [(0, 10), (5, 0), (6, 8)] := by
  refine ⟨⟨by decide, rfl, by decide, ⟨nofun, nofun⟩, ⟨nofun, nofun⟩, ⟨nofun, nofun⟩,
    fun _ => Iff.rfl⟩, ?_, by decide⟩
  rw [CollectionMetadata.clone, clonePlusChunk, if_neg (by decide), if_neg (by decide),
    if_neg (by decide), release, if_neg (by decide)]

end MongolDb.Sharding
