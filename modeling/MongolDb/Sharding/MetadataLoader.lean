import MongolDb.Sharding.ConfigHistory
import MongolDb.Sharding.Ownership

/-! Loading a shard's metadata from the config servers, with or without older metadata
(db/s/metadata_loader.cpp). -/
namespace MongolDb.Sharding
open Bson Ranges List ChunkVersion

variable {κ : Type} [LinearOrder κ] {w : ChunkVersion}

/-- How a load ends without metadata. What it leaves in the metadata then is not kept here. -/
inductive LoadFailure where
  /-- The chunks could not be read. -/
  | getChunks
  | namespaceNotFound
  | remoteChangeDetected
  /-- An `invariant` of the code is violated: the server stops. -/
  | invariantFailure
  deriving DecidableEq

/-- The metadata that `_initCollection` fills in. -/
def initCollection (keyPattern : Obj) (epoch : OID) : CollectionMetadata κ where
  keyPattern := keyPattern
  pendingMap := .empty
  chunksMap := .empty
  rangesMap := .empty
  shardVersion := ⟨0, 0, epoch⟩
  collVersion := ⟨0, 0, epoch⟩

/-- The old metadata, if they can be used for the diff. -/
def usableMetadata (oldMetadata : Option (CollectionMetadata κ)) (epoch : OID) :
    Option (CollectionMetadata κ) :=
  oldMetadata.filter fun old => old.collVersion.epoch = epoch

/-- What the differ is attached to. -/
def attached (shard : ShardId) (chunksMap : RangeMap κ) (collVersion shardVersion : ChunkVersion) :
    DiffState κ κ where
  currMap := chunksMap
  maxVersion := collVersion
  maxShardVersions := Function.update (fun _ => none) shard (some shardVersion)

theorem attached_shardVersion (shard : ShardId) (chunksMap : RangeMap κ) (v w : ChunkVersion) :
    (attached shard chunksMap v w).maxShardVersions shard = some w := by
  simp [attached]

/-- The end of `initChunks`, after the diff was applied. -/
def finishLoad (shard : ShardId) (metadata : CollectionMetadata κ) (fullReload : Bool)
    (diffsApplied : Int) (differ : DiffState κ κ) : Except LoadFailure (CollectionMetadata κ) :=
  if 0 < diffsApplied then
    let metadata := { metadata with
      chunksMap := differ.currMap
      rangesMap := fillRanges differ.currMap
      collVersion := differ.maxVersion
      -- the map has an entry for the shard
      shardVersion := (differ.maxShardVersions shard).getD metadata.shardVersion }
    if metadata.isValid then .ok metadata else .error .invariantFailure
  else if diffsApplied = 0 then
    .error (if fullReload then .namespaceNotFound else .remoteChangeDetected)
  else .error .remoteChangeDetected

/-- The part of `initChunks` that reads the chunks and applies them. -/
def loadDiff (getChunks : ChunkVersion → Option (List (Chunk κ))) (shard : ShardId)
    (metadata : CollectionMetadata κ) (fullReload : Bool) (differ : DiffState κ κ) :
    Except LoadFailure (CollectionMetadata κ) :=
  match getChunks differ.maxVersion with
  | none => .error .getChunks
  | some chunks =>
    let (diffsApplied, differ) := calculateConfigDiff (scmConfigDiffTracker shard) differ chunks
    finishLoad shard metadata fullReload diffsApplied differ

/-- `initChunks`; `getChunks` answers the query for the chunks from a version on. -/
def initChunks (getChunks : ChunkVersion → Option (List (Chunk κ))) (shard : ShardId)
    (oldMetadata : Option (CollectionMetadata κ)) (metadata : CollectionMetadata κ) :
    Except LoadFailure (CollectionMetadata κ) :=
  match usableMetadata oldMetadata metadata.collVersion.epoch with
  | none =>
    loadDiff getChunks shard metadata true
      (attached shard metadata.chunksMap metadata.collVersion metadata.shardVersion)
  | some old =>
    if old.isValid then
      loadDiff getChunks shard metadata false
        (attached shard old.chunksMap old.collVersion old.shardVersion)
    else .error .invariantFailure

/-! What a load ends with. -/

section
variable {shard : ShardId} {chunks Q : List (Chunk κ)} {epoch : OID} {s : DiffState κ κ}
  {v : ChunkVersion}

def chunksOf (shard : ShardId) (Q : List (Chunk κ)) : List (Chunk κ) :=
  Q.filter fun c => c.shard = shard

omit [LinearOrder κ] in
theorem mem_chunksOf {c : Chunk κ} : c ∈ chunksOf shard Q ↔ c ∈ Q ∧ c.shard = shard := by
  rw [chunksOf, mem_filter, decide_eq_true_eq]

omit [LinearOrder κ] in
theorem chunksOf_eq_nil : chunksOf shard Q = [] ↔ ∀ c ∈ Q, c.shard ≠ shard := by
  simp [chunksOf]

theorem noteShardVersion_self {versions : ShardId → Option ChunkVersion}
    (h : versions shard = some v) : noteShardVersion versions shard w shard = some (v.raise w) := by
  rw [noteShardVersion, h, raise]
  dsimp only
  split
  · rw [Function.update_self]
  · exact h

theorem noteShardVersion_of_ne {versions : ShardId → Option ChunkVersion}
    {other : ShardId} (hne : shard ≠ other) :
    noteShardVersion versions other w shard = versions shard := by
  rw [noteShardVersion]
  cases versions other with
  | none => exact Function.update_of_ne hne _ _
  | some known =>
    dsimp only
    split
    · exact Function.update_of_ne hne _ _
    · rfl

/-- The shard's version is raised by its own chunks. -/
theorem maxShardVersions_foldl {loop : DiffLoop κ κ} {t : Tracker κ κ} (ht : t.shardFor = id)
    (h : loop.state.maxShardVersions shard = some v) :
    (chunks.foldl (noteChunk t) loop).state.maxShardVersions shard =
      some ((chunksOf shard chunks).foldl (fun v c => v.raise c.version) v) := by
  induction chunks generalizing loop v with
  | nil => exact h
  | cons c chunks ih =>
    have hid : t.shardFor c.shard = c.shard := congrFun ht c.shard
    rw [foldl_cons]
    by_cases hc : c.shard = shard
    · have hcons : chunksOf shard (c :: chunks) = c :: chunksOf shard chunks := by
        simp [chunksOf, hc]
      rw [hcons, foldl_cons]
      apply ih
      change noteShardVersion loop.state.maxShardVersions (t.shardFor c.shard) c.version shard = _
      rw [hid, hc]
      exact noteShardVersion_self h
    · have hcons : chunksOf shard (c :: chunks) = chunksOf shard chunks := by
        simp [chunksOf, hc]
      rw [hcons]
      apply ih
      change noteShardVersion loop.state.maxShardVersions (t.shardFor c.shard) c.version shard = _
      rw [hid, noteShardVersion_of_ne fun heq => hc heq.symm]
      exact h

theorem maxShardVersions_calculateConfigDiff {t : Tracker κ κ} (ht : t.shardFor = id)
    (hvalid : ∀ c ∈ chunks, c.Valid s.maxVersion.epoch) (h : s.maxShardVersions shard = some v) :
    (calculateConfigDiff t s chunks).2.maxShardVersions shard =
      some ((chunksOf shard chunks).foldl (fun v c => v.raise c.version) v) := by
  rw [calculateConfigDiff, noteChunks_eq hvalid]
  exact @maxShardVersions_foldl κ _ shard chunks v ⟨s, 0, []⟩ t ht h

/-- The version that a load of all chunks gives to the shard. -/
structure IsShardVersion (shard : ShardId) (epoch : OID) (Q : List (Chunk κ)) (v : ChunkVersion) :
    Prop where
  ofChunks : chunksOf shard Q ≠ [] → IsMaxVersion (chunksOf shard Q) v
  ofNone : chunksOf shard Q = [] → v = ⟨0, 0, epoch⟩

omit [LinearOrder κ] in
theorem IsShardVersion.unique (hepoch : ∀ c ∈ Q, c.version.epoch = epoch)
    (hv : IsShardVersion shard epoch Q v) (hw : IsShardVersion shard epoch Q w) : v = w := by
  by_cases hnil : chunksOf shard Q = []
  · rw [hv.ofNone hnil, hw.ofNone hnil]
  · exact (hv.ofChunks hnil).unique (fun c hc => hepoch c (mem_chunksOf.mp hc).1) (hw.ofChunks hnil)

end

section Load
variable {shard : ShardId} {lo hi : κ} {P Q : List (Chunk κ)} {epoch : OID} {keyPattern : Obj}
  {getChunks : ChunkVersion → Option (List (Chunk κ))} {differ : DiffState κ κ}
  {m old : CollectionMetadata κ} {fullReload : Bool} {v : ChunkVersion}

/-- The config servers answer with the chunks of the state, in any order. -/
def AnswersFrom (getChunks : ChunkVersion → Option (List (Chunk κ))) (Q : List (Chunk κ)) : Prop :=
  ∀ v, ∃ chunks, getChunks v = some chunks ∧
    chunks.Perm (Q.filter fun c => decide (v.combined ≤ c.version.combined))

/-- Metadata that show the state of the shard. -/
structure Shows (shard : ShardId) (keyPattern : Obj) (epoch : OID) (Q : List (Chunk κ))
    (m : CollectionMetadata κ) : Prop where
  keyPattern_eq : m.keyPattern = keyPattern
  pending : m.pendingMap = .empty
  reflects : Reflects (scmConfigDiffTracker shard) Q ⟨m.chunksMap, m.collVersion, fun _ => none⟩
  ranges : m.rangesMap = fillRanges m.chunksMap
  version : IsShardVersion shard epoch Q m.shardVersion

theorem Shows.unique {m m' : CollectionMetadata κ} (hQ : ConfigState lo hi epoch Q)
    (h : Shows shard keyPattern epoch Q m) (h' : Shows shard keyPattern epoch Q m') : m = m' := by
  obtain ⟨hmap, hversion⟩ := h.reflects.unique hQ.valid h'.reflects
  have hshard := h.version.unique hQ.epoch_eq h'.version
  obtain ⟨pattern, pending, chunks, ranges, shardVersion, collVersion⟩ := m
  obtain ⟨pattern', pending', chunks', ranges', shardVersion', collVersion'⟩ := m'
  obtain rfl : pattern = pattern' := h.keyPattern_eq.trans h'.keyPattern_eq.symm
  obtain rfl : pending = pending' := h.pending.trans h'.pending.symm
  obtain rfl : chunks = chunks' := hmap
  obtain rfl : collVersion = collVersion' := hversion
  obtain rfl : shardVersion = shardVersion' := hshard
  obtain rfl : ranges = ranges' := h.ranges.trans h'.ranges.symm
  rfl

theorem chunksMap_empty_iff (h : Reflects (scmConfigDiffTracker shard) Q differ) :
    differ.currMap.entries = [] ↔ chunksOf shard Q = [] := by
  rw [eq_nil_iff_forall_not_mem, chunksOf_eq_nil]
  constructor
  · intro hnone c hc hshard
    exact hnone (c.min, c.max) ((h.entries _).mpr ⟨c, hc, decide_eq_true hshard, rfl⟩)
  · intro hnone e he
    obtain ⟨c, hc, hshard, -⟩ := (h.entries e).mp he
    exact hnone c hc (of_decide_eq_true hshard)

/-- The chunks of one shard are apart. -/
theorem Reflects.apart (hQ : Tiles Chunk.range lo hi Q)
    (h : Reflects (scmConfigDiffTracker shard) Q differ) : Apart differ.currMap.entries := by
  constructor
  · intro e he
    obtain ⟨c, hc, -, rfl⟩ := (h.entries e).mp he
    exact hQ.nonempty c hc
  · intro a ha b hb hlt
    obtain ⟨c, hc, -, rfl⟩ := (h.entries a).mp ha
    obtain ⟨d, hd, -, rfl⟩ := (h.entries b).mp hb
    have hne : c ≠ d := by
      rintro rfl
      exact lt_irrefl _ hlt
    rcases hQ.disjoint hc hd hne with hle | hle
    · exact hle
    · have hdmin : d.min < d.max := hQ.nonempty d hd
      exact absurd (hdmin.trans_le hle) (lt_asymm hlt)

section
variable (hQ : ConfigState lo hi epoch Q)
include hQ

theorem isValid_iff_version
    (h : Reflects (scmConfigDiffTracker shard) Q ⟨m.chunksMap, m.collVersion, fun _ => none⟩)
    (hranges : m.rangesMap = fillRanges m.chunksMap) (hepoch : m.shardVersion.epoch = epoch)
    (hle : m.shardVersion.combined ≤ m.collVersion.combined) :
    m.isValid = true ↔ ((0 < m.shardVersion.major ∧ chunksOf shard Q ≠ []) ∨
      (¬ 0 < m.shardVersion.major ∧ ¬ 0 < m.shardVersion.minor ∧ chunksOf shard Q = [])) := by
  obtain ⟨c, hc, hversion⟩ := h.version.attained
  have hversion : c.version = m.collVersion := hversion
  have hmajor : m.collVersion.major ≠ 0 := by
    have hpos := hQ.major_pos c hc
    rw [hversion] at hpos
    intro hzero
    rw [hzero] at hpos
    exact absurd hpos (by decide)
  have hcoll : m.collVersion.epoch = m.shardVersion.epoch := by
    rw [hepoch, ← hversion]
    exact hQ.epoch_eq c hc
  have hempty : m.chunksMap.entries = [] ↔ chunksOf shard Q = [] := chunksMap_empty_iff h
  have hranged : m.rangesMap.entries = [] ↔ chunksOf shard Q = [] := by
    rw [hranges]
    have happart : Apart m.chunksMap.entries := Reflects.apart hQ.tiles h
    exact (fillRanges_spec happart).2.1.trans hempty
  rw [CollectionMetadata.isValid_iff, ne_eq, ne_eq, hempty, hranged]
  simp [hle, hmajor, hcoll, hempty]

/-- A load whose diff reflects the state succeeds if the shard's version is the right one. -/
theorem loadDiff_eq (hanswers : AnswersFrom getChunks Q)
    (hepoch : differ.maxVersion.epoch = epoch) (hv : differ.maxShardVersions shard = some v)
    (hreflects : ∀ chunks : List (Chunk κ), chunks.Perm (Q.filter fun c =>
        decide (differ.maxVersion.combined ≤ c.version.combined)) →
      0 < (calculateConfigDiff (scmConfigDiffTracker shard) differ chunks).1 ∧
        Reflects (scmConfigDiffTracker shard) Q
          (calculateConfigDiff (scmConfigDiffTracker shard) differ chunks).2) :
    ∃ (chunks : List (Chunk κ)) (m : CollectionMetadata κ),
      chunks.Perm (Q.filter fun c => decide (differ.maxVersion.combined ≤ c.version.combined)) ∧
      Reflects (scmConfigDiffTracker shard) Q ⟨m.chunksMap, m.collVersion, fun _ => none⟩ ∧
      m.keyPattern = keyPattern ∧ m.pendingMap = .empty ∧ m.rangesMap = fillRanges m.chunksMap ∧
      m.shardVersion = (chunksOf shard chunks).foldl (fun v c => v.raise c.version) v ∧
      loadDiff getChunks shard (initCollection keyPattern epoch) fullReload differ =
        if m.isValid then .ok m else .error .invariantFailure := by
  obtain ⟨chunks, hchunks, hperm⟩ := hanswers differ.maxVersion
  obtain ⟨hpos, hreflects⟩ := hreflects chunks hperm
  have hvalid : ∀ c ∈ chunks, c.Valid differ.maxVersion.epoch := by
    intro c hc
    rw [hepoch]
    exact hQ.valid c (mem_filter.mp (hperm.mem_iff.mp hc)).1
  have hshard := @maxShardVersions_calculateConfigDiff κ _ shard chunks differ v
    (scmConfigDiffTracker shard) rfl hvalid hv
  generalize hresult : calculateConfigDiff (scmConfigDiffTracker shard) differ chunks = result
    at hpos hreflects hshard
  obtain ⟨n, s⟩ := result
  refine ⟨chunks, ⟨keyPattern, .empty, s.currMap, fillRanges s.currMap,
    (chunksOf shard chunks).foldl (fun v c => v.raise c.version) v, s.maxVersion⟩, hperm,
    ⟨hreflects.entries, hreflects.version⟩, rfl, rfl, rfl, by dsimp only, ?_⟩
  have hpos : 0 < n := hpos
  have hshard : s.maxShardVersions shard =
      some ((chunksOf shard chunks).foldl (fun v c => v.raise c.version) v) := hshard
  rw [loadDiff, hchunks]
  dsimp only
  rw [hresult]
  rw [finishLoad, if_pos hpos, hshard]
  rfl

/-- The version of a shard belongs to the epoch and is not above that of the collection. -/
theorem IsShardVersion.le (hw : IsMaxVersion Q w)
    (h : IsShardVersion shard epoch Q v) : v.epoch = epoch ∧ v.combined ≤ w.combined := by
  by_cases hnil : chunksOf shard Q = []
  · rw [h.ofNone hnil, combined_zero]
    exact ⟨rfl, Nat.zero_le _⟩
  · obtain ⟨c, hc, rfl⟩ := (h.ofChunks hnil).attained
    have hcQ := (mem_chunksOf.mp hc).1
    exact ⟨hQ.epoch_eq c hcQ, hw.bound c hcQ⟩

/-- Metadata that show a state are valid. -/
theorem Shows.isValid (h : Shows shard keyPattern epoch Q m) : m.isValid = true := by
  obtain ⟨hepoch, hle⟩ := h.version.le hQ h.reflects.version
  apply (isValid_iff_version hQ h.reflects h.ranges hepoch hle).mpr
  by_cases hnil : chunksOf shard Q = []
  · rw [h.version.ofNone hnil]
    exact .inr ⟨Int32.lt_irrefl, Int32.lt_irrefl, hnil⟩
  · obtain ⟨c, hc, hversion⟩ := (h.version.ofChunks hnil).attained
    rw [← hversion]
    exact .inl ⟨hQ.major_pos c (mem_chunksOf.mp hc).1, hnil⟩

theorem Shows.sound (h : Shows shard keyPattern epoch Q m) (hpattern : keyPattern ≠ []) :
    m.Sound epoch := by
  have hchunks : Apart m.chunksMap.entries := Reflects.apart hQ.tiles h.reflects
  obtain ⟨hranges, -, howned⟩ := fillRanges_spec hchunks
  rw [← h.ranges] at hranges howned
  exact ⟨h.keyPattern_eq ▸ hpattern, (h.version.le hQ h.reflects.version).1, h.isValid hQ, hchunks,
    h.pending ▸ ⟨nofun, nofun⟩, hranges, howned⟩

end

/-- A load without old metadata. -/
theorem initChunks_full (hlo : lo < hi) (hQ : ConfigState lo hi epoch Q)
    (hanswers : AnswersFrom getChunks Q) :
    ∃ m, initChunks getChunks shard none (initCollection keyPattern epoch) = .ok m ∧
      Shows shard keyPattern epoch Q m := by
  have hall : ∀ chunks : List (Chunk κ), chunks.Perm (Q.filter fun c =>
      decide (combined ⟨0, 0, epoch⟩ ≤ c.version.combined)) → chunks.Perm Q := by
    intro chunks hperm
    have hfilter : (Q.filter fun c =>
        decide (combined ⟨0, 0, epoch⟩ ≤ c.version.combined)) = Q := by
      rw [filter_eq_self]
      intro c _
      rw [combined_zero]
      exact decide_eq_true (Nat.zero_le _)
    rwa [hfilter] at hperm
  obtain ⟨chunks, m, hperm, hreflects, hpattern, hpending, hranges, hversion, hload⟩ :=
    @loadDiff_eq κ _ shard lo hi Q epoch keyPattern getChunks
      (attached shard .empty ⟨0, 0, epoch⟩ ⟨0, 0, epoch⟩) true ⟨0, 0, epoch⟩ hQ hanswers rfl
      (attached_shardVersion _ _ _ _) fun chunks hperm =>
        load_reflects (fun _ => rfl) hQ.tiles hQ.valid hlo ⟨rfl, rfl⟩ (hall chunks hperm)
  have hmem : ∀ c, c ∈ chunksOf shard chunks ↔ c ∈ chunksOf shard Q := by
    intro c
    rw [mem_chunksOf, mem_chunksOf, (hall _ hperm).mem_iff]
  have hshows : Shows shard keyPattern epoch Q m := by
    refine ⟨hpattern, hpending, hreflects, hranges, ?_, ?_⟩
    · intro hne
      obtain ⟨c, hc⟩ := exists_mem_of_ne_nil _ hne
      rw [hversion]
      refine isMaxVersion_foldl (fun d hd => hQ.epoch_eq d (mem_chunksOf.mp hd).1) rfl
        (fun d hd => (hmem d).mp hd) (fun d hd hnot => absurd ((hmem d).mpr hd) hnot) hc ?_
      rw [combined_zero]
      exact Nat.zero_le _
    · intro hnil
      have hnone : chunksOf shard chunks = [] :=
        subset_nil.mp fun c hc => hnil ▸ (hmem c).mp hc
      rw [hversion, hnone]
      rfl
  refine ⟨m, ?_, hshows⟩
  change loadDiff getChunks shard (initCollection keyPattern epoch) true
    (attached shard .empty ⟨0, 0, epoch⟩ ⟨0, 0, epoch⟩) = _
  rw [hload, if_pos (hshows.isValid hQ)]

section Refresh
variable {chunks : List (Chunk κ)} (hold : Shows shard keyPattern epoch P old)
include hold

/-- The load starts from the old metadata. -/
theorem initChunks_some (hP : ConfigState lo hi epoch P) (hepoch : old.collVersion.epoch = epoch) :
    initChunks getChunks shard (some old) (initCollection keyPattern epoch) =
      loadDiff getChunks shard (initCollection keyPattern epoch) false
        (attached shard old.chunksMap old.collVersion old.shardVersion) := by
  have husable : usableMetadata (some old) epoch = some old := by
    rw [usableMetadata, Option.filter_some, if_pos (decide_eq_true hepoch)]
  change (match usableMetadata (some old) epoch with
    | none => _
    | some old => _) = _
  rw [husable]
  dsimp only
  rw [if_pos (hold.isValid hP)]

/-- The version of a shard that keeps a chunk does not fall. -/
theorem exists_not_below (hlater : Later P Q) (hc : c ∈ chunksOf shard Q) :
    ∃ q ∈ chunksOf shard Q, old.shardVersion.combined ≤ q.version.combined := by
  by_cases hnil : chunksOf shard P = []
  · refine ⟨c, hc, ?_⟩
    rw [hold.version.ofNone hnil, combined_zero]
    exact Nat.zero_le _
  · obtain ⟨d, hd, hdversion⟩ := (hold.version.ofChunks hnil).attained
    obtain ⟨hd, hshard⟩ := mem_chunksOf.mp hd
    obtain ⟨hc, hcshard⟩ := mem_chunksOf.mp hc
    obtain ⟨q, hq, hqshard, hle⟩ := hlater.shardRises d hd ⟨c, hc, hcshard.trans hshard.symm⟩
    exact ⟨q, mem_chunksOf.mpr ⟨hq, hqshard.trans hshard⟩, hdversion ▸ hle⟩

/-- A chunk that is not in the diff was there before. -/
theorem le_of_not_in_diff (hlater : Later P Q) (hperm : chunks.Perm
      (Q.filter fun c => decide (old.collVersion.combined ≤ c.version.combined)))
    (hc : c ∈ chunksOf shard Q) (hnot : c ∉ chunksOf shard chunks) :
    c.version.combined ≤ old.shardVersion.combined := by
  obtain ⟨p, hp, hpversion⟩ := hold.reflects.version.attained
  have hpversion : p.version = old.collVersion := hpversion
  obtain ⟨hc, hshard⟩ := mem_chunksOf.mp hc
  have hcP : c ∈ P := by
    by_contra hfresh
    apply hnot
    refine mem_chunksOf.mpr ⟨hperm.mem_iff.mpr (mem_filter.mpr ⟨hc, ?_⟩), hshard⟩
    have hlt := hlater.newer c hc hfresh p hp
    rw [hpversion] at hlt
    exact decide_eq_true hlt.le
  have hmem : c ∈ chunksOf shard P := mem_chunksOf.mpr ⟨hcP, hshard⟩
  exact (hold.version.ofChunks (ne_nil_of_mem hmem)).bound c hmem

/-- A shard that has lost its chunks and keeps its version has no valid metadata. -/
theorem not_isValid_of_lost (hP : ConfigState lo hi epoch P) (hQ : ConfigState lo hi epoch Q)
    (hlater : Later P Q)
    (h : Reflects (scmConfigDiffTracker shard) Q ⟨m.chunksMap, m.collVersion, fun _ => none⟩)
    (hranges : m.rangesMap = fillRanges m.chunksMap) (hkept : m.shardVersion = old.shardVersion)
    (hnil : chunksOf shard Q = []) (hne : chunksOf shard P ≠ []) : ¬ m.isValid = true := by
  obtain ⟨d, hd, hdversion⟩ := (hold.version.ofChunks hne).attained
  have hd := (mem_chunksOf.mp hd).1
  have hpos := hP.major_pos d hd
  obtain ⟨q, hq, hle⟩ := hlater.rises d hd
  have hversion : m.shardVersion = d.version := hkept.trans hdversion.symm
  intro hvalid
  rw [isValid_iff_version hQ h hranges (by rw [hversion, hP.epoch_eq d hd]) (by
    rw [hversion]
    exact hle.trans (h.version.bound q hq)), hversion] at hvalid
  rcases hvalid with ⟨-, hsome⟩ | ⟨hzero, -⟩
  · exact hsome hnil
  · exact hzero hpos

/-- A load with old metadata shows the later state, unless the shard has lost all its chunks: then
it keeps a version without chunks. -/
theorem initChunks_refresh (hP : ConfigState lo hi epoch P) (hQ : ConfigState lo hi epoch Q)
    (hlater : Later P Q) (hanswers : AnswersFrom getChunks Q) :
    ((chunksOf shard Q ≠ [] ∨ chunksOf shard P = []) →
      ∃ m, initChunks getChunks shard (some old) (initCollection keyPattern epoch) = .ok m ∧
        Shows shard keyPattern epoch Q m) ∧
    (chunksOf shard Q = [] → chunksOf shard P ≠ [] →
      initChunks getChunks shard (some old) (initCollection keyPattern epoch) =
        .error .invariantFailure) := by
  have hcollEpoch : old.collVersion.epoch = epoch := by
    obtain ⟨p, hp, hpversion⟩ := hold.reflects.version.attained
    exact (congrArg ChunkVersion.epoch hpversion).symm.trans (hP.epoch_eq p hp)
  have hreflectsP : Reflects (scmConfigDiffTracker shard) P
      (attached shard old.chunksMap old.collVersion old.shardVersion) :=
    ⟨hold.reflects.entries, hold.reflects.version⟩
  rw [initChunks_some hold hP hcollEpoch]
  obtain ⟨chunks, m, hperm, hreflects, hpattern, hpending, hranges, hversion, hload⟩ :=
    @loadDiff_eq κ _ shard lo hi Q epoch keyPattern getChunks
      (attached shard old.chunksMap old.collVersion old.shardVersion) false old.shardVersion hQ
      hanswers hcollEpoch (attached_shardVersion _ _ _ _) fun _ hperm =>
        refresh_reflects (fun _ => rfl) hQ.tiles hQ.valid hP.tiles hP.valid hlater.newer hreflectsP
          hperm
  have hchunks : ∀ c ∈ chunksOf shard chunks, c ∈ chunksOf shard Q := by
    intro c hc
    obtain ⟨hc, hshard⟩ := mem_chunksOf.mp hc
    exact mem_chunksOf.mpr ⟨(mem_filter.mp (hperm.mem_iff.mp hc)).1, hshard⟩
  have hkept : chunksOf shard Q = [] → m.shardVersion = old.shardVersion := by
    intro hnil
    have hnone : chunksOf shard chunks = [] :=
      subset_nil.mp fun c hc => hnil ▸ hchunks c hc
    rw [hversion, hnone]
    rfl
  rw [hload]
  constructor
  · intro hcond
    have hshows : Shows shard keyPattern epoch Q m := by
      refine ⟨hpattern, hpending, hreflects, hranges, ?_, ?_⟩
      · intro hne
        obtain ⟨c, hc⟩ := exists_mem_of_ne_nil _ hne
        obtain ⟨q, hq, hle⟩ := exists_not_below hold hlater hc
        rw [hversion]
        exact isMaxVersion_foldl (fun d hd => hQ.epoch_eq d (mem_chunksOf.mp hd).1)
          (hold.version.le hP hold.reflects.version).1 hchunks
          (fun d hd hnot => le_of_not_in_diff hold hlater hperm hd hnot) hq hle
      · intro hnil
        rw [hkept hnil]
        exact hold.version.ofNone (hcond.resolve_left fun hne => hne hnil)
    exact ⟨m, if_pos (hshows.isValid hQ), hshows⟩
  · intro hnil hne
    exact if_neg (not_isValid_of_lost hold hP hQ hlater hreflects hranges (hkept hnil) hnil hne)

end Refresh

end Load

/-! Histories of loads. -/

/-- The metadata that a shard can have loaded for a state. -/
inductive Loaded (lo hi : κ) (epoch : OID) (shard : ShardId) (keyPattern : Obj) :
    List (Chunk κ) → CollectionMetadata κ → Prop where
  | full {P : List (Chunk κ)} {m : CollectionMetadata κ}
      {getChunks : ChunkVersion → Option (List (Chunk κ))} (state : ConfigState lo hi epoch P)
      (answers : AnswersFrom getChunks P)
      (load : initChunks getChunks shard none (initCollection keyPattern epoch) = .ok m) :
      Loaded lo hi epoch shard keyPattern P m
  | refresh {P Q : List (Chunk κ)} {old m : CollectionMetadata κ}
      {getChunks : ChunkVersion → Option (List (Chunk κ))}
      (before : Loaded lo hi epoch shard keyPattern P old) (history : History lo hi epoch P Q)
      (answers : AnswersFrom getChunks Q)
      (load : initChunks getChunks shard (some old) (initCollection keyPattern epoch) = .ok m) :
      Loaded lo hi epoch shard keyPattern Q m

section Loaded
variable {lo hi : κ} {epoch : OID} {shard : ShardId} {keyPattern : Obj} {P Q : List (Chunk κ)}
  {m : CollectionMetadata κ} {getChunks : ChunkVersion → Option (List (Chunk κ))}

theorem Loaded.shows (hlo : lo < hi) (h : Loaded lo hi epoch shard keyPattern P m) :
    ConfigState lo hi epoch P ∧ Shows shard keyPattern epoch P m := by
  induction h with
  | full state answers load =>
    obtain ⟨m', hm', hshows⟩ := @initChunks_full κ _ shard _ _ _ _ keyPattern _ hlo state answers
    obtain rfl : m' = _ := Except.ok.inj (hm'.symm.trans load)
    exact ⟨state, hshows⟩
  | @refresh P Q old m getChunks before history answers load ih =>
    obtain ⟨hP, hold⟩ := ih
    obtain ⟨hQ, hlater⟩ := history.later hP
    obtain ⟨hok, hfails⟩ := initChunks_refresh hold hP hQ hlater answers
    by_cases hcond : chunksOf shard Q ≠ [] ∨ chunksOf shard P = []
    · obtain ⟨m', hm', hshows⟩ := hok hcond
      obtain rfl : m' = m := Except.ok.inj (hm'.symm.trans load)
      exact ⟨hQ, hshows⟩
    · obtain ⟨hnil, hne⟩ := not_or.mp hcond
      rw [hfails (not_not.mp hnil) hne] at load
      cases load

/-- A refresh succeeds and gives the same metadata as a full load if and only if the shard has a
chunk now or had none before. -/
theorem refresh_succeeds_iff (hlo : lo < hi) {old : CollectionMetadata κ}
    (hold : Loaded lo hi epoch shard keyPattern P old) (history : History lo hi epoch P Q)
    (answers : AnswersFrom getChunks Q) :
    (∃ m, initChunks getChunks shard (some old) (initCollection keyPattern epoch) = .ok m ∧
      initChunks getChunks shard none (initCollection keyPattern epoch) = .ok m) ↔
    (∃ c ∈ Q, c.shard = shard) ∨ ∀ c ∈ P, c.shard ≠ shard := by
  obtain ⟨hP, hshows⟩ := hold.shows hlo
  obtain ⟨hQ, hlater⟩ := history.later hP
  obtain ⟨hok, hfails⟩ := initChunks_refresh hshows hP hQ hlater answers
  have hsome : chunksOf shard Q ≠ [] ↔ ∃ c ∈ Q, c.shard = shard := by
    simp [chunksOf_eq_nil]
  rw [← hsome, ← chunksOf_eq_nil]
  constructor
  · rintro ⟨m, hm, -⟩
    by_contra hcond
    obtain ⟨hnil, hne⟩ := not_or.mp hcond
    rw [hfails (not_not.mp hnil) hne] at hm
    cases hm
  · intro hcond
    obtain ⟨m, hm, hshowsQ⟩ := hok hcond
    obtain ⟨m', hm', hfull⟩ := @initChunks_full κ _ shard _ _ _ _ keyPattern _ hlo hQ answers
    obtain rfl := hshowsQ.unique hQ hfull
    exact ⟨m, hm, hm'⟩

/-- The metadata that shards load for a state give a key to the shard of its chunk and to no other. -/
theorem belongs_iff_shard (hlo : lo < hi) (hpattern : keyPattern ≠ [])
    (h : Loaded lo hi epoch shard keyPattern P m) {c : Chunk κ} (hc : c ∈ P) {k : κ}
    (hk : InRange c.range k) : m.keyBelongsToMe k = true ↔ c.shard = shard := by
  obtain ⟨hP, hshows⟩ := h.shows hlo
  rw [keyBelongsToMe_iff (hshows.sound hP hpattern)]
  constructor
  · rintro ⟨e, he, hek⟩
    obtain ⟨c', hc', hshard, rfl⟩ := (hshows.reflects.entries e).mp he
    -- chunks that share a key are the same
    obtain rfl : c' = c := by
      by_contra hne
      rcases hP.tiles.disjoint hc' hc hne with hle | hle
      · exact lt_irrefl k (hek.2.trans_le (hle.trans hk.1))
      · exact lt_irrefl k (hk.2.trans_le (hle.trans hek.1))
    exact of_decide_eq_true hshard
  · intro hshard
    exact ⟨_, (hshows.reflects.entries _).mpr ⟨c, hc, decide_eq_true hshard, rfl⟩, hk⟩

end Loaded

/-- The whole chunk of shard `A`, moved to shard `B`. -/
def movedChunk : Chunk Nat := ⟨0, 10, "B", ⟨2, 0, ⟨List.replicate 12 1, epoch_size⟩⟩⟩

theorem wholeChunk_state : ConfigState 0 10 ⟨List.replicate 12 1, rfl⟩ [wholeChunk] := by
  refine ⟨tiles_whole, ?_, ?_⟩
  · simp [wholeChunk]
  · simp [wholeChunk]

theorem movedChunk_history :
    History 0 10 ⟨List.replicate 12 1, rfl⟩ [wholeChunk] [movedChunk] := by
  refine .single ⟨⟨⟨by decide, by decide, pairwise_singleton _ _, ?_⟩, ?_, ?_⟩,
    .moveLast wholeChunk movedChunk [] (.refl _) (.refl _) rfl nofun ?_⟩
  · intro k hlo hhi
    exact ⟨movedChunk, mem_singleton_self _, hlo, hhi⟩
  · simp [movedChunk]
  · simp [movedChunk]
  · intro d hd
    rw [mem_singleton.mp hd]
    decide

/-- The config servers' answers to every query. -/
def answer (Q : List (Chunk Nat)) (v : ChunkVersion) : Option (List (Chunk Nat)) :=
  some (Q.filter fun c => decide (v.combined ≤ c.version.combined))

theorem answersFrom_answer (Q : List (Chunk Nat)) : AnswersFrom (answer Q) Q :=
  fun _ => ⟨_, rfl, .refl _⟩

/-- Shard `B` had no chunks and gets one. -/
theorem refresh_succeeds_iff_gained : ∃ old m,
    Loaded 0 10 ⟨List.replicate 12 1, rfl⟩ "B" [] [wholeChunk] old ∧
    initChunks (answer [movedChunk]) "B" (some old) (initCollection [] ⟨List.replicate 12 1, rfl⟩) =
      .ok m ∧
    initChunks (answer [movedChunk]) "B" none (initCollection [] ⟨List.replicate 12 1, rfl⟩) =
      .ok m := by
  obtain ⟨old, hold, -⟩ := @initChunks_full Nat _ "B" _ _ _ _ [] _ (by decide) wholeChunk_state
    (answersFrom_answer _)
  have hloaded := Loaded.full wholeChunk_state (answersFrom_answer _) hold
  obtain ⟨m, hm⟩ := (refresh_succeeds_iff (by decide) hloaded movedChunk_history
    (answersFrom_answer _)).mpr (.inl ⟨movedChunk, by simp, rfl⟩)
  exact ⟨old, m, hloaded, hm⟩

/-- After the chunk has moved, shard `B` refreshes what it had loaded before. -/
theorem belongs_iff_shard_moved : ∃ old m,
    Loaded 0 10 ⟨List.replicate 12 1, rfl⟩ "B" [([], .minKey)] [wholeChunk] old ∧
    Loaded 0 10 ⟨List.replicate 12 1, rfl⟩ "B" [([], .minKey)] [movedChunk] m ∧
    old.keyBelongsToMe 3 = false ∧ m.keyBelongsToMe 3 = true := by
  obtain ⟨old, hold, hshows⟩ := @initChunks_full Nat _ "B" _ _ _ _ [([], .minKey)] _ (by decide)
    wholeChunk_state (answersFrom_answer _)
  have hbefore := Loaded.full wholeChunk_state (answersFrom_answer _) hold
  obtain ⟨hQ, hlater⟩ := movedChunk_history.later wholeChunk_state
  obtain ⟨m, hm, -⟩ := (initChunks_refresh hshows wholeChunk_state hQ hlater
    (answersFrom_answer _)).1 (.inl (by decide))
  have hloaded := hbefore.refresh movedChunk_history (answersFrom_answer _) hm
  have hold := belongs_iff_shard (by decide) (by decide) hbefore (mem_singleton_self _)
    (show InRange wholeChunk.range 3 from ⟨by decide, by decide⟩)
  have hnew := belongs_iff_shard (by decide) (by decide) hloaded (mem_singleton_self _)
    (show InRange movedChunk.range 3 from ⟨by decide, by decide⟩)
  exact ⟨old, m, hbefore, hloaded, by simpa using mt hold.mp (by decide), hnew.mpr rfl⟩

/-- Shard `A` loses its only chunk: its next refresh stops the server. -/
theorem refresh_after_last_chunk_moved : ∃ old,
    Loaded 0 10 ⟨List.replicate 12 1, rfl⟩ "A" [] [wholeChunk] old ∧
    History 0 10 ⟨List.replicate 12 1, rfl⟩ [wholeChunk] [movedChunk] ∧
    initChunks (answer [movedChunk]) "A" (some old) (initCollection [] ⟨List.replicate 12 1, rfl⟩) =
      .error .invariantFailure := by
  obtain ⟨old, hold, hshows⟩ := @initChunks_full Nat _ "A" _ _ _ _ [] _ (by decide) wholeChunk_state
    (answersFrom_answer _)
  obtain ⟨hQ, hlater⟩ := movedChunk_history.later wholeChunk_state
  refine ⟨old, .full wholeChunk_state (answersFrom_answer _) hold, movedChunk_history, ?_⟩
  exact (initChunks_refresh hshows wholeChunk_state hQ hlater (answersFrom_answer _)).2 (by decide)
    (by decide)

end MongolDb.Sharding
