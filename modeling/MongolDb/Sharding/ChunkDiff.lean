import MongolDb.Sharding.ChunkVersion
import MongolDb.Sharding.RangeArithmetic

/-! Refreshing a map of chunks from the config servers (s/chunk_diff.cpp), for the two trackers of
s/chunk_manager.cpp and db/s/metadata_loader.cpp. -/
namespace MongolDb.Sharding
open Bson

abbrev ShardId := String

/-- A document of config.chunks (`ChunkType`). -/
structure Chunk (κ : Type) where
  min : κ
  max : κ
  shard : ShardId
  version : ChunkVersion
  deriving DecidableEq

def Chunk.range {κ : Type} (chunk : Chunk κ) : κ × κ := (chunk.min, chunk.max)

section Model
variable {κ ν : Type} [LinearOrder κ]

/-- What a `ConfigDiffTracker` leaves open. -/
structure Tracker (κ ν : Type) where
  isTracked : Chunk κ → Bool
  isMinKeyIndexed : Bool
  rangeFor : Chunk κ → κ × ν
  shardFor : String → ShardId

/-- `CMConfigDiffTracker` of mongos: all chunks, by their max. The registry of shards maps names to
ids; how much was written to a chunk is left out. -/
def cmConfigDiffTracker (shardFor : String → ShardId) : Tracker κ (Chunk κ) where
  isTracked _ := true
  isMinKeyIndexed := false
  rangeFor chunk := (chunk.max, chunk)
  shardFor := shardFor

/-- `SCMConfigDiffTracker` of mongod: the chunks of one shard, by their min. -/
def scmConfigDiffTracker (currShard : ShardId) : Tracker κ κ where
  isTracked chunk := chunk.shard = currShard
  isMinKeyIndexed := true
  rangeFor chunk := (chunk.min, chunk.max)
  shardFor name := name

/-- What a tracker is attached to. -/
structure DiffState (κ ν : Type) [LinearOrder κ] where
  currMap : SortedMap κ ν
  maxVersion : ChunkVersion
  maxShardVersions : ShardId → Option ChunkVersion

/-- The entry comes before `lower_bound(k)`, or before `upper_bound(k)`. -/
def before (isMinKeyIndexed : Bool) (k : κ) (entry : κ × ν) : Bool :=
  if isMinKeyIndexed then entry.1 < k else entry.1 ≤ k

def overlappingRange (isMinKeyIndexed : Bool) (currMap : SortedMap κ ν) (min max : κ) : Nat × Nat :=
  ((currMap.entries.takeWhile (before isMinKeyIndexed min)).length,
    (currMap.entries.takeWhile (before isMinKeyIndexed max)).length)

def isOverlapping (isMinKeyIndexed : Bool) (currMap : SortedMap κ ν) (min max : κ) : Bool :=
  let overlap := overlappingRange isMinKeyIndexed currMap min max
  overlap.1 ≠ overlap.2

theorem sorted_eraseRange (m : SortedMap κ ν) (first last : Nat) :
    (m.entries.take first ++ m.entries.drop (first + (last - first))).Pairwise
      fun a b => a.1 < b.1 := by
  have hsub : (m.entries.take first ++ m.entries.drop (first + (last - first))).Sublist
      m.entries := by
    conv_rhs => rw [← List.take_append_drop first m.entries]
    refine (List.Sublist.refl _).append ?_
    rw [← List.drop_drop]
    exact List.drop_sublist _ _
  exact m.sorted.sublist hsub

/-- `erase(first, last)`, which needs `first` not to be behind `last`. -/
def eraseRange (m : SortedMap κ ν) (first last : Nat) : SortedMap κ ν :=
  ⟨_, sorted_eraseRange m first last⟩

def removeOverlapping (isMinKeyIndexed : Bool) (currMap : SortedMap κ ν) (min max : κ) :
    SortedMap κ ν :=
  let overlap := overlappingRange isMinKeyIndexed currMap min max
  eraseRange currMap overlap.1 overlap.2

/-- The highest version of each shard, with one more chunk. -/
def noteShardVersion (versions : ShardId → Option ChunkVersion) (shard : ShardId)
    (version : ChunkVersion) : ShardId → Option ChunkVersion :=
  match versions shard with
  | none => Function.update versions shard (some version)
  | some known =>
    if known.combined < version.combined then Function.update versions shard (some version)
    else versions

/-- The variables of the first loop. -/
structure DiffLoop (κ ν : Type) [LinearOrder κ] where
  state : DiffState κ ν
  validDiffs : Nat
  newTracked : List (Chunk κ)

/-- One turn of the first loop, for a valid chunk. -/
def noteChunk (t : Tracker κ ν) (loop : DiffLoop κ ν) (chunk : Chunk κ) : DiffLoop κ ν where
  state :=
    { currMap := removeOverlapping t.isMinKeyIndexed loop.state.currMap chunk.min chunk.max
      maxVersion := loop.state.maxVersion.raise chunk.version
      maxShardVersions :=
        noteShardVersion loop.state.maxShardVersions (t.shardFor chunk.shard) chunk.version }
  validDiffs := loop.validDiffs + 1
  newTracked := if t.isTracked chunk then loop.newTracked ++ [chunk] else loop.newTracked

/-- The first loop; `false` if it meets an invalid version. -/
def noteChunks (t : Tracker κ ν) (currEpoch : OID) :
    List (Chunk κ) → DiffLoop κ ν → Bool × DiffLoop κ ν
  | [], loop => (true, loop)
  | chunk :: rest, loop =>
    if !chunk.version.isSet || chunk.version.epoch ≠ currEpoch then (false, loop)
    else noteChunks t currEpoch rest (noteChunk t loop chunk)

/-- The second loop; `false` if a chunk overlaps. -/
def trackChunks (t : Tracker κ ν) : List (Chunk κ) → SortedMap κ ν → Bool × SortedMap κ ν
  | [], currMap => (true, currMap)
  | chunk :: rest, currMap =>
    if isOverlapping t.isMinKeyIndexed currMap chunk.min chunk.max then (false, currMap)
    else trackChunks t rest (currMap.insert (t.rangeFor chunk).1 (t.rangeFor chunk).2)

def calculateConfigDiff (t : Tracker κ ν) (s : DiffState κ ν) (chunks : List (Chunk κ)) :
    Int × DiffState κ ν :=
  let (valid, loop) := noteChunks t s.maxVersion.epoch chunks ⟨s, 0, []⟩
  if valid then
    let (tracked, currMap) := trackChunks t loop.newTracked loop.state.currMap
    (if tracked then loop.validDiffs else -1, { loop.state with currMap })
  else (-1, loop.state)

end Model

end MongolDb.Sharding
