import MongolDb.Sharding.ChunkVersion
import MongolDb.Sharding.RangeArithmetic

/-! The metadata that a shard keeps for a collection (db/s/collection_metadata.cpp): the chunks it
owns, the same keys as coalesced ranges, the ranges that are being moved here and the versions. -/
namespace MongolDb.Sharding
open Bson

/-- Bounds of chunks are keys; `ChunkType` does not accept empty ones. -/
structure CollectionMetadata (κ : Type) [LinearOrder κ] where
  keyPattern : Obj
  pendingMap : RangeMap κ
  chunksMap : RangeMap κ
  rangesMap : RangeMap κ
  shardVersion : ChunkVersion
  collVersion : ChunkVersion

/-- The messages with which a call gives up, with what they are made of. -/
inductive CloneError (κ : Type) where
  | removeNotContained (min max : κ) (overlap : List (κ × κ))
  | removeLastNonZero (newShardVersion : ChunkVersion) (min max : κ)
  | removeNotGreater (min max : κ) (newShardVersion shardVersion : ChunkVersion)
  | addZeroVersion (min max : κ)
  | addOverlaps (min max : κ) (overlap : List (κ × κ))
  | removePendingNotContained (min max : κ) (overlap : List (κ × κ))
  | addPendingOverlaps (min max : κ) (overlap : List (κ × κ))
  | splitNotGreater (min max : κ) (newShardVersion shardVersion : ChunkVersion)
  | splitNotContained (min max : κ) (overlap : List (κ × κ))
  | splitAtKey (min max key : κ)
  | mergeNotGreater (minKey maxKey : κ) (newShardVersion shardVersion : ChunkVersion)
  | mergeNoChunks (minKey maxKey : κ)
  | mergeOneChunk (minKey maxKey : κ)
  | mergeStartEnd (minKey maxKey : κ) (overlap : List (κ × κ))
  | mergeHoles (minKey maxKey : κ) (overlap : List (κ × κ))
  deriving DecidableEq

/-- How a call ends without metadata. -/
inductive CloneFailure (κ : Type) where
  | message (error : CloneError κ)
  | uasserted (code : Nat) (splitKeys : List κ)
  /-- An `invariant` of the code is violated: the server stops. -/
  | invariantFailure
  /-- An iterator is moved past the end of its map. -/
  | undefined
  deriving DecidableEq

variable {κ : Type} [LinearOrder κ]

/-- The loop of `fillRanges`, with the range that is being extended. -/
def fillFrom : List (κ × κ) → κ → κ → RangeMap κ → RangeMap κ
  | [], min, max, ranges => ranges.insert min max
  | (currMin, currMax) :: rest, min, max, ranges =>
    if max = currMin then fillFrom rest min currMax ranges
    else fillFrom rest currMin currMax (ranges.insert min max)

def fillRanges (chunksMap : RangeMap κ) : RangeMap κ :=
  match chunksMap.entries with
  | [] => .empty
  | (min, max) :: rest => fillFrom rest min max .empty

/-- The message about the ranges of the map that are in the way. -/
def overlapFailure (ranges : RangeMap κ) (min max : κ) (error : List (κ × κ) → CloneError κ) :
    CloneFailure κ :=
  match getRangeMapOverlap ranges min max with
  | some overlap => .message (error overlap)
  | none => .undefined

def notContained (ranges : RangeMap κ) (min max : κ) (error : List (κ × κ) → CloneError κ) :
    CloneFailure κ :=
  if rangeMapOverlaps ranges min max then overlapFailure ranges min max error
  else .message (error [])

/-- The loop of `cloneSplit` over the split keys: the chunks and the version. -/
def splitChunks (splitKeys : List κ) (chunkMax : κ) :
    List κ → κ → RangeMap κ → ChunkVersion → Except (CloneFailure κ) (RangeMap κ × ChunkVersion)
  | [], _, chunks, version => .ok (chunks, version)
  | split :: rest, startKey, chunks, version =>
    if split ≤ startKey then .error (.uasserted 28821 splitKeys)
    else
      splitChunks splitKeys chunkMax rest split
        ((chunks.put startKey split).insert split chunkMax) version.incMinor

/-- The loop of `cloneMerge` that looks for holes. -/
def noHoles : κ → List (κ × κ) → Bool
  | _, [] => true
  | prevMaxKey, chunk :: rest => chunk.1 = prevMaxKey && noHoles chunk.2 rest

/-- Removes the ranges that start at these keys. -/
def eraseAll (ranges : RangeMap κ) (overlap : List (κ × κ)) : RangeMap κ :=
  overlap.foldl (fun ranges range => ranges.erase range.1) ranges

/-- The search of `keyBelongsToMe`: the range before `upper_bound`. -/
def searchRange (ranges : RangeMap κ) (key : κ) : Bool :=
  let it := upperBound ranges key
  let it := if it ≠ 0 then it - 1 else it
  match ranges.entries[it]? with
  | some range => rangeContains range.1 range.2 key
  | none => false

namespace CollectionMetadata
variable (m : CollectionMetadata κ)

def isValid : Bool :=
  if m.collVersion.combined < m.shardVersion.combined then false
  else if m.collVersion.major = 0 then false
  else if m.collVersion.epoch ≠ m.shardVersion.epoch then false
  else if 0 < m.shardVersion.major then
    -- must be chunks
    !(m.rangesMap.entries.isEmpty || m.chunksMap.entries.isEmpty)
  else if 0 < m.shardVersion.minor then false
  else m.rangesMap.entries.isEmpty && m.chunksMap.entries.isEmpty

/-- `invariant(metadata->isValid())` before the metadata are returned. -/
def release : Except (CloneFailure κ) (CollectionMetadata κ) :=
  if m.isValid then .ok m else .error .invariantFailure

def cloneMigrate (min max : κ) (newShardVersion : ChunkVersion) :
    Except (CloneFailure κ) (CollectionMetadata κ) :=
  if !rangeMapContains m.chunksMap min max then
    .error (notContained m.chunksMap min max (.removeNotContained min max))
  else if m.chunksMap.entries.length = 1 && newShardVersion.isSet then
    .error (.message (.removeLastNonZero newShardVersion min max))
  else if m.chunksMap.entries.length ≠ 1 && newShardVersion.combined ≤ m.shardVersion.combined then
    .error (.message (.removeNotGreater min max newShardVersion m.shardVersion))
  else
    let chunks := m.chunksMap.erase min
    release { m with
      chunksMap := chunks
      rangesMap := fillRanges chunks
      shardVersion := newShardVersion
      collVersion := m.collVersion.raise newShardVersion }

def clonePlusChunk (min max : κ) (newShardVersion : ChunkVersion) :
    Except (CloneFailure κ) (CollectionMetadata κ) :=
  if !newShardVersion.isSet then .error (.message (.addZeroVersion min max))
  else if max ≤ min then .error .invariantFailure
  else if rangeMapOverlaps m.chunksMap min max then
    .error (overlapFailure m.chunksMap min max (.addOverlaps min max))
  else
    let chunks := m.chunksMap.insert min max
    release { m with
      chunksMap := chunks
      rangesMap := fillRanges chunks
      shardVersion := newShardVersion
      collVersion := m.collVersion.raise newShardVersion }

def cloneMinusPending (min max : κ) : Except (CloneFailure κ) (CollectionMetadata κ) :=
  if !rangeMapContains m.pendingMap min max then
    .error (notContained m.pendingMap min max (.removePendingNotContained min max))
  else release { m with pendingMap := m.pendingMap.erase min }

def clonePlusPending (min max : κ) : Except (CloneFailure κ) (CollectionMetadata κ) :=
  if rangeMapOverlaps m.chunksMap min max then
    .error (overlapFailure m.chunksMap min max (.addPendingOverlaps min max))
  else if rangeMapOverlaps m.pendingMap min max then
    -- the request that starts a migration is right about what is pending
    match getRangeMapOverlap m.pendingMap min max with
    | none => .error .undefined
    | some pendingOverlap =>
      release { m with pendingMap := (eraseAll m.pendingMap pendingOverlap).insert min max }
  else release { m with pendingMap := m.pendingMap.insert min max }

def cloneSplit (min max : κ) (splitKeys : List κ)
    (newShardVersion : ChunkVersion) : Except (CloneFailure κ) (CollectionMetadata κ) :=
  if newShardVersion.combined ≤ m.shardVersion.combined then
    .error (.message (.splitNotGreater min max newShardVersion m.shardVersion))
  else if !rangeMapContains m.chunksMap min max then
    .error (notContained m.chunksMap min max (.splitNotContained min max))
  else
    match splitKeys.find? fun key => !rangeContains min max key with
    | some key => .error (.message (.splitAtKey min max key))
    | none => do
      let (chunks, version) ← splitChunks splitKeys max splitKeys min m.chunksMap newShardVersion
      release { m with
        chunksMap := chunks
        rangesMap := fillRanges chunks
        shardVersion := version
        collVersion := m.collVersion.raise version }

def cloneMerge (minKey maxKey : κ) (newShardVersion : ChunkVersion) :
    Except (CloneFailure κ) (CollectionMetadata κ) :=
  if newShardVersion.combined ≤ m.shardVersion.combined then
    .error (.message (.mergeNotGreater minKey maxKey newShardVersion m.shardVersion))
  else
    match getRangeMapOverlap m.chunksMap minKey maxKey with
    | none => .error .undefined
    | some [] => .error (.message (.mergeNoChunks minKey maxKey))
    | some [_] => .error (.message (.mergeOneChunk minKey maxKey))
    | some (first :: second :: rest) =>
      let overlap := first :: second :: rest
      if first.1 ≠ minKey || (overlap.getLast?.map Prod.snd) ≠ some maxKey then
        .error (.message (.mergeStartEnd minKey maxKey overlap))
      else if !noHoles minKey overlap then
        .error (.message (.mergeHoles minKey maxKey overlap))
      else
        -- the coalesced ranges stay as they are
        release { m with
          chunksMap := (eraseAll m.chunksMap overlap).insert minKey maxKey
          shardVersion := newShardVersion
          collVersion := m.collVersion.raise newShardVersion }

def keyBelongsToMe (key : κ) : Bool :=
  if m.keyPattern.isEmpty then true
  else if m.rangesMap.entries.isEmpty then false
  else searchRange m.rangesMap key

end CollectionMetadata

/-- The calls that make new metadata from old ones. -/
inductive CloneCall (κ : Type) where
  | migrate (min max : κ) (newShardVersion : ChunkVersion)
  | plusChunk (min max : κ) (newShardVersion : ChunkVersion)
  | minusPending (min max : κ)
  | plusPending (min max : κ)
  | split (min max : κ) (splitKeys : List κ) (newShardVersion : ChunkVersion)
  | merge (minKey maxKey : κ) (newShardVersion : ChunkVersion)

def CollectionMetadata.clone (m : CollectionMetadata κ) :
    CloneCall κ → Except (CloneFailure κ) (CollectionMetadata κ)
  | .migrate min max newShardVersion => m.cloneMigrate min max newShardVersion
  | .plusChunk min max newShardVersion => m.clonePlusChunk min max newShardVersion
  | .minusPending min max => m.cloneMinusPending min max
  | .plusPending min max => m.clonePlusPending min max
  | .split min max splitKeys newShardVersion => m.cloneSplit min max splitKeys newShardVersion
  | .merge minKey maxKey newShardVersion => m.cloneMerge minKey maxKey newShardVersion

end MongolDb.Sharding
