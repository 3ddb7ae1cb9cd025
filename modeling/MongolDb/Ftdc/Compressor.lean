import MongolDb.Bson.Parse
import MongolDb.Bson.Validate
import MongolDb.Ftdc.Metrics

/-! The compressor of diagnostic samples and its counterpart (db/ftdc/compressor.cpp,
db/ftdc/decompressor.cpp). -/
namespace MongolDb.Ftdc
open Bson ByteOrder ByteLayout

/-- zlib and the varints, of which no more is used than that they read back what they wrote and that
zlib does not write more than it is told. -/
structure Codec where
  compress : Bytes → Bytes
  uncompress : Bytes → Nat → Option Bytes
  uncompress_compress : ∀ b, uncompress (compress b) b.length = some b
  length_uncompress : ∀ c n b, uncompress c n = some b → b.length ≤ n
  storeVarInt : UInt64 → Bytes
  loadVarInt : Bytes → Option (UInt64 × Bytes)
  load_store : ∀ n rest, loadVarInt (storeVarInt n ++ rest) = some (n, rest)

inductive CompressorState where
  | kSchemaChanged
  | kCompressorFull
  deriving DecidableEq

/-- The fields of `FTDCCompressor`. The array of deltas is given by what stands at each offset; no
cell is read that was not written for the current chunk. -/
structure FTDCCompressor where
  referenceDoc : RawObj
  referenceDocDate : Int64
  metricsCount : Nat
  deltaCount : Nat
  maxDeltas : Nat
  deltas : Nat → UInt64
  metrics : List UInt64
  prevmetrics : List UInt64

def FTDCCompressor.new : FTDCCompressor := ⟨[], 0, 0, 0, 0, fun _ => 0, [], []⟩

/-- `getArrayOffset`, whose arguments have 32 bits. -/
def getArrayOffset (sampleCount sample metric : Nat) : Nat := (metric * sampleCount + sample) % 2 ^ 32

section Compress
variable (toLong : BSONType → Bytes → UInt64) (codec : Codec)

/-- The pair that stands for a run of zeros. -/
def writeZeroes (zeroesCount : Nat) (db : Bytes) : Bytes :=
  if zeroesCount > 0 then
    db ++ codec.storeVarInt 0 ++ codec.storeVarInt (UInt64.ofNat (zeroesCount - 1))
  else db

/-- One round of the inner loop: a zero is counted, another delta is written behind the zeros. -/
def packDelta (state : Nat × Bytes) (delta : UInt64) : Nat × Bytes :=
  if delta = 0 then ((state.1 + 1) % 2 ^ 32, state.2)
  else (0, writeZeroes codec state.1 state.2 ++ codec.storeVarInt delta)

namespace FTDCCompressor
variable (c : FTDCCompressor)

def deltaAt (i j : Nat) : UInt64 := c.deltas (getArrayOffset c.maxDeltas j i)

/-- One round of the outer loop. -/
def packMetric (state : Nat × Bytes) (i : Nat) : Nat × Bytes :=
  let state := (List.range c.deltaCount).foldl (fun state j => packDelta codec state (c.deltaAt i j)) state
  if i = c.metricsCount - 1 then (state.1, writeZeroes codec state.1 state.2) else state

def packDeltas : Bytes := ((List.range c.metricsCount).foldl (c.packMetric codec) (0, [])).2

/-- What `getCompressedSamples` gives to zlib. -/
def uncompressedChunk : Bytes :=
  encodeDocument c.referenceDoc ++ le 4 c.metricsCount ++ le 4 c.deltaCount ++
    if c.metricsCount ≠ 0 ∧ c.deltaCount ≠ 0 then c.packDeltas codec else []

def getCompressedSamples : Bytes × Int64 :=
  (le 4 (c.uncompressedChunk codec).length ++ codec.compress (c.uncompressedChunk codec),
    c.referenceDocDate)

def hasDataToFlush : Bool := !c.referenceDoc.isEmpty

/-- `_reset`: the metrics at hand are those of the reference document. -/
def reset (maxSamples : UInt32) (referenceDoc : RawObj) (date : Int64) : FTDCCompressor :=
  { c with
    referenceDoc := referenceDoc
    referenceDocDate := date
    metricsCount := c.metrics.length % 2 ^ 32
    deltaCount := 0
    maxDeltas := (maxSamples - 1).toNat
    metrics := []
    prevmetrics := c.metrics }

/-- The loop over the metrics of another sample. -/
def recordDeltas : Nat → UInt64 :=
  (List.range c.metrics.length).foldl
    (fun deltas i => Function.update deltas (getArrayOffset c.maxDeltas c.deltaCount i)
      (c.metrics.getD i 0 - c.prevmetrics.getD i 0)) c.deltas

/-- The sample whose metrics are at hand is one more behind the reference document. -/
def addDeltas : FTDCCompressor :=
  { c with
    deltas := c.recordDeltas
    deltaCount := (c.deltaCount + 1) % 2 ^ 32
    metrics := []
    prevmetrics := c.metrics }

def addSample (maxSamples : UInt32) (sample : RawObj) (date : Int64) :
    Except Failure (Option (Bytes × CompressorState × Int64)) × FTDCCompressor :=
  if c.referenceDoc.isEmpty then
    let c := { c with metrics := (extractMetricsFromDocument toLong sample sample c.metrics).2 }
    (.ok none, c.reset maxSamples sample date)
  else
    match extractMetricsFromDocument toLong c.referenceDoc sample [] with
    | (.error err, metrics) => (.error err, { c with metrics := metrics })
    | (.ok false, metrics) =>
      -- the schema has changed: what is there is flushed
      let flushed := c.getCompressedSamples codec
      let c := { c with metrics := metrics }
      (.ok (some (flushed.1, .kSchemaChanged, flushed.2)), c.reset maxSamples sample date)
    | (.ok true, metrics) =>
      let c := addDeltas { c with metrics := metrics }
      if c.deltaCount = c.maxDeltas then
        let flushed := c.getCompressedSamples codec
        (.ok (some (flushed.1, .kCompressorFull, flushed.2)), { c with referenceDoc := [] })
      else (.ok none, c)

/-- Samples added one after the other, and the chunks that are returned. -/
def addSamples (maxSamples : UInt32) :
    FTDCCompressor → List (RawObj × Int64) → Except Failure (List Bytes × FTDCCompressor)
  | c, [] => .ok ([], c)
  | c, (sample, date) :: samples =>
    match c.addSample toLong codec maxSamples sample date with
    | (.error err, _) => .error err
    | (.ok none, c) => addSamples maxSamples c samples
    | (.ok (some flushed), c) => do
      let (chunks, c) ← addSamples maxSamples c samples
      return (flushed.1 :: chunks, c)

end FTDCCompressor

end Compress

section Decompress
variable (toLong : BSONType → Bytes → UInt64) (codec : Codec) (decimal objcheck : Bool)
  (room : Nat → Bool)

def readUInt32 (b : Bytes) : Except Failure (Nat × Bytes) :=
  match takeBytes 4 b with
  | none => .error .load
  | some (u, b) => .ok (ofLe u, b)

/-- A document that the validator is asked about first, unless the server is told not to. -/
def readValidated (b : Bytes) : Except Failure (RawObj × Bytes) :=
  match if objcheck then validateBSON decimal b else .ok () with
  | .error _ => .error .invalid
  | .ok _ =>
    match parseDocument b with
    | none => .error .unchecked
    | some r => .ok r

/-- The next delta; the state is the number of zeros that are due and the rest of the buffer. -/
def readDelta (state : Nat × Bytes) : Except Failure (UInt64 × Nat × Bytes) :=
  if state.1 ≠ 0 then .ok (0, state.1 - 1, state.2)
  else
    match codec.loadVarInt state.2 with
    | none => .error .load
    | some (delta, rest) =>
      if delta = 0 then
        match codec.loadVarInt rest with
        -- the status that is returned is that of the first number, which is OK
        | none => .error .noValue
        | some (zero, rest) => .ok (0, zero.toNat, rest)
      else .ok (delta, 0, rest)

/-- The deltas of the metric `i` from the sample `j` on. The vector has `size` cells, and the rows
stand in it one behind the other. -/
def readMetric (size sampleCount i : Nat) :
    Nat → Nat → Nat × Bytes → Except Failure (List UInt64 × Nat × Bytes)
  | 0, _, state => .ok ([], state)
  | n + 1, j, state => do
    let (delta, state) ← readDelta codec state
    if getArrayOffset sampleCount j i < size then
      let (row, state) ← readMetric size sampleCount i n (j + 1) state
      return (delta :: row, state)
    else .error .outside

def readMetrics (size sampleCount : Nat) :
    Nat → Nat → Nat × Bytes → Except Failure (List (List UInt64))
  | 0, _, _ => .ok []
  | n + 1, i, state => do
    let (row, state) ← readMetric codec size sampleCount i sampleCount 0 state
    let rows ← readMetrics size sampleCount n (i + 1) state
    return row :: rows

/-- Each delta is added to the value before it, the first one to that of the reference document. -/
def inflate : UInt64 → List UInt64 → List UInt64
  | _, [] => []
  | previous, delta :: row => (delta + previous) :: inflate (delta + previous) row

/-- The metrics of one sample. -/
def column (rows : List (List UInt64)) (i : Nat) : List UInt64 := rows.map fun row => row.getD i 0

/-- `constructDocumentFromMetrics(ref, metrics).getValue()`. -/
def constructed (ref : RawObj) (metrics : List UInt64) : Except Failure RawObj :=
  match constructDocumentFromMetrics metrics ref with
  | .error _ => .error .noValue
  | .ok doc => .ok doc

/-- The documents behind the reference document. -/
def readSamples (ref : RawObj) (metrics : List UInt64) (sampleCount : Nat) (b : Bytes) :
    Except Failure (List RawObj) := do
  let size := metrics.length * sampleCount % 2 ^ 32
  let rows ← readMetrics codec size sampleCount metrics.length 0 (0, b)
  let rows := List.zipWith inflate metrics rows
  (List.range sampleCount).mapM fun i => constructed ref (column rows i)

/-- What a chunk says that it holds. -/
structure Header where
  ref : RawObj
  metricsCount : Nat
  sampleCount : Nat
  deltas : Bytes

def readHeader (b : Bytes) : Except Failure Header := do
  let (uncompressedLength, b) ← readUInt32 b
  if uncompressedLength > 10000000 then
    .error (.status .invalidLength "Metrics chunk has exceeded the allowable size.")
  else
    match codec.uncompress b uncompressedLength with
    | none => .error .load
    | some b => do
      let (ref, b) ← readValidated decimal objcheck b
      let (metricsCount, b) ← readUInt32 b
      let (sampleCount, b) ← readUInt32 b
      return ⟨ref, metricsCount, sampleCount, b⟩

/-- The metrics of the reference document, as far as they are extracted. -/
def Header.metrics (h : Header) : List UInt64 := (extractMetricsFromDocument toLong h.ref h.ref []).2

/-- What is behind the header. A vector for `n` elements can be reserved if there is room for it. -/
def Header.readDocs (h : Header) : Except Failure (List RawObj) :=
  if h.metricsCount * h.sampleCount % 2 ^ 32 > 1000000 then
    .error (.status .invalidLength
      "Metrics Count and Sample Count have exceeded the allowable range.")
  else if !room h.metricsCount then .error .badAlloc
  else if (h.metrics toLong).length ≠ h.metricsCount then
    .error (.status .badValue "The metrics in the reference document and metrics count do not match")
  else if !room ((1 + h.sampleCount) % 2 ^ 32) then .error .badAlloc
  else if h.sampleCount = 0 then .ok [h.ref]
  else do
    let docs ← readSamples codec h.ref (h.metrics toLong) h.sampleCount h.deltas
    return h.ref :: docs

def uncompress (b : Bytes) : Except Failure (List RawObj) := do
  let h ← readHeader codec decimal objcheck b
  h.readDocs toLong codec room

end Decompress

end MongolDb.Ftdc
