import MongolDb.Ftdc.RoundTrip

/-! What the decompressor makes of bytes that no compressor wrote. -/
namespace MongolDb.Ftdc
open Bson ByteOrder ByteLayout Outcome

/-- Neither documents nor an error status come back. -/
def Failure.Unsafe : Failure → Prop
  | .noValue | .outside | .badAlloc | .unchecked => True
  | .status _ _ | .load | .invalid => False

section Deltas
variable {codec : Codec} {cells sampleCount p : Nat} {state : Nat × Bytes}

section
variable (codec)

def readDeltas : Nat → Nat × Bytes → Except Failure (Nat × Bytes)
  | 0, state => .ok state
  | n + 1, state => do
    let (_, state) ← readDelta codec state
    readDeltas n state

/-- The deltas for `cells` cells are read in a row, from the cell `p` on. For 2^32 cells or more the
vector is too small: it is left with the first delta that has no cell. -/
def readCells (cells p : Nat) (state : Nat × Bytes) : Except Failure Unit :=
  if cells < 2 ^ 32 then do
    let _ ← readDeltas codec (cells - p) state
  else do
    let _ ← readDeltas codec (cells % 2 ^ 32 + 1 - p) state
    .error .outside

end

theorem readCells_succ (hp : p ≤ cells % 2 ^ 32) (hcells : p < cells) :
    readCells codec cells p state =
      readDelta codec state >>= fun r => readCells codec cells (p + 1) r.2 := by
  unfold readCells
  split
  · rw [show cells - p = cells - (p + 1) + 1 by omega, readDeltas]
    simp only [bind_assoc]
  · rw [show cells % 2 ^ 32 + 1 - p = cells % 2 ^ 32 + 1 - (p + 1) + 1 by omega, readDeltas]
    simp only [bind_assoc]

/-- From the cell `p` on, up to the end of its row. -/
theorem readMetric_holds {i n j : Nat} (hj : p = i * sampleCount + j) (hp : p ≤ cells % 2 ^ 32)
    (hn : p + n ≤ cells) :
    Holds (fun f => readCells codec cells p state ≠ .error f)
      (fun r => p + n ≤ cells % 2 ^ 32 ∧
        readCells codec cells (p + n) r.2 = readCells codec cells p state)
      (readMetric codec (cells % 2 ^ 32) sampleCount i n j state) := by
  induction n generalizing j p state with
  | zero => exact ⟨hp, rfl⟩
  | succ n ih =>
    have hoffset : getArrayOffset sampleCount j i = p := by
      rw [getArrayOffset, ← hj]
      exact Nat.mod_eq_of_lt (by omega)
    rw [readCells_succ hp (by omega), readMetric, hoffset]
    cases readDelta codec state with
    | error f => exact fun hne => hne rfl
    | ok r =>
      simp only [ok_bind]
      split
      next hlt =>
        rw [Nat.add_comm n 1, ← Nat.add_assoc]
        exact (ih (by omega) hlt (by omega)).bind fun _ hrest => hrest
      next hlt =>
        have hend : cells % 2 ^ 32 + 1 - (p + 1) = 0 := by omega
        rw [readCells, if_neg (by omega), hend]
        exact fun hne => hne rfl

theorem readMetrics_holds {n i : Nat} (hp : i * sampleCount ≤ cells % 2 ^ 32)
    (hn : (i + n) * sampleCount = cells) :
    Holds (fun f => readCells codec cells (i * sampleCount) state ≠ .error f)
      (fun rows => rows.length = n ∧ readCells codec cells (i * sampleCount) state = .ok ())
      (readMetrics codec (cells % 2 ^ 32) sampleCount n i state) := by
  induction n generalizing i state with
  | zero =>
    rw [Nat.add_zero] at hn
    refine ⟨rfl, ?_⟩
    rw [readCells, if_pos (by omega), hn, Nat.sub_self]
    rfl
  | succ n ih =>
    have hle : (i + 1) * sampleCount ≤ cells := hn ▸ Nat.mul_le_mul_right _ (by omega)
    rw [Nat.succ_mul] at hle
    refine (readMetric_holds (Nat.add_zero _).symm hp hle).bind fun r hr => ?_
    rw [← Nat.succ_mul] at hr
    have hrest := @ih r.2 (i + 1) hr.1 (by rw [← hn]; congr 1; omega)
    rw [hr.2] at hrest
    exact hrest.bind fun rows hrows => ⟨congrArg Nat.succ hrows.1, hrows.2⟩

end Deltas

section Construct
variable {metrics : List UInt64}

mutual
theorem depth_of_constructValue (recursion : Nat) (v : RawValue) (pos : Nat) {r : RawValue × Nat}
    (h : recursion ≤ kMaxRecursion) (hr : constructValue metrics recursion v pos = .ok r) :
    recursion + valueDepth v ≤ kMaxRecursion := by
  cases v with
  | document t ht elems =>
    rw [constructValue] at hr
    split at hr
    · cases hr
    · obtain ⟨sub, hsub, -⟩ := bind_eq_ok.mp hr
      have hdepth := depth_of_constructElems (recursion + 1) elems pos (by omega) hsub
      rw [valueDepth]
      omega
  | _ => simpa [valueDepth] using h
/-- Only documents that are not nested too deeply are built. -/
theorem depth_of_constructElems (recursion : Nat) (ref : RawObj) (pos : Nat) {r : RawObj × Nat}
    (h : recursion ≤ kMaxRecursion) (hr : constructElems metrics recursion ref pos = .ok r) :
    recursion + elemsDepth ref ≤ kMaxRecursion := by
  cases ref with
  | nil => simpa [elemsDepth] using h
  | cons e ref =>
    obtain ⟨name, v⟩ := e
    rw [constructElems] at hr
    obtain ⟨v', hv, hr⟩ := bind_eq_ok.mp hr
    obtain ⟨doc, hdoc, -⟩ := bind_eq_ok.mp hr
    have hvalue := depth_of_constructValue recursion v pos h hv
    have helems := depth_of_constructElems recursion ref _ h hdoc
    rw [elemsDepth]
    omega
end

end Construct

section
variable {toLong : BSONType → Bytes → UInt64} {codec : Codec} {decimal : Bool} {room : Nat → Bool}
  {b : Bytes} {ref : RawObj} {sampleCount : Nat} {rows : List (List UInt64)} {h : Header}

/-- Documents are built of rows exactly if the reference document is not nested too deeply. -/
theorem constructed_holds_iff (toLong : BSONType → Bytes → UInt64) (hsamples : sampleCount ≠ 0)
    (hrows : elemsDepth ref ≤ kMaxRecursion → rows.length = (elemsMetrics toLong ref).length) :
    Holds Failure.Unsafe (fun docs => docs.length = sampleCount)
      ((List.range sampleCount).mapM fun i => constructed ref (column rows i)) ↔
        elemsDepth ref ≤ kMaxRecursion := by
  constructor
  · intro hsafe
    by_contra hdeep
    have hfails : constructed ref (column rows 0) = .error .noValue := by
      unfold constructed
      split
      · rfl
      next hdoc =>
        obtain ⟨r, hr, -⟩ := bind_eq_ok.mp hdoc
        exact absurd (depth_of_constructElems 0 ref 0 (Nat.zero_le _) hr) (by rwa [Nat.zero_add])
    obtain ⟨n, rfl⟩ := Nat.exists_eq_succ_of_ne_zero hsamples
    rw [List.range_succ_eq_map, List.mapM_cons, hfails] at hsafe
    exact hsafe trivial
  · intro hdepth
    refine (Holds.mapM fun i _ => ?_).mono fun docs hdocs => hdocs.trans List.length_range
    obtain ⟨doc, hdoc⟩ := constructDocumentFromMetrics_ok toLong (column rows i)
      (by rw [column, List.length_map, hrows hdepth]) hdepth
    rw [constructed, hdoc]
    trivial

theorem readSamples_holds_iff (hcount : (h.metrics toLong).length = h.metricsCount)
    (hsamples : h.sampleCount ≠ 0) :
    Holds Failure.Unsafe (fun docs => docs.length = h.sampleCount)
        (readSamples codec h.ref (h.metrics toLong) h.sampleCount h.deltas) ↔
      Holds Failure.Unsafe (fun _ => elemsDepth h.ref ≤ kMaxRecursion)
        (readCells codec (h.metricsCount * h.sampleCount) 0 (0, h.deltas)) := by
  have hread := @readMetrics_holds codec (h.metricsCount * h.sampleCount) h.sampleCount (0, h.deltas)
    h.metricsCount 0 (by simp) (by simp)
  rw [Nat.zero_mul] at hread
  rw [readSamples, hcount]
  dsimp only
  cases hrows : readMetrics codec (h.metricsCount * h.sampleCount % 2 ^ 32) h.sampleCount
      h.metricsCount 0 (0, h.deltas) with
  | error f =>
    rw [hrows] at hread
    rw [not_not.mp hread]
    rfl
  | ok rows =>
    rw [hrows] at hread
    rw [hread.2, ok_bind, holds_ok, constructed_holds_iff toLong hsamples fun hdepth => ?_]
    rw [List.length_zipWith, hread.1, hcount, Nat.min_self, ← hcount, Header.metrics,
      extractMetricsFromDocument_eq toLong [] hdepth, List.nil_append]

/-- There is memory for the vectors that a chunk announces, its deltas can be read or end with an
error status, and if they can be read the reference document is not nested too deeply; unless the
chunk is refused before it comes to that. -/
def Header.Safe (toLong : BSONType → Bytes → UInt64) (codec : Codec) (room : Nat → Bool)
    (h : Header) : Prop :=
  h.metricsCount * h.sampleCount % 2 ^ 32 ≤ 1000000 →
    room h.metricsCount ∧ ((h.metrics toLong).length = h.metricsCount →
      room ((1 + h.sampleCount) % 2 ^ 32) ∧ (h.sampleCount ≠ 0 →
        Holds Failure.Unsafe (fun _ => elemsDepth h.ref ≤ kMaxRecursion)
          (readCells codec (h.metricsCount * h.sampleCount) 0 (0, h.deltas))))

theorem readDocs_holds_iff : Holds Failure.Unsafe (fun docs => docs.length = 1 + h.sampleCount)
      (h.readDocs toLong codec room) ↔ h.Safe toLong codec room := by
  rw [Header.readDocs, Header.Safe]
  split_ifs with hlimit hroom hcount hroom' hzero
  · exact iff_of_true id fun hle => absurd hle (Nat.not_le.mpr hlimit)
  all_goals rw [imp_iff_right (Nat.not_lt.mp hlimit)]
  · exact iff_of_false (· trivial) fun hsafe => by simp [hsafe.1] at hroom
  all_goals rw [and_iff_right (by simpa using hroom)]
  · exact iff_of_true id fun heq => absurd heq hcount
  all_goals rw [imp_iff_right (not_not.mp hcount)]
  · exact iff_of_false (· trivial) fun hsafe => absurd hsafe.1 (by simpa using hroom')
  all_goals rw [and_iff_right (by simpa using hroom')]
  · exact iff_of_true (by simp [hzero]) fun hne => absurd hzero hne
  · rw [imp_iff_right hzero, ← readSamples_holds_iff (not_not.mp hcount) hzero]
    cases readSamples codec h.ref (h.metrics toLong) h.sampleCount h.deltas with
    | error f => rfl
    | ok docs =>
      change docs.length + 1 = _ ↔ docs.length = _
      omega

theorem readUInt32_holds : Holds Failure.Unsafe (fun _ => True) (readUInt32 b) := by
  unfold readUInt32
  split <;> simp [Failure.Unsafe]

/-- What the validator accepts is a document. -/
theorem readValidated_holds (hlen : b.length < 2 ^ 31) :
    Holds Failure.Unsafe (fun _ => True) (readValidated decimal true b) := by
  unfold readValidated
  split
  · exact id
  next hvalid =>
    obtain ⟨elems, -, rest, hb⟩ := (@validateBSON_holds decimal b hlen).of_ok hvalid
    rw [List.drop_zero] at hb
    rw [← hb, List.length_append] at hlen
    rw [← hb, parseDocument_encode (by omega)]
    trivial

theorem readHeader_holds :
    Holds Failure.Unsafe (fun _ => True) (readHeader codec decimal true b) := by
  refine readUInt32_holds.bind fun r _ => ?_
  dsimp only
  split
  · exact id
  · split
    · exact id
    next hchunk =>
      have hlen := codec.length_uncompress _ _ _ hchunk
      refine (readValidated_holds (by omega)).bind fun _ _ => ?_
      exact readUInt32_holds.bind fun _ _ => readUInt32_holds.bind fun _ _ => trivial

end

/-- Documents inside one another. -/
def nested : Nat → RawObj
  | 0 => []
  | n + 1 => [(⟨[97], zero_notMem_a⟩, .document .object rfl (nested n))]

/-- A buffer of uncompressed bytes. -/
def plainChunk (ref : RawObj) (metricsCount sampleCount : Nat) (deltas : Bytes) : Bytes :=
  let chunk := encodeDocument ref ++ le 4 metricsCount ++ le 4 sampleCount ++ deltas
  le 4 chunk.length ++ chunk

def lengthRead (room : Nat → Bool) (chunk : Bytes) : Except Failure Nat :=
  (uncompress noCast plainCodec true true room chunk).map List.length

end MongolDb.Ftdc
