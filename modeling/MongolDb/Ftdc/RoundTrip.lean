import MongolDb.Ftdc.Chunk

/-! Every sequence of samples is read back from the chunks that the compressor returns. -/
namespace MongolDb.Ftdc
open Bson ByteOrder ByteLayout List Nat

section

/-- Cells of different samples or metrics do not share an offset, as long as the offsets of all cells
fit 32 bits. -/
theorem getArrayOffset_inj {maxDeltas n i i' j j' : Nat} (hn : n * maxDeltas ≤ 2 ^ 32) (hi : i < n)
    (hi' : i' < n) (hj : j < maxDeltas) (hj' : j' < maxDeltas)
    (h : getArrayOffset maxDeltas j i = getArrayOffset maxDeltas j' i') : i = i' ∧ j = j' := by
  have hlt : ∀ i < n, ∀ j < maxDeltas, i * maxDeltas + j < 2 ^ 32 := by
    intro i hi j hj
    have hrow : (i + 1) * maxDeltas ≤ n * maxDeltas := mul_le_mul_right _ hi
    rw [succ_mul] at hrow
    omega
  simp only [getArrayOffset, mod_eq_of_lt (hlt i hi j hj), mod_eq_of_lt (hlt i' hi' j' hj')] at h
  have hparts : ∀ i j, j < maxDeltas → (i * maxDeltas + j) / maxDeltas = i := by
    intro i j hj
    rw [mul_comm, mul_add_div (by omega), div_eq_of_lt hj, add_zero]
  have hii : i = i' := by rw [← hparts i j hj, h, hparts i' j' hj']
  subst hii
  exact ⟨rfl, by omega⟩

variable {α : Type} {f : Nat → Nat} {v : Nat → α} {cells : Nat → α} {n : Nat}

theorem foldl_update_of_ne {o : Nat} (h : ∀ i < n, f i ≠ o) :
    (List.range n).foldl (fun cells i => Function.update cells (f i) (v i)) cells o = cells o := by
  induction n with
  | zero => rfl
  | succ n ih =>
    rw [range_succ, foldl_append, foldl_cons, foldl_nil,
      Function.update_of_ne (h n (lt_succ_self n)).symm]
    exact ih fun i hi => h i (lt_succ_of_lt hi)

theorem foldl_update_self (hinj : ∀ i < n, ∀ k < n, f i = f k → i = k) {i : Nat} (hi : i < n) :
    (List.range n).foldl (fun cells i => Function.update cells (f i) (v i)) cells (f i) = v i := by
  induction n with
  | zero => exact absurd hi (not_lt_zero i)
  | succ n ih =>
    rw [range_succ, foldl_append, foldl_cons, foldl_nil]
    rcases Nat.lt_succ_iff_lt_or_eq.mp hi with hlt | rfl
    · have hne : f i ≠ f n := by
        intro heq
        have hsame := hinj i hi n (lt_succ_self n) heq
        omega
      rw [Function.update_of_ne hne]
      exact ih (fun i hi k hk => hinj i (lt_succ_of_lt hi) k (lt_succ_of_lt hk)) hlt
    · rw [Function.update_self]

end

/-- The sequence cut where the schema changes or a chunk is full; `g` is the chunk that is open. -/
def split (maxDeltas : Nat) : Option Group → List RawObj → List Group
  | none, [] => []
  | some g, [] => [g]
  | none, s :: samples => split maxDeltas (some ⟨s, []⟩) samples
  | some g, s :: samples =>
    if sameSchema s g.ref then
      let g : Group := ⟨g.ref, g.rest ++ [s]⟩
      if g.rest.length = maxDeltas then g :: split maxDeltas none samples
      else split maxDeltas (some g) samples
    else g :: split maxDeltas (some ⟨s, []⟩) samples

/-- No sample is lost and none moves. -/
theorem flatMap_split (maxDeltas : Nat) (opened : Option Group) (samples : List RawObj) :
    (split maxDeltas opened samples).flatMap Group.samples =
      (opened.map Group.samples).getD [] ++ samples := by
  induction samples generalizing opened with
  | nil => cases opened <;> simp [split]
  | cons s samples ih =>
    cases opened with
    | none => simp [split, ih, Group.samples]
    | some g =>
      rw [split]
      split
      · dsimp only
        split <;> simp [ih, Group.samples]
      · simp [ih, Group.samples]

/-- The chunk that is open keeps its reference document. -/
theorem exists_of_split (maxDeltas : Nat) (g : Group) (samples : List RawObj) :
    ∃ g' ∈ split maxDeltas (some g) samples, g'.ref = g.ref := by
  induction samples generalizing g with
  | nil => exact ⟨g, by simp [split], rfl⟩
  | cons s samples ih =>
    rw [split]
    split
    · dsimp only
      split
      · exact ⟨_, mem_cons_self, rfl⟩
      · exact ih ⟨g.ref, g.rest ++ [s]⟩
    · exact ⟨g, mem_cons_self, rfl⟩

section
variable (toLong : BSONType → Bytes → UInt64) (maxSamples : UInt32)

/-- The compressor holds the samples of a chunk. -/
structure FTDCCompressor.Holds (c : FTDCCompressor) (g : Group) : Prop where
  ref : c.referenceDoc = g.ref
  nonempty : g.ref ≠ []
  count : c.metricsCount = g.metricsCount toLong
  maxDeltas : c.maxDeltas = (maxSamples - 1).toNat
  deltaCount : c.deltaCount = g.rest.length
  prevmetrics : c.prevmetrics = elemsMetrics toLong (g.rest.getLastD g.ref)
  rows : ∀ i < g.metricsCount toLong, c.row i = g.row toLong i
  uniform : g.Uniform toLong

/-- Between two calls: no chunk is open, or one that has room. -/
def FTDCCompressor.State (c : FTDCCompressor) : Option Group → Prop
  | none => c.referenceDoc = [] ∧ c.metrics = []
  | some g => c.Holds toLong maxSamples g ∧ g.rest.length < (maxSamples - 1).toNat

end

/-- The offsets of all cells of the chunk fit 32 bits, and so does the number of its metrics. -/
structure Group.Addressable (toLong : BSONType → Bytes → UInt64) (maxSamples : UInt32) (g : Group) :
    Prop where
  cells : g.metricsCount toLong * (maxSamples - 1).toNat ≤ 2 ^ 32
  count : g.metricsCount toLong < 2 ^ 32

/-- The chunk as it is returned. -/
def Group.chunk (toLong : BSONType → Bytes → UInt64) (codec : Codec) (g : Group) : Bytes :=
  le 4 (g.bytes toLong codec).length ++ codec.compress (g.bytes toLong codec)

namespace FTDCCompressor
variable {toLong : BSONType → Bytes → UInt64} {codec : Codec} {maxSamples : UInt32}
  {c : FTDCCompressor} {g : Group} {s : RawObj}

theorem reset_holds (date : Int64) (hs : s ≠ []) (hmetrics : c.metrics = elemsMetrics toLong s)
    (hcount : (elemsMetrics toLong s).length < 2 ^ 32) :
    (c.reset maxSamples s date).Holds toLong maxSamples ⟨s, []⟩ where
  ref := rfl
  nonempty := hs
  count := by
    rw [reset, hmetrics]
    exact mod_eq_of_lt hcount
  maxDeltas := rfl
  deltaCount := rfl
  prevmetrics := hmetrics
  rows := fun _ _ => rfl
  uniform := by simp [Group.Uniform]

theorem getLastD_values (g : Group) (i : Nat) :
    (g.values toLong i).getLastD ((elemsMetrics toLong g.ref).getD i 0) =
      (elemsMetrics toLong (g.rest.getLastD g.ref)).getD i 0 := by
  rw [Group.values]
  induction g.rest using reverseRecOn with
  | nil => rfl
  | append_singleton l s _ => simp

/-- One more sample adds one delta to each row. -/
theorem row_concat (g : Group) (s : RawObj) (i : Nat) :
    Group.row toLong ⟨g.ref, g.rest ++ [s]⟩ i = g.row toLong i ++
      [(elemsMetrics toLong s).getD i 0 - (elemsMetrics toLong (g.rest.getLastD g.ref)).getD i 0] := by
  have hvalues : Group.values toLong ⟨g.ref, g.rest ++ [s]⟩ i =
      g.values toLong i ++ [(elemsMetrics toLong s).getD i 0] := by
    simp [Group.values]
  rw [Group.row, hvalues, differences_concat, getLastD_values, Group.row]

/-- The deltas of the new sample are written, those before it stay. -/
theorem deltaAt_addDeltas {n i : Nat} (hn : n * c.maxDeltas ≤ 2 ^ 32) (hlen : c.metrics.length = n)
    (hroom : c.deltaCount < c.maxDeltas) (hi : i < n) :
    (∀ j < c.deltaCount, c.addDeltas.deltaAt i j = c.deltaAt i j) ∧
      c.addDeltas.deltaAt i c.deltaCount = c.metrics.getD i 0 - c.prevmetrics.getD i 0 := by
  constructor
  · intro j hj
    apply foldl_update_of_ne
    intro k hk heq
    have hsame := getArrayOffset_inj hn (hlen ▸ hk) hi hroom (hj.trans hroom) heq
    omega
  · refine foldl_update_self (f := fun i => getArrayOffset c.maxDeltas c.deltaCount i) ?_ (hlen ▸ hi)
    intro i hi k hk heq
    exact (getArrayOffset_inj hn (hlen ▸ hi) (hlen ▸ hk) hroom hroom heq).1

theorem addDeltas_holds (h : c.Holds toLong maxSamples g) (haddr : g.Addressable toLong maxSamples)
    (hroom : g.rest.length < (maxSamples - 1).toNat) (hschema : sameSchema s g.ref = true) :
    (addDeltas { c with metrics := elemsMetrics toLong s }).Holds toLong maxSamples
      ⟨g.ref, g.rest ++ [s]⟩ := by
  have hlen : (elemsMetrics toLong s).length = g.metricsCount toLong :=
    length_elemsMetrics_eq toLong hschema
  have hcells := haddr.cells
  have hmax := (maxSamples - 1).toNat_lt
  have hcount : (c.deltaCount + 1) % 2 ^ 32 = c.deltaCount + 1 := by
    rw [h.deltaCount]
    exact mod_eq_of_lt (by omega)
  refine ⟨h.ref, h.nonempty, h.count, h.maxDeltas, ?_, ?_, ?_, ?_⟩
  · rw [addDeltas, length_append, length_singleton, ← h.deltaCount]
    exact hcount
  · simp [addDeltas]
  · intro i hi
    obtain ⟨hold, hnew⟩ := @deltaAt_addDeltas { c with metrics := elemsMetrics toLong s }
      (g.metricsCount toLong) i (by rw [h.maxDeltas]; exact hcells) hlen
      (by rw [h.deltaCount, h.maxDeltas]; exact hroom) hi
    have hrow : (addDeltas { c with metrics := elemsMetrics toLong s }).row i =
        c.row i ++ [(elemsMetrics toLong s).getD i 0 - c.prevmetrics.getD i 0] := by
      rw [row, show (addDeltas { c with metrics := elemsMetrics toLong s }).deltaCount =
        c.deltaCount + 1 from hcount, range_succ, map_append, map_singleton, hnew, row]
      congr 1
      apply map_congr_left
      intro j hj
      exact hold j (mem_range.mp hj)
    rw [hrow, row_concat, h.rows i hi, h.prevmetrics]
  · intro t ht
    rcases mem_append.mp ht with ht | ht
    · exact h.uniform t ht
    · rw [mem_singleton.mp ht]
      exact hlen

/-- What is given to zlib depends on the samples of the chunk only. -/
theorem uncompressedChunk_eq (h : c.Holds toLong maxSamples g) :
    c.uncompressedChunk codec = g.bytes toLong codec := by
  have hrows : (range c.metricsCount).map c.row = g.rows toLong := by
    rw [h.count, Group.rows]
    apply map_congr_left
    intro i hi
    exact h.rows i (mem_range.mp hi)
  have hpacked : (if c.metricsCount ≠ 0 ∧ c.deltaCount ≠ 0 then c.packDeltas codec else []) =
      packAll codec (g.rows toLong).flatten := by
    split
    next hne => rw [c.packDeltas_eq codec hne.1, hrows]
    next hnot =>
      have hnil : (g.rows toLong).flatten = [] := by
        apply eq_nil_of_length_eq_zero
        rw [Group.length_flatten_rows, ← h.count, ← h.deltaCount, mul_eq_zero]
        omega
      rw [hnil]
      rfl
  rw [uncompressedChunk, hpacked, h.ref, h.count, h.deltaCount, Group.bytes]

variable (codec) in
/-- What a caller flushes at the end. -/
def finalChunks (c : FTDCCompressor) : List Bytes :=
  if c.hasDataToFlush then [(c.getCompressedSamples codec).1] else []

section
variable (h : c.Holds toLong maxSamples g)
include h

theorem getCompressedSamples_eq : (c.getCompressedSamples codec).1 = g.chunk toLong codec := by
  rw [getCompressedSamples, uncompressedChunk_eq h, Group.chunk]

theorem Holds.not_isEmpty : c.referenceDoc.isEmpty = false := by
  rw [h.ref, isEmpty_eq_false_iff]
  exact h.nonempty

theorem Holds.extract (hdepth : elemsDepth s ≤ kMaxRecursion) :
    extractMetricsFromDocument toLong c.referenceDoc s [] =
      (.ok (sameSchema s g.ref), elemsMetrics toLong s) := by
  rw [h.ref, extractMetricsFromDocument_eq toLong [] hdepth, nil_append]

theorem Holds.finalChunks_eq : c.finalChunks codec = [g.chunk toLong codec] := by
  rw [finalChunks, hasDataToFlush, h.not_isEmpty, getCompressedSamples_eq h]
  rfl

end

variable (codec) in
theorem addSample_first (h : c.State toLong maxSamples none) (hmax : 0 < (maxSamples - 1).toNat)
    (date : Int64) (hs : s ≠ []) (hdepth : elemsDepth s ≤ kMaxRecursion)
    (hcount : (elemsMetrics toLong s).length < 2 ^ 32) :
    ∃ c', c.addSample toLong codec maxSamples s date = (.ok none, c') ∧
      c'.State toLong maxSamples (some ⟨s, []⟩) := by
  obtain ⟨href, hmetrics⟩ := h
  refine ⟨_, ?_, @reset_holds toLong maxSamples { c with metrics := elemsMetrics toLong s } s date hs
    rfl hcount, hmax⟩
  rw [addSample, href, isEmpty_nil, if_pos rfl, hmetrics,
    extractMetricsFromDocument_eq toLong [] hdepth, nil_append]

variable (codec) in
/-- A sample of another schema closes the chunk. -/
theorem addSample_schemaChanged (h : c.State toLong maxSamples (some g)) (date : Int64) (hs : s ≠ [])
    (hdepth : elemsDepth s ≤ kMaxRecursion) (hcount : (elemsMetrics toLong s).length < 2 ^ 32)
    (hschema : sameSchema s g.ref = false) :
    ∃ c', c.addSample toLong codec maxSamples s date =
        (.ok (some (g.chunk toLong codec, .kSchemaChanged, c.referenceDocDate)), c') ∧
      c'.State toLong maxSamples (some ⟨s, []⟩) := by
  obtain ⟨hholds, hroom⟩ := h
  refine ⟨_, ?_, @reset_holds toLong maxSamples { c with metrics := elemsMetrics toLong s } s date hs
    rfl hcount, by simp only [length_nil]; omega⟩
  rw [addSample, hholds.not_isEmpty, if_neg (by decide), hholds.extract hdepth, hschema]
  simp only [getCompressedSamples_eq hholds]
  rfl

variable (codec) in
/-- A sample of the same schema joins the chunk, which is closed when it is full. -/
theorem addSample_same (hholds : c.Holds toLong maxSamples g) (haddr : g.Addressable toLong maxSamples)
    (hroom : g.rest.length < (maxSamples - 1).toNat) (date : Int64)
    (hdepth : elemsDepth s ≤ kMaxRecursion) (hschema : sameSchema s g.ref = true) :
    ∃ c' : FTDCCompressor, c'.Holds toLong maxSamples ⟨g.ref, g.rest ++ [s]⟩ ∧ c'.metrics = [] ∧
      c.addSample toLong codec maxSamples s date =
        if g.rest.length + 1 = (maxSamples - 1).toNat then
          (.ok (some (Group.chunk toLong codec ⟨g.ref, g.rest ++ [s]⟩, .kCompressorFull,
            c.referenceDocDate)), { c' with referenceDoc := [] })
        else (.ok none, c') := by
  have hnext := addDeltas_holds hholds haddr hroom hschema
  refine ⟨_, hnext, rfl, ?_⟩
  have hfull : (addDeltas { c with metrics := elemsMetrics toLong s }).deltaCount =
      (addDeltas { c with metrics := elemsMetrics toLong s }).maxDeltas ↔
        g.rest.length + 1 = (maxSamples - 1).toNat := by
    rw [hnext.deltaCount, hnext.maxDeltas, length_append, length_singleton]
  rw [addSample, hholds.not_isEmpty, if_neg (by decide), hholds.extract hdepth, hschema]
  simp only [getCompressedSamples_eq hnext, hfull]
  rfl

variable (toLong codec maxSamples) in
/-- The samples end up in the chunks of the groups. -/
def Compresses (c : FTDCCompressor) (samples : List (RawObj × Int64)) (groups : List Group) : Prop :=
  ∃ chunks c', addSamples toLong codec maxSamples c samples = .ok (chunks, c') ∧
    chunks ++ c'.finalChunks codec = groups.map (Group.chunk toLong codec) ∧
    ∀ g ∈ groups, g.Uniform toLong ∧ g.rest.length < 2 ^ 32

section
variable {c' : FTDCCompressor} {date : Int64} {samples : List (RawObj × Int64)} {groups : List Group}

theorem Compresses.join (h : c'.Compresses toLong codec maxSamples samples groups)
    (hstep : c.addSample toLong codec maxSamples s date = (.ok none, c')) :
    c.Compresses toLong codec maxSamples ((s, date) :: samples) groups := by
  rw [Compresses, addSamples, hstep]
  exact h

theorem Compresses.flush {state : CompressorState} {flushed : Int64}
    (h : c'.Compresses toLong codec maxSamples samples groups)
    (hstep : c.addSample toLong codec maxSamples s date =
      (.ok (some (g.chunk toLong codec, state, flushed)), c'))
    (huniform : g.Uniform toLong) (hlen : g.rest.length < 2 ^ 32) :
    c.Compresses toLong codec maxSamples ((s, date) :: samples) (g :: groups) := by
  obtain ⟨chunks, last, hrun, hchunks, hall⟩ := h
  refine ⟨g.chunk toLong codec :: chunks, last, ?_, ?_, ?_⟩
  · rw [addSamples, hstep]
    simp only [hrun]
    rfl
  · rw [cons_append, hchunks, map_cons]
  · intro g' hg'
    rcases mem_cons.mp hg' with rfl | hg'
    · exact ⟨huniform, hlen⟩
    · exact hall g' hg'

theorem compresses_nil {opened : Option Group} (h : c.State toLong maxSamples opened) (maxDeltas : Nat) :
    c.Compresses toLong codec maxSamples [] (split maxDeltas opened []) := by
  refine ⟨[], c, rfl, ?_⟩
  cases opened with
  | none => simp [finalChunks, hasDataToFlush, h.1, split]
  | some g =>
    have hlt := (maxSamples - 1).toNat_lt
    have hroom := h.2
    refine ⟨by simp [h.1.finalChunks_eq, split], ?_⟩
    intro g' hg'
    rw [mem_singleton.mp hg']
    exact ⟨h.1.uniform, by omega⟩

end

/-- The number of metrics of a sample that opens a chunk fits 32 bits. -/
theorem count_lt_of_split {samples : List RawObj}
    (h : ∀ g ∈ split (maxSamples - 1).toNat (some ⟨s, []⟩) samples, g.Addressable toLong maxSamples) :
    (elemsMetrics toLong s).length < 2 ^ 32 := by
  obtain ⟨g', hg', href⟩ := exists_of_split (maxSamples - 1).toNat ⟨s, []⟩ samples
  have hlt := (h g' hg').count
  rwa [Group.metricsCount, href] at hlt

/-- In every run the chunks are those of the groups that the sequence is cut into. -/
theorem compresses_split (hmax : 0 < (maxSamples - 1).toNat) {samples : List (RawObj × Int64)}
    {opened : Option Group} (hstate : c.State toLong maxSamples opened)
    (hne : ∀ s ∈ samples, s.1 ≠ []) (hdepth : ∀ s ∈ samples, elemsDepth s.1 ≤ kMaxRecursion)
    (haddr : ∀ g ∈ split (maxSamples - 1).toNat opened (samples.map Prod.fst),
      g.Addressable toLong maxSamples) :
    c.Compresses toLong codec maxSamples samples
      (split (maxSamples - 1).toNat opened (samples.map Prod.fst)) := by
  induction samples generalizing c opened with
  | nil => exact compresses_nil hstate _
  | cons sample samples ih =>
    obtain ⟨s, date⟩ := sample
    have hs : s ≠ [] := hne _ mem_cons_self
    have hsdepth : elemsDepth s ≤ kMaxRecursion := hdepth _ mem_cons_self
    have hne' : ∀ s ∈ samples, s.1 ≠ [] := (forall_mem_cons.mp hne).2
    have hdepth' : ∀ s ∈ samples, elemsDepth s.1 ≤ kMaxRecursion :=
      (forall_mem_cons.mp hdepth).2
    rw [map_cons] at haddr ⊢
    cases opened with
    | none =>
      rw [split] at haddr ⊢
      obtain ⟨c', hstep, hstate'⟩ :=
        addSample_first codec hstate hmax date hs hsdepth (count_lt_of_split haddr)
      exact (ih hstate' hne' hdepth' haddr).join hstep
    | some g =>
      obtain ⟨hholds, hroom⟩ := hstate
      have hlt := (maxSamples - 1).toNat_lt
      cases hschema : sameSchema s g.ref with
      | false =>
        rw [split, hschema, if_neg (by decide)] at haddr ⊢
        have haddr' := (forall_mem_cons.mp haddr).2
        obtain ⟨c', hstep, hstate'⟩ := addSample_schemaChanged codec ⟨hholds, hroom⟩ date hs hsdepth
          (count_lt_of_split haddr') hschema
        exact (ih hstate' hne' hdepth' haddr').flush hstep hholds.uniform (by omega)
      | true =>
        obtain ⟨g', hg', href⟩ := exists_of_split (maxSamples - 1).toNat g (s :: samples.map Prod.fst)
        have hcells : g.Addressable toLong maxSamples := by
          obtain ⟨hcells, hcount⟩ := haddr g' hg'
          rw [Group.metricsCount, href] at hcells hcount
          exact ⟨hcells, hcount⟩
        obtain ⟨c', hholds', hmetrics, hstep⟩ := addSample_same codec hholds hcells hroom date hsdepth hschema
        rw [split, hschema, if_pos rfl] at haddr ⊢
        simp only [length_append, length_singleton] at haddr ⊢
        by_cases hlen : g.rest.length + 1 = (maxSamples - 1).toNat
        · rw [if_pos hlen] at haddr hstep ⊢
          have hempty : FTDCCompressor.State toLong maxSamples { c' with referenceDoc := [] } none :=
            ⟨rfl, hmetrics⟩
          refine (ih hempty hne' hdepth' (forall_mem_cons.mp haddr).2).flush hstep
            hholds'.uniform ?_
          rw [length_append, length_singleton]
          omega
        · rw [if_neg hlen] at haddr hstep ⊢
          have hopen : c'.State toLong maxSamples (some ⟨g.ref, g.rest ++ [s]⟩) := by
            refine ⟨hholds', ?_⟩
            rw [length_append, length_singleton]
            omega
          exact (ih hopen hne' hdepth' haddr).join hstep

end FTDCCompressor

section
variable {toLong : BSONType → Bytes → UInt64} {codec : Codec} {decimal objcheck : Bool}
  {maxSamples : UInt32}

theorem pred_maxSamples (h : 2 ≤ maxSamples) : (maxSamples - 1).toNat = maxSamples.toNat - 1 := by
  have hle : (2 : UInt32).toNat ≤ maxSamples.toNat := UInt32.le_iff_toNat_le.mp h
  have htwo : (2 : UInt32).toNat = 2 := rfl
  apply UInt32.toNat_sub_of_le
  apply UInt32.le_iff_toNat_le.mpr
  have hone : (1 : UInt32).toNat = 1 := rfl
  omega

/-- Each chunk is read back as the group of samples that it was made of, and the groups are the
sequence of samples. -/
theorem uncompress_chunks (hmax : 2 ≤ maxSamples) {samples : List (RawObj × Int64)}
    (hne : ∀ s ∈ samples, s.1 ≠ []) (hdepth : ∀ s ∈ samples, elemsDepth s.1 ≤ 10)
    (hknown : objcheck = true → ∀ s ∈ samples, elemsKnown decimal s.1 = true)
    (hfits : ∀ g ∈ split (maxSamples.toNat - 1) none (samples.map Prod.fst), g.Fits toLong codec)
    (hcells : ∀ g ∈ split (maxSamples.toNat - 1) none (samples.map Prod.fst),
      g.metricsCount toLong * (maxSamples.toNat - 1) ≤ 2 ^ 32) :
    ∃ chunks c, FTDCCompressor.addSamples toLong codec maxSamples .new samples = .ok (chunks, c) ∧
      ∃ groups : List Group, groups.flatMap Group.samples = samples.map Prod.fst ∧
        List.Forall₂ (fun chunk g => ∃ docs,
          uncompress toLong codec decimal objcheck (fun _ => true) chunk = .ok (g.ref :: docs) ∧
            g.ReadAs toLong docs)
          (chunks ++ c.finalChunks codec) groups := by
  have hpred := pred_maxSamples hmax
  have hpos : 0 < (maxSamples - 1).toNat := by
    have hle : (2 : UInt32).toNat ≤ maxSamples.toNat := UInt32.le_iff_toNat_le.mp hmax
    have htwo : (2 : UInt32).toNat = 2 := rfl
    omega
  rw [← hpred] at hfits hcells
  have hnew : FTDCCompressor.new.State toLong maxSamples none := ⟨rfl, rfl⟩
  have hcompresses : FTDCCompressor.new.Compresses toLong codec maxSamples samples
      (split (maxSamples - 1).toNat none (samples.map Prod.fst)) :=
    FTDCCompressor.compresses_split hpos hnew hne hdepth
      fun g hg => ⟨hcells g hg, (hfits g hg).count_lt⟩
  obtain ⟨chunks, c, hrun, hchunks, hall⟩ := hcompresses
  have hflat : (split (maxSamples - 1).toNat none (samples.map Prod.fst)).flatMap Group.samples =
      samples.map Prod.fst := flatMap_split _ none _
  refine ⟨chunks, c, hrun, _, hflat, ?_⟩
  rw [hchunks, forall₂_map_left_iff, forall₂_same]
  intro g hg
  have hmem : ∀ s ∈ g.samples, ∃ date, (s, date) ∈ samples := by
    intro s hs
    have hs' : s ∈ samples.map Prod.fst := hflat ▸ mem_flatMap.mpr ⟨g, hg, hs⟩
    obtain ⟨⟨s', date⟩, hmem, rfl⟩ := mem_map.mp hs'
    exact ⟨date, hmem⟩
  obtain ⟨huniform, hlen⟩ := hall g hg
  refine Group.uncompress_eq (hfits g hg) huniform ?_ hlen ?_
  · intro s hs
    obtain ⟨date, hs⟩ := hmem s hs
    exact hdepth _ hs
  · intro hcheck
    obtain ⟨date, hs⟩ := hmem g.ref mem_cons_self
    exact hknown hcheck _ hs

end

/-- Nothing is compressed. -/
def uncompressPlain (b : Bytes) (n : Nat) : Option Bytes := if b.length = n then some b else none

theorem uncompressPlain_self (b : Bytes) : uncompressPlain (id b) b.length = some b := if_pos rfl

theorem length_uncompressPlain (c : Bytes) (n : Nat) (b : Bytes) (h : uncompressPlain c n = some b) :
    b.length ≤ n := by
  grind [uncompressPlain]

/-- Numbers stand in eight bytes, as they are. -/
def storePlain (n : UInt64) : Bytes := le 8 n.toNat

def loadPlain (b : Bytes) : Option (UInt64 × Bytes) :=
  (takeBytes 8 b).map fun r => (UInt64.ofNat (ofLe r.1), r.2)

theorem loadPlain_store (n : UInt64) (rest : Bytes) :
    loadPlain (storePlain n ++ rest) = some (n, rest) := by
  have hread : ofLe (le 8 n.toNat) = n.toNat := by
    apply ofLe_le
    have hlt := n.toNat_lt
    omega
  rw [loadPlain, storePlain, takeBytes_append (length_le _ _), Option.map_some, hread,
    UInt64.ofNat_toNat]

def plainCodec : Codec :=
  ⟨id, uncompressPlain, uncompressPlain_self, length_uncompressPlain, storePlain, loadPlain,
    loadPlain_store⟩

theorem zero_notMem_a : (0 : UInt8) ∉ [97] := by decide

theorem zero_notMem_b : (0 : UInt8) ∉ [98] := by decide

theorem width_numberLong : BSONType.numberLong.width = some 8 := rfl

theorem numberLong_ne_bool : BSONType.numberLong ≠ .bool := by decide

/-- A document with two counters. -/
def counters (a b : Nat) : RawObj :=
  [(⟨[97], zero_notMem_a⟩, eightBytes .numberLong width_numberLong numberLong_ne_bool a),
    (⟨[98], zero_notMem_b⟩, eightBytes .numberLong width_numberLong numberLong_ne_bool b)]

/-- No number that is not an integer occurs. -/
def noCast (_ : BSONType) (_ : Bytes) : UInt64 := 0

/-- The metrics of the documents that a chunk is read back as. -/
def metricsRead (chunk : Bytes) : Except Failure (List (List UInt64)) :=
  (uncompress noCast plainCodec true true (fun _ => true) chunk).map fun docs => docs.map (elemsMetrics noCast)

/-- The compressor after four samples that change both counters. -/
def afterFour (maxSamples : UInt32) : Except Failure (List Bytes × FTDCCompressor) :=
  FTDCCompressor.addSamples noCast plainCodec maxSamples .new
    [(counters 0 0, 0), (counters 1 0, 1), (counters 1 0, 2), (counters 1 5, 3)]

/-- After the chunk that the fourth sample fills, another flush gives a chunk that is refused. With
room for 2^32 - 2 deltas in each row, the delta of the second counter in the last sample is written
over that of the first counter in the second sample. -/
theorem samples_lost :
    (afterFour 4).map (fun r => (r.1.length, metricsRead (r.2.getCompressedSamples plainCodec).1)) =
      .ok (1, .error (.status .badValue
        "The metrics in the reference document and metrics count do not match")) ∧
    (afterFour 4294967295).map
        (fun r => (r.1.length, metricsRead (r.2.getCompressedSamples plainCodec).1)) =
      .ok (0, .ok [[0, 0], [5, 0], [5, 0], [5, 5]]) ∧
    (constructDocumentFromMetrics [1, 0] (counters 0 0)).map (elemsMetrics noCast) = .ok [1, 0] := by
  decide +kernel

theorem uncompress_chunks_counters :
    ∃ chunks c, FTDCCompressor.addSamples noCast plainCodec 2 .new
        [(counters 0 0, 0), (counters 1 0, 1), (counters 1 5, 2)] = .ok (chunks, c) ∧
      ∃ groups : List Group,
        groups.flatMap Group.samples = [counters 0 0, counters 1 0, counters 1 5] ∧
        List.Forall₂ (fun chunk g => ∃ docs,
          uncompress noCast plainCodec true true (fun _ => true) chunk = .ok (g.ref :: docs) ∧
            g.ReadAs noCast docs)
          (chunks ++ c.finalChunks plainCodec) groups := by
  refine uncompress_chunks (by decide) ?_ ?_ ?_ ?_ ?_
  · simp [counters]
  · decide +kernel
  · decide +kernel
  · decide +kernel
  · decide +kernel

end MongolDb.Ftdc
