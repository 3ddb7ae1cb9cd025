import MongolDb.Bson.ValidDocuments
import MongolDb.Ftdc.Packing

/-! What one chunk holds, and that it is read back. -/
namespace MongolDb.Ftdc
open Bson ByteOrder ByteLayout List

def differences : UInt64 → List UInt64 → List UInt64
  | _, [] => []
  | previous, x :: l => (x - previous) :: differences x l

section
variable (previous : UInt64) (l : List UInt64)

@[simp] theorem length_differences : (differences previous l).length = l.length := by
  induction l generalizing previous with
  | nil => rfl
  | cons x l ih => rw [differences, length_cons, length_cons, ih]

/-- The subtraction wraps around as the addition does. -/
theorem inflate_differences : inflate previous (differences previous l) = l := by
  induction l generalizing previous with
  | nil => rfl
  | cons x l ih => rw [differences, inflate, UInt64.sub_add_cancel, ih]

theorem differences_concat (x : UInt64) :
    differences previous (l ++ [x]) = differences previous l ++ [x - l.getLastD previous] := by
  induction l generalizing previous with
  | nil => rfl
  | cons y l ih =>
    simp only [cons_append, differences, ih, getLastD_cons]

end

/-- The samples of one chunk: the reference document and those behind it. -/
structure Group where
  ref : RawObj
  rest : List RawObj

namespace Group

def samples (g : Group) : List RawObj := g.ref :: g.rest

section
variable (toLong : BSONType → Bytes → UInt64) (codec : Codec) (g : Group)

def metricsCount : Nat := (elemsMetrics toLong g.ref).length

/-- The values of the metric `i` behind the reference document. -/
def values (i : Nat) : List UInt64 := g.rest.map fun s => (elemsMetrics toLong s).getD i 0

def row (i : Nat) : List UInt64 :=
  differences ((elemsMetrics toLong g.ref).getD i 0) (g.values toLong i)

def rows : List (List UInt64) := (List.range (g.metricsCount toLong)).map (g.row toLong)

/-- The chunk before zlib gets it. -/
def bytes : Bytes :=
  encodeDocument g.ref ++ le 4 (g.metricsCount toLong) ++ le 4 g.rest.length ++
    packAll codec (g.rows toLong).flatten

/-- The limits of the decompressor. -/
structure Fits : Prop where
  cells : g.metricsCount toLong * g.rest.length ≤ 1000000
  size : (g.bytes toLong codec).length ≤ 10000000

instance decidableFits : Decidable (g.Fits toLong codec) :=
  decidable_of_iff
    (g.metricsCount toLong * g.rest.length ≤ 1000000 ∧ (g.bytes toLong codec).length ≤ 10000000)
    ⟨fun h => ⟨h.1, h.2⟩, fun h => ⟨h.cells, h.size⟩⟩

/-- All samples have as many metrics as the reference document. -/
def Uniform : Prop := ∀ s ∈ g.rest, (elemsMetrics toLong s).length = g.metricsCount toLong

/-- The documents that a chunk is read back as. -/
def ReadAs (docs : List RawObj) : Prop :=
  List.Forall₂ (fun s doc => constructDocumentFromMetrics
    (extractMetricsFromDocument toLong s s []).2 g.ref = .ok doc) g.rest docs

end

variable {toLong : BSONType → Bytes → UInt64} {codec : Codec} {g : Group}

theorem length_row (i : Nat) : (g.row toLong i).length = g.rest.length := by
  rw [row, length_differences, values, length_map]

theorem length_flatten_rows :
    (g.rows toLong).flatten.length = g.metricsCount toLong * g.rest.length := by
  rw [rows, length_flatten, map_map]
  have hconst : (length ∘ g.row toLong) = fun _ => g.rest.length := by
    funext i
    exact length_row i
  rw [hconst, map_const', sum_replicate_nat, length_range]

/-- The rows with each delta added up are the values of the metrics. -/
theorem inflate_rows :
    List.zipWith inflate (elemsMetrics toLong g.ref) (g.rows toLong) =
      (List.range (g.metricsCount toLong)).map (g.values toLong) := by
  have href : (range (g.metricsCount toLong)).map ((elemsMetrics toLong g.ref).getD · 0) =
      elemsMetrics toLong g.ref := by
    apply ext_getElem
    · simp [metricsCount]
    · intro i hi hi'
      simp [hi']
  calc zipWith inflate (elemsMetrics toLong g.ref) (g.rows toLong)
      = zipWith inflate
          ((range (g.metricsCount toLong)).map ((elemsMetrics toLong g.ref).getD · 0))
          (g.rows toLong) := by rw [href]
    _ = (range (g.metricsCount toLong)).map
          fun i => inflate ((elemsMetrics toLong g.ref).getD i 0) (g.row toLong i) := by
        rw [rows, zipWith_map, zipWith_self]
    _ = (range (g.metricsCount toLong)).map (g.values toLong) := by
        simp only [row, inflate_differences]

theorem column_eq (h : g.Uniform toLong) {j : Nat} (hj : j < g.rest.length) :
    column ((List.range (g.metricsCount toLong)).map (g.values toLong)) j =
      elemsMetrics toLong g.rest[j] := by
  have hlen := h g.rest[j] (getElem_mem hj)
  apply ext_getElem
  · simp [column, hlen]
  · intro i hi hi'
    simp [column, values, hj, hi']

theorem getArrayOffset_lt {sampleCount i j n : Nat} (hn : n * sampleCount < 2 ^ 32) (hi : i < n)
    (hj : j < sampleCount) : getArrayOffset sampleCount j i < n * sampleCount := by
  have hrow : (i + 1) * sampleCount ≤ n * sampleCount := Nat.mul_le_mul_right _ hi
  rw [Nat.succ_mul] at hrow
  rw [getArrayOffset, Nat.mod_eq_of_lt (by omega)]
  omega

/-- What the metrics of a sample give. -/
def Gives (toLong : BSONType → Bytes → UInt64) (g : Group) (s doc : RawObj) : Prop :=
  constructDocumentFromMetrics (elemsMetrics toLong s) g.ref = .ok doc

/-- Each sample gives a document. -/
theorem exists_readAs (h : g.Uniform toLong) (hdepth : elemsDepth g.ref ≤ kMaxRecursion) :
    ∃ docs, List.Forall₂ (g.Gives toLong) g.rest docs := by
  have hdoc : ∀ l : List RawObj, (∀ s ∈ l, (elemsMetrics toLong s).length = g.metricsCount toLong) →
      ∃ docs, List.Forall₂ (g.Gives toLong) l docs := by
    intro l hl
    induction l with
    | nil => exact ⟨[], .nil⟩
    | cons s l ih =>
      obtain ⟨doc, hdoc⟩ := constructDocumentFromMetrics_ok toLong (elemsMetrics toLong s)
        (hl s mem_cons_self) hdepth
      obtain ⟨docs, hdocs⟩ := ih (forall_mem_cons.mp hl).2
      exact ⟨doc :: docs, .cons hdoc hdocs⟩
  exact hdoc g.rest h

theorem readSamples_eq (h : g.Uniform toLong) (hcells : g.metricsCount toLong * g.rest.length ≤ 1000000)
    {docs : List RawObj} (hdocs : List.Forall₂ (g.Gives toLong) g.rest docs) :
    readSamples codec g.ref (elemsMetrics toLong g.ref) g.rest.length
      (packAll codec (g.rows toLong).flatten) = .ok docs := by
  have hsize : (elemsMetrics toLong g.ref).length * g.rest.length % 2 ^ 32 =
      g.metricsCount toLong * g.rest.length :=
    Nat.mod_eq_of_lt (Nat.lt_of_le_of_lt hcells (by decide))
  have hahead : Ahead codec (g.rows toLong).flatten (0, packAll codec (g.rows toLong).flatten) := by
    apply ahead_packAll
    rw [length_flatten_rows]
    omega
  have hrows : ∀ row ∈ g.rows toLong, row.length = g.rest.length := by
    intro row hrow
    obtain ⟨i, -, rfl⟩ := mem_map.mp hrow
    exact length_row i
  have hlen : (g.rows toLong).length = g.metricsCount toLong := by simp [rows]
  have hread : readMetrics codec (g.metricsCount toLong * g.rest.length) g.rest.length
      (g.metricsCount toLong) 0 (0, packAll codec (g.rows toLong).flatten) = .ok (g.rows toLong) := by
    rw [← hlen]
    apply hahead.metrics hrows
    intro k hk j hj
    rw [Nat.zero_add, hlen]
    exact getArrayOffset_lt (by omega) (hlen ▸ hk) hj
  have hcolumns : (range g.rest.length).mapM (fun j => constructed g.ref
      (column ((range (g.metricsCount toLong)).map (g.values toLong)) j)) = .ok docs := by
    apply Outcome.mapM_eq_ok
    obtain ⟨hdocsLen, hget⟩ := forall₂_iff_get.mp hdocs
    refine forall₂_iff_get.mpr ⟨by rw [length_range, hdocsLen], ?_⟩
    intro j hj hj'
    rw [length_range] at hj
    have hdoc := hget j hj hj'
    simp only [get_eq_getElem] at hdoc
    simp only [get_eq_getElem, getElem_range]
    rw [column_eq h hj, constructed, hdoc]
  rw [readSamples, hsize]
  show (readMetrics codec _ _ (g.metricsCount toLong) _ _ >>= _) = _
  rw [hread]
  simp only [bind, Except.bind, inflate_rows]
  exact hcolumns

theorem readUInt32_le {n : Nat} (h : n < 2 ^ 32) (rest : Bytes) :
    readUInt32 (le 4 n ++ rest) = .ok (n, rest) := by
  rw [readUInt32, takeBytes_append (length_le 4 n)]
  simp only
  rw [ofLe_le (by omega)]

variable {decimal objcheck : Bool}

theorem readValidated_eq {ref : RawObj} {rest : Bytes} (hknown : objcheck = true → elemsKnown decimal ref = true)
    (hlen : (encodeDocument ref ++ rest).length < 2 ^ 31) :
    readValidated decimal objcheck (encodeDocument ref ++ rest) = .ok (ref, rest) := by
  have hvalid : (if objcheck then validateBSON decimal (encodeDocument ref ++ rest) else .ok ()) =
      .ok () := by
    split
    next hcheck => exact validateBSON_eq_ok hlen (hknown hcheck) ⟨rest, rfl⟩
    next => rfl
  rw [length_append] at hlen
  rw [readValidated, hvalid]
  rw [parseDocument_encode (by omega)]

theorem Fits.count_lt (h : g.Fits toLong codec) : g.metricsCount toLong < 2 ^ 32 := by
  have hsize := h.size
  have hle := length_elemsMetrics_le toLong g.ref
  simp only [bytes, length_append, length_encodeDocument] at hsize
  rw [metricsCount]
  omega

def header (toLong : BSONType → Bytes → UInt64) (codec : Codec) (g : Group) : Header :=
  ⟨g.ref, g.metricsCount toLong, g.rest.length, packAll codec (g.rows toLong).flatten⟩

theorem readHeader_eq (hfits : g.Fits toLong codec) (hrest : g.rest.length < 2 ^ 32)
    (hknown : objcheck = true → elemsKnown decimal g.ref = true) :
    readHeader codec decimal objcheck
        (le 4 (g.bytes toLong codec).length ++ codec.compress (g.bytes toLong codec)) =
      .ok (g.header toLong codec) := by
  have hsize := hfits.size
  rw [readHeader, readUInt32_le (by omega)]
  simp only [bind, Except.bind]
  rw [if_neg (by omega), codec.uncompress_compress]
  rw [bytes, append_assoc, append_assoc] at hsize ⊢
  simp only
  rw [readValidated_eq hknown (by omega)]
  simp only
  rw [readUInt32_le hfits.count_lt]
  simp only
  rw [readUInt32_le hrest]
  rfl

/-- A chunk within the limits is read back as its samples. -/
theorem readDocs_eq (hfits : g.Fits toLong codec) (h : g.Uniform toLong)
    (hdepth : elemsDepth g.ref ≤ kMaxRecursion) {docs : List RawObj}
    (hdocs : List.Forall₂ (g.Gives toLong) g.rest docs) :
    (g.header toLong codec).readDocs toLong codec (fun _ => true) = .ok (g.ref :: docs) := by
  have hcells := hfits.cells
  have hmetrics : (g.header toLong codec).metrics toLong = elemsMetrics toLong g.ref := by
    rw [Header.metrics, header, extractMetricsFromDocument_eq toLong [] hdepth, nil_append]
  rw [Header.readDocs, hmetrics, if_neg (by simp only [header]; omega), if_neg (by simp),
    if_neg (by simp [header, metricsCount]), if_neg (by simp)]
  split
  next hnone =>
    have hnone : g.rest = [] := length_eq_zero_iff.mp hnone
    rw [hnone] at hdocs
    cases hdocs
    rfl
  next =>
    rw [header, readSamples_eq h hcells hdocs]
    rfl

theorem uncompress_eq (hfits : g.Fits toLong codec) (h : g.Uniform toLong)
    (hdepth : ∀ s ∈ g.samples, elemsDepth s ≤ kMaxRecursion) (hrest : g.rest.length < 2 ^ 32)
    (hknown : objcheck = true → elemsKnown decimal g.ref = true) :
    ∃ docs, uncompress toLong codec decimal objcheck (fun _ => true)
        (le 4 (g.bytes toLong codec).length ++ codec.compress (g.bytes toLong codec)) =
          .ok (g.ref :: docs) ∧ g.ReadAs toLong docs := by
  have href : elemsDepth g.ref ≤ kMaxRecursion := hdepth g.ref mem_cons_self
  obtain ⟨docs, hdocs⟩ := exists_readAs h href
  refine ⟨docs, ?_, ?_⟩
  · rw [uncompress, readHeader_eq hfits hrest hknown]
    exact readDocs_eq hfits h href hdocs
  · apply forall₂_iff_get.mpr
    obtain ⟨hlen, hget⟩ := forall₂_iff_get.mp hdocs
    refine ⟨hlen, ?_⟩
    intro i hi hi'
    rw [extractMetricsFromDocument_eq toLong [] (hdepth _ (mem_cons_of_mem _ (get_mem _ _))),
      nil_append]
    exact hget i hi hi'

end Group

end MongolDb.Ftdc
