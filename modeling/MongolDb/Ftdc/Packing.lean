import Mathlib.Data.UInt
import MongolDb.Ftdc.Compressor
import MongolDb.Lib.ZeroRuns

/-! The deltas of a chunk, packed and unpacked. -/
namespace MongolDb.Ftdc
open ByteOrder ZeroRuns List

section Tokens
variable (codec : Codec)

def encodeToken : Token UInt64 → Bytes
  | .zeros n => codec.storeVarInt 0 ++ codec.storeVarInt (UInt64.ofNat n)
  | .letter a => codec.storeVarInt a

def encodeTokens (tokens : List (Token UInt64)) : Bytes := tokens.flatMap (encodeToken codec)

theorem writeZeroes_eq (zeroesCount : Nat) (tokens : List (Token UInt64)) :
    writeZeroes codec zeroesCount (encodeTokens codec tokens) =
      encodeTokens codec (flush zeroesCount tokens) := by
  rw [writeZeroes, flush]
  split
  · simp [encodeTokens, encodeToken]
  · rfl

/-- The bytes written so far and the zeros that are due stand for the letters. -/
def Packed (letters : List UInt64) (state : Nat × Bytes) : Prop :=
  ∃ tokens, (∀ t ∈ tokens, t.Proper (2 ^ 32)) ∧ state.2 = encodeTokens codec tokens ∧
    expand tokens ++ List.replicate state.1 0 = letters

/-- The zeros that are due and the bytes ahead stand for the letters. -/
def Ahead (letters : List UInt64) (state : Nat × Bytes) : Prop :=
  ∃ tokens, (∀ t ∈ tokens, t.Proper (2 ^ 32)) ∧ state.2 = encodeTokens codec tokens ∧
    List.replicate state.1 0 ++ expand tokens = letters

variable {codec} {letters : List UInt64} {state : Nat × Bytes}

theorem packed_start : Packed codec [] (0, []) := ⟨[], by simp, rfl, rfl⟩

section
variable (h : Packed codec letters state)
include h

theorem Packed.zeros_le : state.1 ≤ letters.length := by
  obtain ⟨tokens, -, -, rfl⟩ := h
  simp

theorem Packed.delta (hlen : letters.length + 1 < 2 ^ 32)
    (delta : UInt64) : Packed codec (letters ++ [delta]) (packDelta codec state delta) := by
  have hzeros := h.zeros_le
  obtain ⟨tokens, hproper, hbytes, hexpand⟩ := h
  rw [packDelta]
  split
  next hzero =>
    have hmod : (state.1 + 1) % 2 ^ 32 = state.1 + 1 := Nat.mod_eq_of_lt (by omega)
    refine ⟨tokens, hproper, hbytes, ?_⟩
    rw [hmod, replicate_succ', ← append_assoc, hexpand, hzero]
  next hzero =>
    refine ⟨flush state.1 tokens ++ [.letter delta], ?_, ?_, ?_⟩
    · intro t ht
      rcases mem_append.mp ht with ht | ht
      · exact proper_flush hproper (by omega) t ht
      · rw [mem_singleton.mp ht]
        exact hzero
    · rw [hbytes, writeZeroes_eq]
      simp [encodeTokens, encodeToken]
    · rw [expand_append, expand_flush, hexpand]
      simp [Token.letters]

theorem Packed.deltas {row : List UInt64} (hlen : letters.length + row.length < 2 ^ 32) :
    Packed codec (letters ++ row) (row.foldl (packDelta codec) state) := by
  induction row generalizing letters state with
  | nil => simpa using h
  | cons delta row ih =>
    rw [length_cons] at hlen
    have hnext := ih (h.delta (by omega) delta) (by rw [length_append, length_singleton]; omega)
    rwa [append_assoc, singleton_append] at hnext

/-- Once the zeros that are due are written, everything is ahead of the reader. -/
theorem Packed.ahead (hlen : letters.length < 2 ^ 32) :
    Ahead codec letters (0, writeZeroes codec state.1 state.2) := by
  have hzeros := h.zeros_le
  obtain ⟨tokens, hproper, hbytes, hexpand⟩ := h
  refine ⟨flush state.1 tokens, proper_flush hproper (by omega), ?_, ?_⟩
  · rw [hbytes, writeZeroes_eq]
  · rw [expand_flush, hexpand]
    rfl

end

theorem Ahead.delta {delta : UInt64} (h : Ahead codec (delta :: letters) state) :
    ∃ state', readDelta codec state = .ok (delta, state') ∧ Ahead codec letters state' := by
  obtain ⟨zeroes, b⟩ := state
  obtain ⟨tokens, hproper, hbytes, hexpand⟩ := h
  dsimp only at hbytes hexpand
  cases zeroes with
  | succ zeroes =>
    rw [replicate_succ, cons_append, cons.injEq] at hexpand
    obtain ⟨rfl, hexpand⟩ := hexpand
    exact ⟨(zeroes, b), by simp [readDelta], tokens, hproper, hbytes, hexpand⟩
  | zero =>
    rw [replicate_zero, nil_append] at hexpand
    cases tokens with
    | nil => cases hexpand
    | cons t tokens =>
      have ht := hproper t mem_cons_self
      have htokens : ∀ t ∈ tokens, t.Proper (2 ^ 32) := (forall_mem_cons.mp hproper).2
      cases t with
      | zeros n =>
        rw [expand_cons, Token.letters, replicate_succ, cons_append, cons.injEq]
          at hexpand
        obtain ⟨rfl, hexpand⟩ := hexpand
        have hn : (UInt64.ofNat n).toNat = n := by
          have hlt : n < 2 ^ 32 := ht
          rw [UInt64.toNat_ofNat']
          exact Nat.mod_eq_of_lt (by omega)
        have hb : b = codec.storeVarInt 0 ++ (codec.storeVarInt (UInt64.ofNat n) ++
            encodeTokens codec tokens) := by
          rw [hbytes]
          simp [encodeTokens, encodeToken]
        refine ⟨(n, encodeTokens codec tokens), ?_, tokens, htokens, rfl, hexpand⟩
        rw [readDelta, if_neg (by simp)]
        simp [hb, codec.load_store, -UInt64.toNat_ofNat', hn]
      | letter a =>
        rw [expand_cons, Token.letters, singleton_append, cons.injEq] at hexpand
        obtain ⟨rfl, hexpand⟩ := hexpand
        have ha : a ≠ 0 := ht
        have hb : b = codec.storeVarInt a ++ encodeTokens codec tokens := by
          rw [hbytes]
          rfl
        refine ⟨(0, encodeTokens codec tokens), ?_, tokens, htokens, rfl, hexpand⟩
        rw [readDelta, if_neg (by simp)]
        simp [hb, codec.load_store, ha]

/-- A whole row is read back, if its cells lie within the vector. -/
theorem Ahead.metric {row : List UInt64} {size sampleCount i j : Nat}
    (h : Ahead codec (row ++ letters) state)
    (hcells : ∀ k < row.length, getArrayOffset sampleCount (j + k) i < size) :
    ∃ state', readMetric codec size sampleCount i row.length j state = .ok (row, state') ∧
      Ahead codec letters state' := by
  induction row generalizing state j with
  | nil => exact ⟨state, rfl, h⟩
  | cons delta row ih =>
    obtain ⟨state₁, hdelta, hrow⟩ := h.delta
    have hcell : getArrayOffset sampleCount j i < size := hcells 0 (Nat.zero_lt_succ _)
    have hnext : ∀ k < row.length, getArrayOffset sampleCount (j + 1 + k) i < size := by
      intro k hk
      have hcell := hcells (k + 1) (Nat.succ_lt_succ hk)
      rwa [show j + (k + 1) = j + 1 + k by omega] at hcell
    obtain ⟨state₂, hread, hletters⟩ := ih hrow hnext
    refine ⟨state₂, ?_, hletters⟩
    rw [length_cons, readMetric, hdelta]
    simp [bind, Except.bind, hcell, hread, pure, Except.pure]

theorem Ahead.metrics {rows : List (List UInt64)} {size sampleCount i : Nat}
    (h : Ahead codec rows.flatten state) (hrows : ∀ row ∈ rows, row.length = sampleCount)
    (hcells : ∀ k < rows.length, ∀ j < sampleCount, getArrayOffset sampleCount j (i + k) < size) :
    readMetrics codec size sampleCount rows.length i state = .ok rows := by
  induction rows generalizing state i with
  | nil => rfl
  | cons row rows ih =>
    have hrow := hrows row mem_cons_self
    have hfirst : ∀ k < row.length, getArrayOffset sampleCount (0 + k) i < size := by
      intro k hk
      have hcell := hcells 0 (Nat.zero_lt_succ _) k (hrow ▸ hk)
      rwa [Nat.zero_add]
    have hnext : ∀ k < rows.length, ∀ j < sampleCount,
        getArrayOffset sampleCount j (i + 1 + k) < size := by
      intro k hk j hj
      have hcell := hcells (k + 1) (Nat.succ_lt_succ hk) j hj
      rwa [show i + (k + 1) = i + 1 + k by omega] at hcell
    rw [flatten_cons] at h
    obtain ⟨state', hread, hrest⟩ := h.metric hfirst
    rw [hrow] at hread
    have hreads := ih hrest (forall_mem_cons.mp hrows).2 hnext
    rw [length_cons, readMetrics, hread]
    simp [bind, Except.bind, hreads, pure, Except.pure]

end Tokens

section
variable (codec : Codec)

/-- All deltas packed in one loop. -/
def packAll (letters : List UInt64) : Bytes :=
  let state := letters.foldl (packDelta codec) (0, [])
  writeZeroes codec state.1 state.2

theorem ahead_packAll {letters : List UInt64} (hlen : letters.length < 2 ^ 32) :
    Ahead codec letters (0, packAll codec letters) := by
  have hpacked : Packed codec ([] ++ letters) (letters.foldl (packDelta codec) (0, [])) :=
    packed_start.deltas (by simpa using hlen)
  exact hpacked.ahead hlen

namespace FTDCCompressor
variable (c : FTDCCompressor)

/-- The deltas of one metric. -/
def row (i : Nat) : List UInt64 := (List.range c.deltaCount).map (c.deltaAt i)

theorem packMetrics_eq {n k : Nat} (hn : c.metricsCount = n + 1) (hk : k ≤ n) (state : Nat × Bytes) :
    (List.range k).foldl (c.packMetric codec) state =
      ((List.range k).map c.row).flatten.foldl (packDelta codec) state := by
  induction k with
  | zero => rfl
  | succ k ih =>
    have hnot : ¬ k = c.metricsCount - 1 := by omega
    rw [range_succ, foldl_append, ih (by omega), map_append, flatten_append,
      foldl_append]
    simp [packMetric, hnot, row, foldl_map]

/-- The zeros are counted across the metrics, so that the two loops are one. -/
theorem packDeltas_eq (h : c.metricsCount ≠ 0) :
    c.packDeltas codec = packAll codec ((List.range c.metricsCount).map c.row).flatten := by
  obtain ⟨n, hn⟩ := Nat.exists_eq_succ_of_ne_zero h
  have hlast : n = c.metricsCount - 1 := by omega
  rw [packDeltas, packAll, hn, range_succ, foldl_append, c.packMetrics_eq codec hn le_rfl,
    map_append, flatten_append, foldl_append]
  simp [packMetric, hlast, row, foldl_map]

end FTDCCompressor

end

end MongolDb.Ftdc
