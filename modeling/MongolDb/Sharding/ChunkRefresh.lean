import MongolDb.Sharding.ChunkDiff

/-! A refresh from the chunks that changed ends in the same map as a load of all chunks. -/
namespace MongolDb.Sharding
open Bson Ranges List

variable {κ ν : Type} [LinearOrder κ]

section
variable {byMin : Bool} {m : SortedMap κ ν} {min max k : κ} {e : κ × ν}

/-- The stored key lies in the region of the map that belongs to the range. -/
def Hits (byMin : Bool) (min max k : κ) : Prop :=
  if byMin then min ≤ k ∧ k < max else min < k ∧ k ≤ max

theorem hits_iff : Hits byMin min max e.1 ↔ before byMin min e = false ∧ before byMin max e = true := by
  cases byMin <;> simp [Hits, before]

theorem before_mono (hlt : min < max) (h : before byMin min e = true) : before byMin max e = true := by
  cases byMin with
  | true =>
    have h : e.1 < min := of_decide_eq_true h
    exact decide_eq_true (h.trans hlt)
  | false =>
    have h : e.1 ≤ min := of_decide_eq_true h
    exact decide_eq_true (h.trans hlt.le)

theorem before_sorted (m : SortedMap κ ν) (byMin : Bool) (k : κ) :
    m.entries.Pairwise fun a b => before byMin k b = true → before byMin k a = true := by
  cases byMin with
  | true => exact m.sorted_lt k
  | false => exact m.sorted_le k

theorem mem_removeOverlapping (hlt : min < max) :
    e ∈ (removeOverlapping byMin m min max).entries ↔ e ∈ m.entries ∧ ¬ Hits byMin min max e.1 := by
  have hmin := before_sorted m byMin min
  have hmax := before_sorted m byMin max
  have hle : (m.entries.takeWhile (before byMin min)).length ≤
      (m.entries.takeWhile (before byMin max)).length := by
    rw [takeWhile_eq_filter hmin, takeWhile_eq_filter hmax]
    exact (monotone_filter_right m.entries fun a ha => before_mono hlt ha).length_le
  have hentries : (removeOverlapping byMin m min max).entries =
      m.entries.filter (before byMin min) ++ m.entries.filter fun a => !before byMin max a := by
    change m.entries.take _ ++ m.entries.drop _ = _
    rw [overlappingRange, Nat.add_sub_cancel' hle, take_takeWhile hmin, drop_takeWhile hmax]
  rw [hentries, mem_append, mem_filter, mem_filter, hits_iff, ← and_or_left]
  refine and_congr_right fun _ => ?_
  cases before byMin min e <;> cases before byMin max e <;> simp

theorem isOverlapping_eq_false (hlt : min < max) (h : ∀ e ∈ m.entries, ¬ Hits byMin min max e.1) :
    isOverlapping byMin m min max = false := by
  have hsame : m.entries.filter (before byMin min) = m.entries.filter (before byMin max) := by
    apply filter_congr
    intro e he
    have hnot := mt hits_iff.mpr (h e he)
    have hmono := @before_mono κ ν _ byMin min max e hlt
    cases hb : before byMin max e <;> cases hb' : before byMin min e <;> simp_all
  have hlen : (overlappingRange byMin m min max).1 = (overlappingRange byMin m min max).2 := by
    rw [overlappingRange, takeWhile_eq_filter (before_sorted m byMin min),
      takeWhile_eq_filter (before_sorted m byMin max), hsame]
  simp [isOverlapping, hlen]

end

/-! Chunks that fill the key space. -/

namespace Tracker

def keyOf (t : Tracker κ ν) (chunk : Chunk κ) : κ :=
  if t.isMinKeyIndexed then chunk.min else chunk.max

/-- Chunks are stored under the key that the overlaps are computed with. -/
def Indexed (t : Tracker κ ν) : Prop := ∀ chunk, (t.rangeFor chunk).1 = t.keyOf chunk

/-- A chunk meets the stored key of another one. -/
def HitsKey (t : Tracker κ ν) (chunk other : Chunk κ) : Prop :=
  Hits t.isMinKeyIndexed chunk.min chunk.max (t.keyOf other)

end Tracker

section
variable {t : Tracker κ ν} {lo hi : κ} {P Q : List (Chunk κ)} {c d : Chunk κ}

/-- Of the chunks of one state each meets only its own key. -/
theorem eq_of_hitsKey (hQ : Tiles Chunk.range lo hi Q) (hc : c ∈ Q) (hd : d ∈ Q)
    (h : t.HitsKey d c) : c = d := by
  by_contra hne
  have hlt : c.min < c.max := hQ.nonempty c hc
  rw [Tracker.HitsKey, Hits, Tracker.keyOf] at h
  split at h
  next =>
    rcases hQ.disjoint hc hd hne with hle | hle
    · exact absurd (hlt.trans_le hle) (not_lt.mpr h.1)
    · exact absurd h.2 (not_lt.mpr hle)
  next =>
    rcases hQ.disjoint hc hd hne with hle | hle
    · exact absurd h.1 (not_lt.mpr hle)
    · exact absurd (hlt.trans_le h.2) (not_lt.mpr hle)

theorem hitsKey_self (hQ : Tiles Chunk.range lo hi Q) (hc : c ∈ Q) : t.HitsKey c c := by
  have hlt : c.min < c.max := hQ.nonempty c hc
  rw [Tracker.HitsKey, Hits, Tracker.keyOf]
  split
  · exact ⟨le_rfl, hlt⟩
  · exact ⟨hlt, le_rfl⟩

/-- The key of a chunk of one state is met by a chunk of any other state. -/
theorem exists_hitsKey (hP : Tiles Chunk.range lo hi P) (hQ : Tiles Chunk.range lo hi Q)
    (hc : c ∈ P) : ∃ d ∈ Q, t.HitsKey d c := by
  have hlt : c.min < c.max := hP.nonempty c hc
  obtain ⟨hlo, hhi⟩ : lo ≤ c.min ∧ c.max ≤ hi := hP.inside c hc
  cases hmin : t.isMinKeyIndexed with
  | true =>
    obtain ⟨d, hd, hin⟩ := hQ.cover c.min hlo (hlt.trans_le hhi)
    refine ⟨d, hd, ?_⟩
    rw [Tracker.HitsKey, Hits, Tracker.keyOf, if_pos hmin, if_pos hmin]
    exact hin
  | false =>
    obtain ⟨d, hd, hin⟩ := hQ.exists_stop (hlo.trans_lt hlt) hhi
    refine ⟨d, hd, ?_⟩
    have hneg : ¬ t.isMinKeyIndexed = true := by simp [hmin]
    rw [Tracker.HitsKey, Hits, Tracker.keyOf, if_neg hneg, if_neg hneg]
    exact hin

/-- Every chunk of `Q` that is not in `P` is newer than all of `P`. -/
def Newer (P Q : List (Chunk κ)) : Prop :=
  ∀ c ∈ Q, c ∉ P → ∀ d ∈ P, d.version.combined < c.version.combined

/-- A chunk of `P` that no changed chunk meets is one of `Q`. -/
theorem unchanged_of_not_hit (hP : Tiles Chunk.range lo hi P) (hQ : Tiles Chunk.range lo hi Q)
    {changed : Chunk κ → Prop} (hold : ∀ d ∈ Q, ¬ changed d → d ∈ P) (hc : c ∈ P)
    (h : ∀ d ∈ Q, changed d → ¬ t.HitsKey d c) : c ∈ Q ∧ ¬ changed c := by
  obtain ⟨d, hd, hhit⟩ := @exists_hitsKey _ _ _ t _ _ _ _ _ hP hQ hc
  have hunchanged : ¬ changed d := fun hch => h d hd hch hhit
  obtain rfl : c = d := eq_of_hitsKey hP hc (hold d hd hunchanged) hhit
  exact ⟨hd, hunchanged⟩

end

section Loops
variable {t : Tracker κ ν} {lo hi : κ} {Q chunks : List (Chunk κ)} {epoch : OID}
  {loop : DiffLoop κ ν} {s : DiffState κ ν}

/-- The version of the chunk is set and belongs to the epoch. -/
def Chunk.Valid (epoch : OID) (c : Chunk κ) : Prop := c.version.isSet = true ∧ c.version.epoch = epoch

theorem noteChunks_eq (h : ∀ c ∈ chunks, c.Valid epoch) :
    noteChunks t epoch chunks loop = (true, chunks.foldl (noteChunk t) loop) := by
  induction chunks generalizing loop with
  | nil => rfl
  | cons c chunks ih =>
    obtain ⟨hset, hepoch⟩ := h c mem_cons_self
    rw [noteChunks, if_neg (by simp [hset, hepoch])]
    exact ih (forall_mem_cons.mp h).2

theorem validDiffs_foldl :
    (chunks.foldl (noteChunk t) loop).validDiffs = loop.validDiffs + chunks.length := by
  induction chunks generalizing loop with
  | nil => rfl
  | cons c chunks ih =>
    rw [foldl_cons, ih, length_cons]
    change loop.validDiffs + 1 + chunks.length = _
    omega

theorem newTracked_foldl : (chunks.foldl (noteChunk t) loop).newTracked =
    loop.newTracked ++ chunks.filter t.isTracked := by
  induction chunks generalizing loop with
  | nil => simp
  | cons c chunks ih =>
    rw [foldl_cons, ih, noteChunk]
    cases hc : t.isTracked c <;> simp [hc]

theorem mem_currMap_foldl {e : κ × ν} (h : ∀ c ∈ chunks, c.min < c.max) :
    e ∈ (chunks.foldl (noteChunk t) loop).state.currMap.entries ↔
      e ∈ loop.state.currMap.entries ∧
        ∀ c ∈ chunks, ¬ Hits t.isMinKeyIndexed c.min c.max e.1 := by
  induction chunks generalizing loop with
  | nil => simp
  | cons c chunks ih =>
    rw [foldl_cons, ih (forall_mem_cons.mp h).2, forall_mem_cons,
      ← and_assoc]
    exact and_congr_left fun _ => mem_removeOverlapping (h c mem_cons_self)

theorem maxVersion_foldl :
    (chunks.foldl (noteChunk t) loop).state.maxVersion =
      chunks.foldl (fun v c => v.raise c.version) loop.state.maxVersion := by
  induction chunks generalizing loop with
  | nil => rfl
  | cons c chunks ih =>
    rw [foldl_cons, ih]
    rfl

/-- The second loop adds the tracked chunks, none of which overlaps what is there. -/
theorem trackChunks_eq (ht : t.Indexed) (hQ : Tiles Chunk.range lo hi Q) {m : SortedMap κ ν}
    (hchunks : ∀ c ∈ chunks, c ∈ Q) (hnodup : chunks.Nodup)
    (hm : ∀ e ∈ m.entries, ∃ c ∈ Q, c ∉ chunks ∧ t.rangeFor c = e) :
    ∃ m', trackChunks t chunks m = (true, m') ∧
      ∀ e, e ∈ m'.entries ↔ e ∈ m.entries ∨ ∃ c ∈ chunks, t.rangeFor c = e := by
  induction chunks generalizing m with
  | nil => exact ⟨m, rfl, fun e => by simp⟩
  | cons c chunks ih =>
    obtain ⟨hfresh, hnodup⟩ := nodup_cons.mp hnodup
    have hc := hchunks c mem_cons_self
    -- the stored chunks are other chunks of the same state
    have hfree : ∀ e ∈ m.entries, ¬ Hits t.isMinKeyIndexed c.min c.max e.1 := by
      intro e he hhit
      obtain ⟨d, hd, hnot, rfl⟩ := hm e he
      rw [ht d] at hhit
      exact hnot (eq_of_hitsKey hQ hd hc hhit ▸ mem_cons_self)
    have hkey : ∀ e ∈ m.entries, e.1 ≠ (t.rangeFor c).1 := by
      intro e he heq
      apply hfree e he
      rw [heq, ht c]
      exact hitsKey_self hQ hc
    have hinsert : ∀ e, e ∈ (m.insert (t.rangeFor c).1 (t.rangeFor c).2).entries ↔
        e = t.rangeFor c ∨ e ∈ m.entries := fun e => SortedMap.mem_insert hkey
    have hm' : ∀ e ∈ (m.insert (t.rangeFor c).1 (t.rangeFor c).2).entries,
        ∃ d ∈ Q, d ∉ chunks ∧ t.rangeFor d = e := by
      intro e he
      rcases (hinsert e).mp he with rfl | he
      · exact ⟨c, hc, hfresh, rfl⟩
      · obtain ⟨d, hd, hnot, rfl⟩ := hm e he
        exact ⟨d, hd, fun hin => hnot (mem_cons_of_mem c hin), rfl⟩
    obtain ⟨m', hm', hmem⟩ := ih (forall_mem_cons.mp hchunks).2 hnodup hm'
    refine ⟨m', ?_, ?_⟩
    · have hlt : c.min < c.max := hQ.nonempty c hc
      rw [trackChunks, isOverlapping_eq_false hlt hfree]
      exact hm'
    · intro e
      rw [hmem, hinsert, exists_mem_cons_iff, ← or_assoc, @eq_comm _ e, or_comm (a := _ = e)]

end Loops

section MaxVersion
variable {γ : Type} {Q chunks : List (Chunk γ)} {epoch : OID} {v w : ChunkVersion}

theorem ChunkVersion.eq_of_combined (h : v.combined = w.combined) (hepoch : v.epoch = w.epoch) :
    v = w := by
  have hv := v.minor.toUInt32.toNat_lt
  have hw := w.minor.toUInt32.toNat_lt
  have hmajor : v.major.toUInt32.toNat = w.major.toUInt32.toNat := by
    unfold combined at h
    omega
  have hminor : v.minor.toUInt32.toNat = w.minor.toUInt32.toNat := by
    unfold combined at h
    omega
  have hint : ∀ x y : Int32, x.toUInt32.toNat = y.toUInt32.toNat → x = y := by
    rintro ⟨x⟩ ⟨y⟩ hxy
    exact congrArg Int32.ofUInt32 (UInt32.toNat_inj.mp hxy)
  obtain ⟨vmajor, vminor, vepoch⟩ := v
  obtain ⟨wmajor, wminor, wepoch⟩ := w
  obtain rfl := hint _ _ hmajor
  obtain rfl := hint _ _ hminor
  obtain rfl : vepoch = wepoch := hepoch
  rfl

/-- The version is the highest of the chunks. -/
structure IsMaxVersion (Q : List (Chunk γ)) (v : ChunkVersion) : Prop where
  attained : ∃ c ∈ Q, c.version = v
  bound : ∀ c ∈ Q, c.version.combined ≤ v.combined

theorem IsMaxVersion.unique (hvalid : ∀ c ∈ Q, c.version.epoch = epoch) (hv : IsMaxVersion Q v)
    (hw : IsMaxVersion Q w) : v = w := by
  obtain ⟨c, hc, rfl⟩ := hv.attained
  obtain ⟨d, hd, rfl⟩ := hw.attained
  apply ChunkVersion.eq_of_combined
  · exact le_antisymm (hw.bound c hc) (hv.bound d hd)
  · rw [hvalid c hc, hvalid d hd]

theorem foldl_raise : (chunks.foldl (fun v c => v.raise c.version) v = v ∨
      ∃ c ∈ chunks, c.version = chunks.foldl (fun v c => v.raise c.version) v) ∧
    v.combined ≤ (chunks.foldl (fun v c => v.raise c.version) v).combined ∧
    ∀ c ∈ chunks, c.version.combined ≤ (chunks.foldl (fun v c => v.raise c.version) v).combined := by
  induction chunks generalizing v with
  | nil => exact ⟨.inl rfl, le_rfl, nofun⟩
  | cons c chunks ih =>
    rw [foldl_cons]
    obtain ⟨hfrom, hle, hbound⟩ := @ih (v.raise c.version)
    refine ⟨?_, (v.le_raise c.version).trans hle, ?_⟩
    · rcases hfrom with heq | ⟨d, hd, heq⟩
      · rw [heq, ChunkVersion.raise]
        split
        · exact .inr ⟨c, mem_cons_self, rfl⟩
        · exact .inl rfl
      · exact .inr ⟨d, mem_cons_of_mem c hd, heq⟩
    · intro d hd
      rcases mem_cons.mp hd with rfl | hd
      · exact (v.le_raise_right d.version).trans hle
      · exact hbound d hd

/-- Raised over the chunks that are above the start, a version becomes the highest of all, if it was
not above all of them. -/
theorem isMaxVersion_foldl (hvalid : ∀ c ∈ Q, c.version.epoch = epoch) (hv : v.epoch = epoch)
    (hchunks : ∀ c ∈ chunks, c ∈ Q) (hrest : ∀ c ∈ Q, c ∉ chunks → c.version.combined ≤ v.combined)
    {c : Chunk γ} (hc : c ∈ Q) (hle : v.combined ≤ c.version.combined) :
    IsMaxVersion Q (chunks.foldl (fun v c => v.raise c.version) v) := by
  obtain ⟨hfrom, hge, hbound⟩ := @foldl_raise γ chunks v
  constructor
  · rcases hfrom with heq | ⟨d, hd, heq⟩
    · refine ⟨c, hc, ?_⟩
      apply ChunkVersion.eq_of_combined
      · rw [heq]
        by_cases hin : c ∈ chunks
        · exact le_antisymm (heq ▸ hbound c hin) hle
        · exact le_antisymm (hrest c hc hin) hle
      · rw [heq, hv]
        exact hvalid c hc
    · exact ⟨d, hchunks d hd, heq⟩
  · intro d hd
    by_cases hin : d ∈ chunks
    · exact hbound d hin
    · exact (hrest d hd hin).trans hge

end MaxVersion

section Refresh
variable {t : Tracker κ ν} {lo hi : κ} {P Q diff load : List (Chunk κ)} {epoch : OID}
  {s s₀ : DiffState κ ν}

/-- The tracker's state holds the tracked chunks and the highest version. -/
structure Reflects (t : Tracker κ ν) (Q : List (Chunk κ)) (s : DiffState κ ν) : Prop where
  entries : ∀ e, e ∈ s.currMap.entries ↔ ∃ c ∈ Q, t.isTracked c = true ∧ t.rangeFor c = e
  version : IsMaxVersion Q s.maxVersion

/-- Nothing is loaded yet. -/
structure Unloaded (epoch : OID) (s : DiffState κ ν) : Prop where
  empty : s.currMap.entries = []
  version : s.maxVersion = ⟨0, 0, epoch⟩

theorem Reflects.unique {s s' : DiffState κ ν} (hvalid : ∀ c ∈ Q, c.Valid epoch)
    (hs : Reflects t Q s) (hs' : Reflects t Q s') :
    s.currMap = s'.currMap ∧ s.maxVersion = s'.maxVersion := by
  refine ⟨SortedMap.ext_mem fun e => ?_, hs.version.unique (fun c hc => (hvalid c hc).2) hs'.version⟩
  rw [hs.entries, hs'.entries]

/-- Both computations find chunks, and end with the same map and version. -/
def SameLoad (t : Tracker κ ν) (s s₀ : DiffState κ ν) (diff load : List (Chunk κ)) : Prop :=
  0 < (calculateConfigDiff t s diff).1 ∧ 0 < (calculateConfigDiff t s₀ load).1 ∧
  (calculateConfigDiff t s diff).2.currMap = (calculateConfigDiff t s₀ load).2.currMap ∧
  (calculateConfigDiff t s diff).2.maxVersion = (calculateConfigDiff t s₀ load).2.maxVersion

variable (ht : t.Indexed) (hQ : Tiles Chunk.range lo hi Q) (hvalid : ∀ c ∈ Q, c.Valid epoch)
include ht hQ hvalid

/-- What the diff does to a map whose other entries are those of the unchanged chunks. -/
theorem calculateConfigDiff_reflects (hepoch : s.maxVersion.epoch = epoch)
    (hdiff : ∀ c ∈ diff, c ∈ Q) (hnodup : diff.Nodup)
    (hkept : ∀ e, (e ∈ s.currMap.entries ∧ ∀ c ∈ diff, ¬ Hits t.isMinKeyIndexed c.min c.max e.1) ↔
      ∃ c ∈ Q, c ∉ diff ∧ t.isTracked c = true ∧ t.rangeFor c = e)
    (hrest : ∀ c ∈ Q, c ∉ diff → c.version.combined ≤ s.maxVersion.combined)
    {c : Chunk κ} (hc : c ∈ diff) (hle : s.maxVersion.combined ≤ c.version.combined) :
    0 < (calculateConfigDiff t s diff).1 ∧ Reflects t Q (calculateConfigDiff t s diff).2 := by
  have hmem : ∀ e, e ∈ (diff.foldl (noteChunk t) ⟨s, 0, []⟩).state.currMap.entries ↔
      ∃ c ∈ Q, c ∉ diff ∧ t.isTracked c = true ∧ t.rangeFor c = e := by
    intro e
    rw [mem_currMap_foldl fun d hd => hQ.nonempty d (hdiff d hd)]
    exact hkept e
  obtain ⟨m', hm', hentries⟩ := @trackChunks_eq κ ν _ t lo hi Q (diff.filter t.isTracked) ht hQ
    (diff.foldl (noteChunk t) ⟨s, 0, []⟩).state.currMap
    (fun d hd => hdiff d (mem_filter.mp hd).1) (hnodup.filter _) (by
      intro e he
      obtain ⟨d, hd, hnot, -, rfl⟩ := (hmem e).mp he
      exact ⟨d, hd, fun hin => hnot (mem_filter.mp hin).1, rfl⟩)
  have hresult : calculateConfigDiff t s diff = ((diff.length : Int),
      { (diff.foldl (noteChunk t) ⟨s, 0, []⟩).state with currMap := m' }) := by
    rw [calculateConfigDiff, hepoch, noteChunks_eq fun d hd => hvalid d (hdiff d hd)]
    simp only [if_true, newTracked_foldl, nil_append, hm', validDiffs_foldl, Nat.zero_add]
  rw [hresult]
  refine ⟨?_, ?_, ?_⟩
  · have := length_pos_of_mem hc
    omega
  · intro e
    rw [hentries, hmem]
    constructor
    · rintro (⟨d, hd, -, htracked, rfl⟩ | ⟨d, hd, rfl⟩)
      · exact ⟨d, hd, htracked, rfl⟩
      · obtain ⟨hd, htracked⟩ := mem_filter.mp hd
        exact ⟨d, hdiff d hd, htracked, rfl⟩
    · rintro ⟨d, hd, htracked, rfl⟩
      by_cases hin : d ∈ diff
      · exact .inr ⟨d, mem_filter.mpr ⟨hin, htracked⟩, rfl⟩
      · exact .inl ⟨d, hd, hin, htracked, rfl⟩
  · change IsMaxVersion Q (diff.foldl (noteChunk t) ⟨s, 0, []⟩).state.maxVersion
    rw [maxVersion_foldl]
    exact isMaxVersion_foldl (fun d hd => (hvalid d hd).2) hepoch hdiff hrest (hdiff c hc) hle

/-- A load of all chunks. -/
theorem load_reflects (hlo : lo < hi) (hs : Unloaded epoch s₀) (hload : load.Perm Q) :
    0 < (calculateConfigDiff t s₀ load).1 ∧ Reflects t Q (calculateConfigDiff t s₀ load).2 := by
  obtain ⟨c, hc, -⟩ := hQ.cover lo le_rfl hlo
  refine calculateConfigDiff_reflects ht hQ hvalid (by rw [hs.version])
    (fun d hd => hload.mem_iff.mp hd) (hload.nodup_iff.mpr hQ.nodup) ?_ ?_ (hload.mem_iff.mpr hc) ?_
  · intro e
    rw [hs.empty]
    constructor
    · rintro ⟨he, -⟩
      cases he
    · rintro ⟨d, hd, hnot, -⟩
      exact absurd (hload.mem_iff.mpr hd) hnot
  · intro d hd hnot
    exact absurd (hload.mem_iff.mpr hd) hnot
  · rw [hs.version, ChunkVersion.combined_zero]
    exact Nat.zero_le _

/-- A refresh from the chunks that are no older than the state. -/
theorem refresh_reflects (hP : Tiles Chunk.range lo hi P) (hvalidP : ∀ c ∈ P, c.Valid epoch)
    (hnew : Newer P Q) (hs : Reflects t P s)
    (hdiff : diff.Perm (Q.filter fun c => decide (s.maxVersion.combined ≤ c.version.combined))) :
    0 < (calculateConfigDiff t s diff).1 ∧ Reflects t Q (calculateConfigDiff t s diff).2 := by
  have hmem : ∀ d, d ∈ diff ↔ d ∈ Q ∧ s.maxVersion.combined ≤ d.version.combined := by
    intro d
    rw [hdiff.mem_iff, mem_filter, decide_eq_true_eq]
  obtain ⟨p, hp, hpversion⟩ := hs.version.attained
  -- a chunk that is older than the state was there before
  have hold : ∀ d ∈ Q, d ∉ diff → d ∈ P := by
    intro d hd hnot
    by_contra hfresh
    have hlt := hnew d hd hfresh p hp
    rw [hpversion] at hlt
    exact hnot ((hmem d).mpr ⟨hd, hlt.le⟩)
  have hchanged : ∀ d ∈ Q, d ∉ P → d ∈ diff := by
    intro d hd hnot
    by_contra hin
    exact hnot (hold d hd hin)
  obtain ⟨c, hc⟩ : ∃ c, c ∈ diff := by
    by_cases hpQ : p ∈ Q
    · exact ⟨p, (hmem p).mpr ⟨hpQ, hpversion ▸ le_rfl⟩⟩
    · obtain ⟨d, hd, hhit⟩ := @exists_hitsKey _ _ _ t _ _ _ _ _ hP hQ hp
      refine ⟨d, hchanged d hd ?_⟩
      intro hdP
      exact hpQ (eq_of_hitsKey hP hp hdP hhit ▸ hd)
  refine calculateConfigDiff_reflects ht hQ hvalid ?_ (fun d hd => ((hmem d).mp hd).1)
    (hdiff.nodup_iff.mpr (hQ.nodup.filter _)) ?_ ?_ hc ((hmem c).mp hc).2
  · rw [← hpversion]
    exact (hvalidP p hp).2
  · intro e
    constructor
    · rintro ⟨he, hfree⟩
      obtain ⟨d, hd, htracked, rfl⟩ := (hs.entries e).mp he
      have hnothit : ∀ d' ∈ Q, d' ∈ diff → ¬ t.HitsKey d' d := by
        intro d' _ hd' hhit
        apply hfree d' hd'
        rw [ht d]
        exact hhit
      obtain ⟨hdQ, hnot⟩ := unchanged_of_not_hit hP hQ hold hd hnothit
      exact ⟨d, hdQ, hnot, htracked, rfl⟩
    · rintro ⟨d, hd, hnot, htracked, rfl⟩
      refine ⟨(hs.entries _).mpr ⟨d, hold d hd hnot, htracked, rfl⟩, ?_⟩
      intro d' hd' hhit
      rw [ht d] at hhit
      exact hnot (eq_of_hitsKey hQ hd ((hmem d').mp hd').1 hhit ▸ hd')
  · intro d hd hnot
    by_contra hlt
    exact hnot ((hmem d).mpr ⟨hd, (not_le.mp hlt).le⟩)

theorem sameLoad (hlo : lo < hi) (hP : Tiles Chunk.range lo hi P)
    (hvalidP : ∀ c ∈ P, c.Valid epoch) (hnew : Newer P Q) (hs : Reflects t P s)
    (hs₀ : Unloaded epoch s₀)
    (hdiff : diff.Perm (Q.filter fun c => decide (s.maxVersion.combined ≤ c.version.combined)))
    (hload : load.Perm Q) : SameLoad t s s₀ diff load := by
  obtain ⟨hpos, hrefresh⟩ := refresh_reflects ht hQ hvalid hP hvalidP hnew hs hdiff
  obtain ⟨hpos₀, hfull⟩ := load_reflects ht hQ hvalid hlo hs₀ hload
  obtain ⟨hmap, hversion⟩ := hrefresh.unique hvalid hfull
  exact ⟨hpos, hpos₀, hmap, hversion⟩

end Refresh

/-- For both trackers a refresh, with the changed chunks in any order, ends where a load of all
chunks does. -/
theorem refresh_eq_load {lo hi : κ} {P Q : List (Chunk κ)} {epoch : OID} (hlo : lo < hi)
    (hP : Tiles Chunk.range lo hi P) (hQ : Tiles Chunk.range lo hi Q)
    (hvalidP : ∀ c ∈ P, c.Valid epoch) (hvalidQ : ∀ c ∈ Q, c.Valid epoch) (hnew : Newer P Q) :
    (∀ (shardFor : String → ShardId) (s s₀ : DiffState κ (Chunk κ)) (diff load : List (Chunk κ)),
      Reflects (cmConfigDiffTracker shardFor) P s → Unloaded epoch s₀ →
      diff.Perm (Q.filter fun c => decide (s.maxVersion.combined ≤ c.version.combined)) →
      load.Perm Q → SameLoad (cmConfigDiffTracker shardFor) s s₀ diff load) ∧
    ∀ (shard : ShardId) (s s₀ : DiffState κ κ) (diff load : List (Chunk κ)),
      Reflects (scmConfigDiffTracker shard) P s → Unloaded epoch s₀ →
      diff.Perm (Q.filter fun c => decide (s.maxVersion.combined ≤ c.version.combined)) →
      load.Perm Q → SameLoad (scmConfigDiffTracker shard) s s₀ diff load := by
  constructor <;> intro _ s s₀ diff load hs hs₀ hdiff hload
  · exact sameLoad (fun _ => rfl) hQ hvalidQ hlo hP hvalidP hnew hs hs₀ hdiff hload
  · exact sameLoad (fun _ => rfl) hQ hvalidQ hlo hP hvalidP hnew hs hs₀ hdiff hload

/-- One chunk of shard `A`, and the same keys after a split at 5. -/
def wholeChunk : Chunk Nat := ⟨0, 10, "A", ⟨1, 0, ⟨List.replicate 12 1, epoch_size⟩⟩⟩

def lowChunk : Chunk Nat := ⟨0, 5, "A", ⟨1, 1, ⟨List.replicate 12 1, epoch_size⟩⟩⟩

def highChunk : Chunk Nat := ⟨5, 10, "A", ⟨1, 2, ⟨List.replicate 12 1, epoch_size⟩⟩⟩

theorem tiles_whole : Tiles Chunk.range 0 10 [wholeChunk] := by
  refine ⟨by decide, by decide, pairwise_singleton _ _, ?_⟩
  intro k hlo hhi
  exact ⟨wholeChunk, mem_singleton_self _, hlo, hhi⟩

theorem tiles_split : Tiles Chunk.range 0 10 [lowChunk, highChunk] := by
  refine ⟨by decide, by decide, by decide, ?_⟩
  intro k hlo hhi
  rcases lt_or_ge k 5 with hlt | hge
  · exact ⟨lowChunk, by simp, hlo, hlt⟩
  · exact ⟨highChunk, by simp, hge, hhi⟩

theorem refresh_eq_load_split :
    SameLoad (scmConfigDiffTracker "A") ⟨⟨[(0, 10)], List.pairwise_singleton _ _⟩, wholeChunk.version,
      fun _ => none⟩ ⟨.empty, ⟨0, 0, ⟨List.replicate 12 1, rfl⟩⟩, fun _ => none⟩
      [lowChunk, highChunk] [lowChunk, highChunk] := by
  have hvalid : ∀ c ∈ [wholeChunk, lowChunk, highChunk], c.Valid ⟨replicate 12 1, rfl⟩ := by
    simp only [forall_mem_cons]
    exact ⟨⟨by decide, rfl⟩, ⟨by decide, rfl⟩, ⟨by decide, rfl⟩, nofun⟩
  refine (refresh_eq_load (by decide) tiles_whole tiles_split
    (fun c hc => hvalid c (by simp at hc; simp [hc])) (forall_mem_cons.mp hvalid).2
    (by rw [Newer]; decide)).2 "A" _ _ _ _ ?_ ⟨rfl, rfl⟩ ?_ (List.Perm.refl _)
  · refine ⟨fun e => ?_, ⟨wholeChunk, by simp, rfl⟩, by decide⟩
    simp [wholeChunk, scmConfigDiffTracker, eq_comm]
  · have hall : ([lowChunk, highChunk].filter fun c =>
        decide (wholeChunk.version.combined ≤ c.version.combined)) = [lowChunk, highChunk] := by
      decide
    rw [hall]

end MongolDb.Sharding
