import MongolDb.Sharding.ChunkRefresh

/-! How the chunks of a collection change on the config servers: splits, merges and migrations. -/
namespace MongolDb.Sharding
open Bson Ranges List

variable {κ : Type} [LinearOrder κ]

/-- The chunks of one epoch, from the lowest key to the highest. A version of a chunk has a positive
major part (s/chunk_version.h). -/
structure ConfigState (lo hi : κ) (epoch : OID) (P : List (Chunk κ)) : Prop where
  tiles : Tiles Chunk.range lo hi P
  epoch_eq : ∀ c ∈ P, c.version.epoch = epoch
  major_pos : ∀ c ∈ P, 0 < c.version.major

/-- The version is above all versions of the state. -/
def Above (P : List (Chunk κ)) (c : Chunk κ) : Prop :=
  ∀ d ∈ P, d.version.combined < c.version.combined

/-- One change, in which the other chunks stay as they are. -/
inductive ConfigStep (P Q : List (Chunk κ)) : Prop where
  | split (c : Chunk κ) (pieces rest : List (Chunk κ)) (hP : P.Perm (c :: rest))
      (hQ : Q.Perm (pieces ++ rest)) (tiles : Tiles Chunk.range c.min c.max pieces)
      (shard : ∀ d ∈ pieces, d.shard = c.shard) (above : ∀ d ∈ pieces, Above P d)
  | merge (c : Chunk κ) (pieces rest : List (Chunk κ)) (hP : P.Perm (pieces ++ rest))
      (hQ : Q.Perm (c :: rest)) (tiles : Tiles Chunk.range c.min c.max pieces)
      (nonempty : c.min < c.max) (shard : ∀ d ∈ pieces, d.shard = c.shard) (above : Above P c)
  /-- The last chunk of the donor moves. -/
  | moveLast (c moved : Chunk κ) (rest : List (Chunk κ)) (hP : P.Perm (c :: rest))
      (hQ : Q.Perm (moved :: rest)) (range : moved.range = c.range)
      (last : ∀ d ∈ rest, d.shard ≠ c.shard) (above : Above P moved)
  /-- A chunk moves, and one that stays on the donor gets a new version too. -/
  | move (c moved control control' : Chunk κ) (rest : List (Chunk κ))
      (hP : P.Perm (c :: control :: rest)) (hQ : Q.Perm (moved :: control' :: rest))
      (range : moved.range = c.range) (donor : control.shard = c.shard)
      (same : control'.range = control.range) (stays : control'.shard = control.shard)
      (above : Above P moved) (above' : Above P control')

/-- Any number of changes between states. -/
def History (lo hi : κ) (epoch : OID) : List (Chunk κ) → List (Chunk κ) → Prop :=
  Relation.ReflTransGen fun P Q => ConfigState lo hi epoch Q ∧ ConfigStep P Q

section Later
variable {lo hi : κ} {epoch : OID} {P Q R : List (Chunk κ)}

theorem ConfigState.valid (h : ConfigState lo hi epoch P) : ∀ c ∈ P, c.Valid epoch := by
  intro c hc
  refine ⟨?_, h.epoch_eq c hc⟩
  rw [ChunkVersion.isSet, decide_eq_true_eq]
  by_contra hzero
  have hmajor := (ChunkVersion.parts_of_combined_eq_zero (Nat.eq_zero_of_not_pos hzero)).1
  have hpos := h.major_pos c hc
  rw [hmajor] at hpos
  exact absurd hpos (by decide)

/-- A change takes some chunks away and adds others that are above all versions; a shard that loses
one of its chunks but keeps some gets one of the new ones. -/
structure Replaces (P Q removed added rest : List (Chunk κ)) : Prop where
  before : P.Perm (removed ++ rest)
  after : Q.Perm (added ++ rest)
  nonempty : added ≠ []
  above : ∀ c ∈ added, Above P c
  shard : ∀ d ∈ removed, (∃ c ∈ Q, c.shard = d.shard) → ∃ c ∈ added, c.shard = d.shard

theorem ConfigStep.replaces (hP : Tiles Chunk.range lo hi P) (h : ConfigStep P Q) :
    ∃ removed added rest, Replaces P Q removed added rest := by
  cases h with
  | split c pieces rest hP' hQ tiles shard above =>
    have hlt : c.min < c.max := hP.nonempty c (hP'.mem_iff.mpr mem_cons_self)
    obtain ⟨piece, hpiece, -⟩ := tiles.cover c.min le_rfl hlt
    refine ⟨[c], pieces, rest, hP', hQ, ne_nil_of_mem hpiece, above, ?_⟩
    intro d hd _
    rw [mem_singleton.mp hd]
    exact ⟨piece, hpiece, shard piece hpiece⟩
  | merge c pieces rest hP' hQ tiles nonempty shard above =>
    refine ⟨pieces, [c], rest, hP', hQ, cons_ne_nil _ _, ?_, ?_⟩
    · intro d hd
      rw [mem_singleton.mp hd]
      exact above
    · intro d hd _
      exact ⟨c, mem_singleton_self c, (shard d hd).symm⟩
  | moveLast c moved rest hP' hQ range last above =>
    refine ⟨[c], [moved], rest, hP', hQ, cons_ne_nil _ _, ?_, ?_⟩
    · intro d hd
      rw [mem_singleton.mp hd]
      exact above
    · rintro d hd ⟨e, he, hshard⟩
      rw [mem_singleton.mp hd] at hshard ⊢
      rcases mem_cons.mp (hQ.mem_iff.mp he) with rfl | hrest
      · exact ⟨e, mem_singleton_self e, hshard⟩
      · exact absurd hshard (last e hrest)
  | move c moved control control' rest hP' hQ range donor same stays above above' =>
    refine ⟨[c, control], [moved, control'], rest, hP', hQ, cons_ne_nil _ _, ?_, ?_⟩
    · intro d hd
      rcases mem_pair.mp hd with rfl | rfl
      · exact above
      · exact above'
    · intro d hd _
      refine ⟨control', by simp, ?_⟩
      rcases mem_pair.mp hd with rfl | rfl
      · exact stays.trans donor
      · exact stays

/-- What holds between a state and any later one. -/
structure Later (P Q : List (Chunk κ)) : Prop where
  newer : Newer P Q
  rises : ∀ d ∈ P, ∃ q ∈ Q, d.version.combined ≤ q.version.combined
  shardRises : ∀ d ∈ P, (∃ c ∈ Q, c.shard = d.shard) →
    ∃ q ∈ Q, q.shard = d.shard ∧ d.version.combined ≤ q.version.combined

omit [LinearOrder κ] in
theorem Later.refl (P : List (Chunk κ)) : Later P P :=
  ⟨fun _ hc hnot => absurd hc hnot, fun d hd => ⟨d, hd, le_rfl⟩, fun d hd _ => ⟨d, hd, rfl, le_rfl⟩⟩

omit [LinearOrder κ] in
theorem Later.step {removed added rest : List (Chunk κ)} (h : Later P Q)
    (hr : Replaces Q R removed added rest) : Later P R := by
  have hadded : ∀ c ∈ added, c ∈ R := fun c hc => hr.after.mem_iff.mpr (mem_append_left _ hc)
  have hrest : ∀ c ∈ rest, c ∈ R := fun c hc => hr.after.mem_iff.mpr (mem_append_right _ hc)
  -- what is above the middle state is above the first one
  have habove : ∀ c ∈ added, Above P c := by
    intro c hc d hd
    obtain ⟨q, hq, hle⟩ := h.rises d hd
    exact hle.trans_lt (hr.above c hc q hq)
  refine ⟨?_, ?_, ?_⟩
  · intro c hc hnot
    rcases mem_append.mp (hr.after.mem_iff.mp hc) with hc | hc
    · exact habove c hc
    · exact h.newer c (hr.before.mem_iff.mpr (mem_append_right _ hc)) hnot
  · intro d hd
    obtain ⟨c, hc⟩ := exists_mem_of_ne_nil added hr.nonempty
    exact ⟨c, hadded c hc, (habove c hc d hd).le⟩
  · rintro d hd ⟨c, hc, hshard⟩
    rcases mem_append.mp (hr.after.mem_iff.mp hc) with hadd | hkept
    · exact ⟨c, hc, hshard, (habove c hadd d hd).le⟩
    · -- the shard had a chunk in between
      have hcQ : c ∈ Q := hr.before.mem_iff.mpr (mem_append_right _ hkept)
      obtain ⟨q, hq, hqshard, hle⟩ := h.shardRises d hd ⟨c, hcQ, hshard⟩
      rcases mem_append.mp (hr.before.mem_iff.mp hq) with hgone | hqrest
      · obtain ⟨c', hc', hshard'⟩ := hr.shard q hgone ⟨c, hc, hshard.trans hqshard.symm⟩
        exact ⟨c', hadded c' hc', hshard'.trans hqshard, (habove c' hc' d hd).le⟩
      · exact ⟨q, hrest q hqrest, hqshard, hle⟩

theorem History.later (hP : ConfigState lo hi epoch P) (h : History lo hi epoch P Q) :
    ConfigState lo hi epoch Q ∧ Later P Q := by
  induction h with
  | refl => exact ⟨hP, .refl P⟩
  | tail _ hstep ih =>
    obtain ⟨hstate, hstep⟩ := hstep
    obtain ⟨removed, added, rest, hr⟩ := hstep.replaces ih.1.tiles
    exact ⟨hstate, ih.2.step hr⟩

end Later

end MongolDb.Sharding
