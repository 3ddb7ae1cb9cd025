import MongolDb.Lib.Intervals
import MongolDb.Sharding.ChunkDiff

/-! The shards that mongos sends a query to (s/shard_key_pattern.cpp, s/chunk_manager.cpp). Shard
keys are lists of values in the order of `woCompare`, of which MinKey is the lowest and MaxKey the
highest. -/
namespace MongolDb.Sharding
open Intervals List SortedMap

variable {ν : Type} [LinearOrder ν]

def isPoint (interval : Intervals.Interval ν) : Bool :=
  interval.startInclusive && interval.stopInclusive && interval.start = interval.stop

def kMaxFlattenedInCombinations : Nat := 4000000

/-- Two objects that are being built: the start and the end of a range. -/
abbrev BoundBuilder (ν : Type) := List ν × List ν

def BoundBuilder.append (builder : BoundBuilder ν) (start stop : ν) : BoundBuilder ν :=
  (builder.1 ++ [start], builder.2 ++ [stop])

/-- The new builders of the first field that is not a point, one after the other; assertion 17439. -/
def pushBuilders : List (BoundBuilder ν) → List (BoundBuilder ν) → Option (List (BoundBuilder ν))
  | [], newBuilders => some newBuilders
  | builder :: rest, newBuilders =>
    if newBuilders.length < kMaxFlattenedInCombinations then
      pushBuilders rest (newBuilders ++ [builder])
    else none

def flattenFields : List (List (Intervals.Interval ν)) → Bool → List (BoundBuilder ν) →
    Option (List (BoundBuilder ν))
  | [], _, builders => some builders
  | intervals :: fields, true, builders =>
    match intervals.head? with
    | some front =>
      if intervals.length = 1 && isPoint front then
        flattenFields fields true (builders.map fun b => b.append front.start front.stop)
      else
        -- the first field that is more than a point: one range for each of its intervals
        (pushBuilders (builders.flatMap fun b => intervals.map fun interval =>
          b.append interval.start interval.stop) []).bind (flattenFields fields false)
    | none => none
  | intervals :: fields, false, builders =>
    match intervals.head?, intervals.getLast? with
    | some first, some last =>
      flattenFields fields false (builders.map fun b => b.append first.start last.stop)
    | _, _ => none

def flattenBounds (fields : List (List (Intervals.Interval ν))) : Option (List (List ν × List ν)) :=
  if fields.any fun intervals => intervals.length = 0 then some []
  else flattenFields fields true [([], [])]

/-- Chunks by their max. -/
structure ChunkMap (ν : Type) [LinearOrder ν] where
  map : SortedMap (List ν) (Chunk (List ν))
  byMax : ∀ e ∈ map.entries, e.1 = e.2.max

def ChunkMap.chunks (m : ChunkMap ν) : List (Chunk (List ν)) := m.map.entries.map Prod.snd

/-- No gaps or overlaps. -/
def adjacent : List (Chunk (List ν)) → Bool
  | last :: chunk :: rest => chunk.min = last.max && adjacent (chunk :: rest)
  | _ => true

def isChunkMapValid [BoundedOrder ν] (m : ChunkMap ν) : Bool :=
  match m.chunks.head?, m.chunks.getLast? with
  | some first, some last =>
    first.min.all (fun v => v = ⊥) && last.max.all (fun v => v = ⊤) && adjacent m.chunks
  | _, _ => true

/-- Neighbouring chunks of one shard (`ChunkRange`). -/
structure ChunkRange (ν : Type) where
  shardId : ShardId
  min : List ν
  max : List ν

/-- The loops of `_insertRange`, with the range that is being extended. -/
def insertRange (ranges : SortedMap (List ν) (ChunkRange ν)) (cr : ChunkRange ν) :
    List (Chunk (List ν)) → SortedMap (List ν) (ChunkRange ν)
  | [] => ranges.put cr.max cr
  | chunk :: rest =>
    if chunk.shard = cr.shardId then insertRange ranges { cr with max := chunk.max } rest
    else insertRange (ranges.put cr.max cr) ⟨chunk.shard, chunk.min, chunk.max⟩ rest

def reloadAll (m : ChunkMap ν) : SortedMap (List ν) (ChunkRange ν) :=
  match m.chunks with
  | [] => .empty
  | chunk :: rest => insertRange .empty ⟨chunk.shard, chunk.min, chunk.max⟩ rest

/-- The loop of `getShardIdsForRange`: stops when all shards are in the set. -/
def collectShards (total : Nat) : List (ChunkRange ν) → Finset ShardId → Finset ShardId
  | [], shardIds => shardIds
  | range :: rest, shardIds =>
    if (insert range.shardId shardIds).card = total then insert range.shardId shardIds
    else collectShards total rest (insert range.shardId shardIds)

/-- `getShardIdsForRange`, for a min that is not above the max; assertion 13507 if no range is
found. -/
def getShardIdsForRange (ranges : SortedMap (List ν) (ChunkRange ν)) (total : Nat)
    (shardIds : Finset ShardId) (min max : List ν) : Option (Finset ShardId) :=
  let it := (ranges.entries.takeWhile fun e => decide (e.1 ≤ min)).length
  let stop := (ranges.entries.takeWhile fun e => decide (e.1 ≤ max)).length
  if it = ranges.entries.length then none
  else
    let stop := if stop ≠ ranges.entries.length then stop + 1 else stop
    some (collectShards total (((ranges.entries.drop it).take (stop - it)).map Prod.snd) shardIds)

/-- The loop of `getShardIdsForQuery` over the flattened ranges. -/
def getShardIdsForRanges (ranges : SortedMap (List ν) (ChunkRange ν)) (total : Nat) :
    List (List ν × List ν) → Finset ShardId → Option (Finset ShardId)
  | [], shardIds => some shardIds
  | (min, max) :: rest, shardIds =>
    (getShardIdsForRange ranges total shardIds min max).bind fun shardIds =>
      if shardIds.card = total then some shardIds
      else getShardIdsForRanges ranges total rest shardIds

def ChunkMap.shardIds (m : ChunkMap ν) : Finset ShardId := (m.chunks.map Chunk.shard).toFinset

/-- `getShardIdsForQuery` for these bounds on the fields of the shard key, before it adds a shard to
an empty set. -/
def getShardIdsForBounds (m : ChunkMap ν) (fields : List (List (Intervals.Interval ν)))
    (shardIds : Finset ShardId) : Option (Finset ShardId) :=
  (flattenBounds fields).bind fun ranges =>
    getShardIdsForRanges (reloadAll m) m.shardIds.card ranges shardIds

section Flattened
variable {k pre : List ν} {fields : List (List (Intervals.Interval ν))}
  {builders out : List (BoundBuilder ν)}

theorem le_of_forall₂ {a b : List ν} (h : List.Forall₂ (· ≤ ·) a b) : a ≤ b := by
  induction h with
  | nil => exact le_rfl
  | @cons x y a b hxy _ ih =>
    apply not_lt.mp
    intro hlt
    rcases cons_lt_cons_iff.mp hlt with hlt | ⟨-, hlt⟩
    · exact absurd hxy (not_le.mpr hlt)
    · exact absurd ih (not_le.mpr hlt)

/-- Each value lies between the values of the two objects. -/
def Bounds (b : BoundBuilder ν) (k : List ν) : Prop :=
  List.Forall₂ (· ≤ ·) b.1 k ∧ List.Forall₂ (· ≤ ·) k b.2

theorem Bounds.append {b : BoundBuilder ν} {start stop v : ν} (h : Bounds b pre) (hstart : start ≤ v)
    (hstop : v ≤ stop) : Bounds (b.append start stop) (pre ++ [v]) := by
  have hone : List.Forall₂ (· ≤ ·) [start] [v] := .cons hstart .nil
  have hone' : List.Forall₂ (· ≤ ·) [v] [stop] := .cons hstop .nil
  exact ⟨rel_append h.1 hone, rel_append h.2 hone'⟩

omit [LinearOrder ν] in
theorem pushBuilders_eq {l : List (BoundBuilder ν)} (h : pushBuilders l builders = some out) :
    out = builders ++ l := by
  induction l generalizing builders with
  | nil =>
    cases h
    exact (append_nil _).symm
  | cons b l ih =>
    rw [pushBuilders] at h
    split at h
    · rw [ih h, append_assoc]
      rfl
    · cases h

/-- The value lies in one of the intervals, which are in ascending order. -/
def Within (intervals : List (Intervals.Interval ν)) (v : ν) : Prop :=
  Ordered id intervals ∧ Covers id intervals v

theorem contains_bounds {interval : Intervals.Interval ν} {v : ν} (h : interval.Contains id v) :
    interval.start ≤ v ∧ v ≤ interval.stop := by
  constructor
  · exact h.1.elim le_of_lt fun heq => le_of_eq heq.1
  · exact h.2.elim le_of_lt fun heq => le_of_eq heq.1

/-- The first start and the last end enclose every value of the list. -/
theorem Within.enclosed {intervals : List (Intervals.Interval ν)} {v : ν} {first last : Intervals.Interval ν}
    (h : Within intervals v) (hfirst : intervals.head? = some first)
    (hlast : intervals.getLast? = some last) : first.start ≤ v ∧ v ≤ last.stop := by
  obtain ⟨hordered, I, hI, hv⟩ := h
  obtain ⟨hstart, hstop⟩ := contains_bounds hv
  constructor
  · cases intervals with
    | nil => cases hfirst
    | cons J rest =>
      obtain rfl : J = first := Option.some.inj hfirst
      rcases mem_cons.mp hI with rfl | hrest
      · exact hstart
      · have hJ : J.start ≤ J.stop := (hordered.runs J mem_cons_self).le
        have hJI : J.stop ≤ I.start := (pairwise_cons.mp hordered.sorted).1 I hrest
        exact hJ.trans (hJI.trans hstart)
  · obtain ⟨rest, rfl⟩ := getLast?_eq_some_iff.mp hlast
    rcases mem_append.mp hI with hrest | hone
    · have hIJ : I.stop ≤ last.start :=
        (pairwise_append.mp hordered.sorted).2.2 I hrest last (mem_singleton_self _)
      have hJ : last.start ≤ last.stop := (hordered.runs last (by simp)).le
      exact hstop.trans (hIJ.trans hJ)
    · rw [mem_singleton.mp hone] at hstop
      exact hstop

/-- The loop keeps a builder around the values of the fields that it has seen. -/
theorem flattenFields_bounds {equalityOnly : Bool} (hk : List.Forall₂ Within fields k)
    (h : flattenFields fields equalityOnly builders = some out)
    (hpre : ∃ b ∈ builders, Bounds b pre) : ∃ b ∈ out, Bounds b (pre ++ k) := by
  induction hk generalizing equalityOnly builders pre with
  | nil =>
    cases h
    rw [append_nil]
    exact hpre
  | @cons intervals v fields k hv _ ih =>
    obtain ⟨b, hb, hbounds⟩ := hpre
    rw [append_cons]
    cases equalityOnly with
    | true =>
      rw [flattenFields] at h
      split at h
      next front hfront =>
        split at h
        next hpoint =>
          -- the only interval is a point
          have hlast : intervals.getLast? = some front := by
            cases intervals with
            | nil => cases hfront
            | cons J rest =>
              have hlen : rest = [] := by
                rw [Bool.and_eq_true] at hpoint
                simpa using hpoint.1
              subst hlen
              exact hfront
          obtain ⟨hstart, hstop⟩ := hv.enclosed hfront hlast
          exact ih h ⟨_, mem_map_of_mem hb, hbounds.append hstart hstop⟩
        next =>
          obtain ⟨newBuilders, hnew, h⟩ := Option.bind_eq_some_iff.mp h
          obtain ⟨I, hI, hIv⟩ := hv.2
          obtain ⟨hstart, hstop⟩ := contains_bounds hIv
          refine ih h ⟨b.append I.start I.stop, ?_, hbounds.append hstart hstop⟩
          rw [pushBuilders_eq hnew, nil_append, mem_flatMap]
          exact ⟨b, hb, mem_map_of_mem hI⟩
      next => cases h
    | false =>
      rw [flattenFields] at h
      split at h
      next first last hfirst hlast =>
        obtain ⟨hstart, hstop⟩ := hv.enclosed hfirst hlast
        exact ih h ⟨_, mem_map_of_mem hb, hbounds.append hstart hstop⟩
      next => cases h

/-- A key whose fields lie in the bounds lies in one of the flattened ranges. -/
theorem flattenBounds_covers {ranges : List (List ν × List ν)} (hk : List.Forall₂ Within fields k)
    (h : flattenBounds fields = some ranges) : ∃ r ∈ ranges, r.1 ≤ k ∧ k ≤ r.2 := by
  have hne : (fields.any fun intervals => decide (intervals.length = 0)) = false := by
    rw [any_eq_false]
    intro intervals hmem
    obtain ⟨i, hi, rfl⟩ := getElem_of_mem hmem
    have hwithin := (forall₂_iff_get.mp hk).2 i hi (hk.length_eq ▸ hi)
    obtain ⟨-, I, hI, -⟩ := hwithin
    simpa using ne_nil_of_mem hI
  rw [flattenBounds, hne] at h
  obtain ⟨b, hb, hlo, hhi⟩ := flattenFields_bounds hk h ⟨([], []), by simp, .nil, .nil⟩
  exact ⟨b, hb, le_of_forall₂ hlo, le_of_forall₂ hhi⟩

end Flattened

section Coalesced
variable {ranges : SortedMap (List ν) (ChunkRange ν)} {cr : ChunkRange ν}
  {rest : List (Chunk (List ν))} {c : Chunk (List ν)}

/-- The chunks follow each other from this key on. -/
inductive Chain : List ν → List (Chunk (List ν)) → Prop where
  | nil (k : List ν) : Chain k []
  | cons {chunk : Chunk (List ν)} {rest : List (Chunk (List ν))} (nonempty : chunk.min < chunk.max)
      (next : Chain chunk.max rest) : Chain chunk.min (chunk :: rest)

/-- The map keeps its entries, and the new ones are not below the current range. -/
theorem insertRange_entries (hchain : Chain cr.max rest) (hbelow : ∀ e ∈ ranges.entries, e.1 < cr.max) :
    (∀ e ∈ ranges.entries, e ∈ (insertRange ranges cr rest).entries) ∧
      ∀ e ∈ (insertRange ranges cr rest).entries, e ∈ ranges.entries ∨ cr.max ≤ e.1 := by
  induction rest generalizing ranges cr with
  | nil =>
    constructor
    · intro e he
      exact mem_put.mpr (.inr ⟨(hbelow e he).ne, he⟩)
    · intro e he
      rcases mem_put.mp he with rfl | ⟨-, he⟩
      · exact .inr le_rfl
      · exact .inl he
  | cons chunk rest ih =>
    obtain ⟨crMax, max, shard, version⟩ := chunk
    obtain ⟨shardId, crMin, last⟩ := cr
    cases hchain with
    | cons hlt hnext =>
    have hlt : crMax < max := hlt
    rw [insertRange]
    split
    next =>
      obtain ⟨hold, hnew⟩ := @ih ranges ⟨shardId, crMin, max⟩ hnext fun e he =>
        (hbelow e he).trans hlt
      exact ⟨hold, fun e he => (hnew e he).imp_right hlt.le.trans⟩
    next =>
      have hbelow' : ∀ e ∈ (ranges.put crMax ⟨shardId, crMin, crMax⟩).entries, e.1 < max := by
        intro e he
        rcases mem_put.mp he with rfl | ⟨-, he⟩
        · exact hlt
        · exact (hbelow e he).trans hlt
      obtain ⟨hold, hnew⟩ := @ih _ ⟨shard, crMax, max⟩ hnext hbelow'
      constructor
      · intro e he
        exact hold e (mem_put.mpr (.inr ⟨(hbelow e he).ne, he⟩))
      · intro e he
        rcases hnew e he with he | hle
        · rcases mem_put.mp he with rfl | ⟨-, he⟩
          · exact .inr le_rfl
          · exact .inl he
        · exact .inr (hlt.le.trans hle)

/-- A range of the chunk's shard ends no earlier than the chunk, and all ranges before it end no
later than the chunk starts. -/
def Holds (ranges : SortedMap (List ν) (ChunkRange ν)) (c : Chunk (List ν)) : Prop :=
  ∃ e ∈ ranges.entries, e.2.shardId = c.shard ∧ c.max ≤ e.1 ∧
    ∀ e' ∈ ranges.entries, e'.1 < e.1 → e'.1 ≤ c.min

/-- Each chunk of the current range and each of those that follow is held. -/
theorem insertRange_holds (hchain : Chain cr.max rest)
    (hbelow : ∀ e ∈ ranges.entries, e.1 ≤ cr.min) (hcr : cr.min ≤ cr.max)
    (hc : c ∈ rest ∨ c.shard = cr.shardId ∧ cr.min ≤ c.min ∧ c.max ≤ cr.max) :
    Holds (insertRange ranges cr rest) c := by
  induction rest generalizing ranges cr with
  | nil =>
    rcases hc with hc | ⟨hshard, hmin, hmax⟩
    · cases hc
    · refine ⟨(cr.max, cr), mem_put.mpr (.inl rfl), hshard.symm, hmax, ?_⟩
      intro e he hlt
      rcases mem_put.mp he with rfl | ⟨-, he⟩
      · exact absurd hlt (lt_irrefl _)
      · exact (hbelow e he).trans hmin
  | cons chunk rest ih =>
    obtain ⟨crMax, max, shard, version⟩ := chunk
    obtain ⟨shardId, crMin, last⟩ := cr
    cases hchain with
    | cons hlt hnext =>
    have hlt : crMax < max := hlt
    have hcr : crMin ≤ crMax := hcr
    rw [insertRange]
    split
    next hsame =>
      -- the chunk extends the current range
      refine @ih ranges ⟨shardId, crMin, max⟩ hnext hbelow (hcr.trans hlt.le) ?_
      rcases hc with hc | ⟨hshard, hmin, hmax⟩
      · rcases mem_cons.mp hc with rfl | hc
        · exact .inr ⟨hsame, hcr, le_rfl⟩
        · exact .inl hc
      · exact .inr ⟨hshard, hmin, le_trans hmax hlt.le⟩
    next =>
      have hbelow' : ∀ e ∈ (ranges.put crMax ⟨shardId, crMin, crMax⟩).entries, e.1 ≤ crMax := by
        intro e he
        rcases mem_put.mp he with rfl | ⟨-, he⟩
        · exact le_rfl
        · exact (hbelow e he).trans hcr
      rcases hc with hc | ⟨hshard, hmin, hmax⟩
      · refine @ih _ ⟨shard, crMax, max⟩ hnext hbelow' hlt.le ?_
        rcases mem_cons.mp hc with rfl | hc
        · exact .inr ⟨rfl, le_rfl, le_rfl⟩
        · exact .inl hc
      · -- the current range is finished
        obtain ⟨hold, hnew⟩ := @insertRange_entries _ _ (ranges.put crMax ⟨shardId, crMin, crMax⟩)
          ⟨shard, crMax, max⟩ rest hnext fun e he => (hbelow' e he).trans_lt hlt
        refine ⟨(crMax, ⟨shardId, crMin, crMax⟩), hold _ (mem_put.mpr (.inl rfl)),
          hshard.symm, hmax, ?_⟩
        intro e he hbefore
        rcases hnew e he with he | hle
        · rcases mem_put.mp he with rfl | ⟨-, he⟩
          · exact absurd hbefore (lt_irrefl _)
          · exact (hbelow e he).trans hmin
        · exact absurd (hlt.trans_le hle) (lt_asymm hbefore)

theorem shardId_of_mem_insertRange {e : List ν × ChunkRange ν}
    (h : e ∈ (insertRange ranges cr rest).entries) :
    e ∈ ranges.entries ∨ e.2.shardId = cr.shardId ∨ ∃ c ∈ rest, c.shard = e.2.shardId := by
  induction rest generalizing ranges cr with
  | nil =>
    rcases mem_put.mp h with rfl | ⟨-, he⟩
    · exact .inr (.inl rfl)
    · exact .inl he
  | cons chunk rest ih =>
    rw [insertRange] at h
    split at h
    · refine (ih h).imp_right fun hshard => hshard.imp_right ?_
      rintro ⟨c, hc, hshard⟩
      exact ⟨c, mem_cons_of_mem _ hc, hshard⟩
    · rcases ih h with he | hshard | ⟨c, hc, hshard⟩
      · rcases mem_put.mp he with rfl | ⟨-, he⟩
        · exact .inr (.inl rfl)
        · exact .inl he
      · exact .inr (.inr ⟨chunk, mem_cons_self, hshard.symm⟩)
      · exact .inr (.inr ⟨c, mem_cons_of_mem _ hc, hshard⟩)

/-- The chunks of a valid map follow each other. -/
theorem chain_of_adjacent {first : Chunk (List ν)}
    (hsorted : (first :: rest).Pairwise fun a b => a.max < b.max) (h : adjacent (first :: rest) = true) :
    Chain first.max rest := by
  induction rest generalizing first with
  | nil => exact .nil _
  | cons chunk rest ih =>
    rw [adjacent, Bool.and_eq_true, decide_eq_true_eq] at h
    obtain ⟨hfirst, htail⟩ := pairwise_cons.mp hsorted
    rw [← h.1]
    exact .cons (h.1 ▸ hfirst chunk mem_cons_self) (ih htail h.2)

theorem ChunkMap.sorted_chunks (m : ChunkMap ν) : m.chunks.Pairwise fun a b => a.max < b.max := by
  rw [ChunkMap.chunks, pairwise_map]
  refine List.Pairwise.imp_of_mem ?_ m.map.sorted
  intro a b ha hb hlt
  rwa [m.byMax a ha, m.byMax b hb] at hlt

end Coalesced

/-! The shards that are reached. -/

section
variable {α : Type} {p : α → Bool} {l l' : List α} {a : α}

theorem length_takeWhile_le (h : p a = false) : ((l ++ a :: l').takeWhile p).length ≤ l.length := by
  rw [takeWhile_append]
  split
  · simp [h]
  · exact ( takeWhile_prefix p).length_le

theorem le_length_takeWhile (h : ∀ b ∈ l, p b = true) : l.length ≤ ((l ++ l').takeWhile p).length := by
  rw [takeWhile_append_of_pos h, length_append]
  exact Nat.le_add_right ..

end

section Reached
variable {ranges : SortedMap (List ν) (ChunkRange ν)} {m : ChunkMap ν} {shards : Finset ShardId}
  {shardIds shardIds' : Finset ShardId} {k min max : List ν} {c : Chunk (List ν)}

/-- The bounds of all chunks are shard keys of `n` fields. -/
def ChunkMap.HasFields (m : ChunkMap ν) (n : Nat) : Prop :=
  ∀ c ∈ m.chunks, c.min.length = n ∧ c.max.length = n

section Bounded
variable [BoundedOrder ν] {first : Chunk (List ν)} {rest : List (Chunk (List ν))} {n : Nat}

theorem bot_le_key {a b : List ν} (ha : ∀ v ∈ a, v = ⊥) (hlen : a.length = b.length) : a ≤ b := by
  apply le_of_forall₂
  rw [forall₂_iff_get]
  refine ⟨hlen, fun i hi _ => ?_⟩
  rw [ha _ (get_mem a ⟨i, hi⟩)]
  exact bot_le

theorem isChunkMapValid_cons (hchunks : m.chunks = first :: rest) (h : isChunkMapValid m = true) :
    (∀ v ∈ first.min, v = ⊥) ∧ (∀ v ∈ ((first :: rest).getLast (List.cons_ne_nil _ _)).max, v = ⊤) ∧
      Chain first.max rest := by
  have hsorted := m.sorted_chunks
  rw [isChunkMapValid, hchunks] at h
  rw [hchunks] at hsorted
  rw [head?_cons, getLast?_eq_some_getLast (cons_ne_nil first rest)] at h
  simp only [Bool.and_eq_true, all_eq_true] at h
  obtain ⟨⟨hmin, hmax⟩, hadjacent⟩ := h
  exact ⟨fun v hv => of_decide_eq_true (hmin v hv), fun v hv => of_decide_eq_true (hmax v hv),
    chain_of_adjacent hsorted hadjacent⟩

theorem reloadAll_holds (hvalid : isChunkMapValid m = true) (hfields : m.HasFields n)
    (hc : c ∈ m.chunks) : Holds (reloadAll m) c := by
  rw [reloadAll]
  cases hchunks : m.chunks with
  | nil =>
    rw [hchunks] at hc
    cases hc
  | cons first rest =>
    obtain ⟨hmin, -, hchain⟩ := isChunkMapValid_cons hchunks hvalid
    obtain ⟨hlen, hlen'⟩ := hfields first (by simp [hchunks])
    rw [hchunks] at hc
    refine insertRange_holds hchain nofun (bot_le_key hmin (hlen.trans hlen'.symm)) ?_
    rcases mem_cons.mp hc with rfl | hc
    · exact .inr ⟨rfl, le_rfl, le_rfl⟩
    · exact .inl hc

omit [BoundedOrder ν] in
/-- Chunks that follow each other own all keys between their ends. -/
theorem exists_owner_of_chain (hchain : Chain first.max rest) (hk : first.min ≤ k)
    (hlast : k < ((first :: rest).getLast (List.cons_ne_nil _ _)).max) :
    ∃ c ∈ first :: rest, c.min ≤ k ∧ k < c.max := by
  induction rest generalizing first with
  | nil => exact ⟨first, mem_cons_self, hk, hlast⟩
  | cons chunk rest ih =>
    rcases lt_or_ge k first.max with hlt | hge
    · exact ⟨first, mem_cons_self, hk, hlt⟩
    · rw [getLast_cons (cons_ne_nil chunk rest)] at hlast
      have hnext : chunk.min = first.max ∧ Chain chunk.max rest := by
        generalize first.max = start at hchain
        cases hchain with
        | cons _ hnext => exact ⟨rfl, hnext⟩
      obtain ⟨c, hc, howns⟩ := ih hnext.2 (hnext.1.le.trans hge) hlast
      exact ⟨c, mem_cons_of_mem _ hc, howns⟩

theorem exists_owner (hne : m.chunks ≠ []) (hvalid : isChunkMapValid m = true)
    (hfields : m.HasFields n) (hlen : k.length = n) (hk : k < List.replicate n ⊤) :
    ∃ c ∈ m.chunks, c.min ≤ k ∧ k < c.max := by
  cases hchunks : m.chunks with
  | nil => exact absurd hchunks hne
  | cons first rest =>
    obtain ⟨hmin, hmax, hchain⟩ := isChunkMapValid_cons hchunks hvalid
    obtain ⟨hminlen, -⟩ := hfields first (by simp [hchunks])
    refine exists_owner_of_chain hchain (bot_le_key hmin (hminlen.trans hlen.symm)) ?_
    have hmem : (first :: rest).getLast (cons_ne_nil _ _) ∈ m.chunks := by
      rw [hchunks]
      exact getLast_mem _
    rw [eq_replicate_of_mem hmax, (hfields _ hmem).2]
    exact hk

end Bounded

theorem shardId_of_mem_reloadAll {e : List ν × ChunkRange ν} (h : e ∈ (reloadAll m).entries) :
    e.2.shardId ∈ m.shardIds := by
  rw [ChunkMap.shardIds, mem_toFinset, mem_map]
  rw [reloadAll] at h
  generalize m.chunks = chunks at h
  cases chunks with
  | nil => cases h
  | cons first rest =>
    rcases shardId_of_mem_insertRange h with he | hshard | ⟨c, hc, hshard⟩
    · cases he
    · exact ⟨first, mem_cons_self, hshard.symm⟩
    · exact ⟨c, mem_cons_of_mem _ hc, hshard⟩

omit [LinearOrder ν] in
/-- The set grows within the shards until it has met all ranges or has all shards. -/
theorem collectShards_spec {l : List (ChunkRange ν)} (hl : ∀ r ∈ l, r.shardId ∈ shards)
    (hs : shardIds ⊆ shards) : shardIds ⊆ collectShards shards.card l shardIds ∧
      collectShards shards.card l shardIds ⊆ shards ∧
      ∀ r ∈ l, r.shardId ∈ collectShards shards.card l shardIds := by
  induction l generalizing shardIds with
  | nil => exact ⟨Finset.Subset.refl _, hs, nofun⟩
  | cons range l ih =>
    have hinsert : insert range.shardId shardIds ⊆ shards :=
      Finset.insert_subset (hl range mem_cons_self) hs
    rw [collectShards]
    split
    next hcard =>
      have hall : insert range.shardId shardIds = shards := Finset.eq_of_subset_of_card_le hinsert hcard.ge
      exact ⟨Finset.subset_insert _ _, hinsert, fun r hr => hall ▸ hl r hr⟩
    next =>
      obtain ⟨hsub, hin, hmem⟩ := ih (forall_mem_cons.mp hl).2 hinsert
      refine ⟨(Finset.subset_insert _ _).trans hsub, hin, ?_⟩
      intro r hr
      rcases mem_cons.mp hr with rfl | hr
      · exact hsub (Finset.mem_insert_self _ _)
      · exact hmem r hr

/-- The ranges of the loop hold every chunk with a key between the two bounds. -/
theorem getShardIdsForRange_spec (hranges : ∀ e ∈ ranges.entries, e.2.shardId ∈ shards)
    (hs : shardIds ⊆ shards)
    (h : getShardIdsForRange ranges shards.card shardIds min max = some shardIds') :
    shardIds ⊆ shardIds' ∧ shardIds' ⊆ shards ∧
      ∀ c k, Holds ranges c → c.min ≤ k → k < c.max → min ≤ k → k ≤ max → c.shard ∈ shardIds' := by
  rw [getShardIdsForRange] at h
  split at h
  · cases h
  next hfound =>
    cases h
    generalize hit : (ranges.entries.takeWhile fun e => decide (e.1 ≤ min)).length = it at hfound ⊢
    generalize hstop : (ranges.entries.takeWhile fun e => decide (e.1 ≤ max)).length = stop
    obtain ⟨hsub, hin, hmem⟩ := @collectShards_spec _ shards shardIds
      (((ranges.entries.drop it).take ((if stop ≠ ranges.entries.length then stop + 1 else stop) - it)).map
        Prod.snd) (by
        intro r hr
        obtain ⟨e, he, rfl⟩ := mem_map.mp hr
        exact hranges e (mem_of_mem_drop (mem_of_mem_take he))) hs
    refine ⟨hsub, hin, ?_⟩
    rintro c k ⟨e, he, hshard, hmax, hbefore⟩ hck hkc hmink hkmax
    rw [← hshard]
    apply hmem
    apply mem_map_of_mem
    -- the ranges before this one end before `max`, and it ends after `min`
    obtain ⟨before, after, hsplit⟩ := append_of_mem he
    have hsorted := ranges.sorted
    rw [hsplit] at hsorted
    have hearlier : ∀ e' ∈ before, e'.1 ≤ max := by
      intro e' he'
      have hlt := (pairwise_append.mp hsorted).2.2 e' he' e mem_cons_self
      exact (hbefore e' (by simp [hsplit, he']) hlt).trans (hck.trans hkmax)
    have hitle : it ≤ before.length := by
      have hnot : ¬ e.1 ≤ min := not_le.mpr (hmink.trans_lt (hkc.trans_le hmax))
      rw [← hit, hsplit]
      exact length_takeWhile_le (by simpa using hnot)
    have hstople : before.length ≤ stop := by
      rw [← hstop, hsplit]
      exact le_length_takeWhile fun e' he' => decide_eq_true (hearlier e' he')
    have hlen : before.length < ranges.entries.length := by
      rw [hsplit, length_append, length_cons]
      omega
    have hget : ranges.entries[before.length]? = some e := by
      rw [hsplit, getElem?_append_right le_rfl, Nat.sub_self]
      rfl
    apply mem_of_getElem?
    rw [getElem?_take_of_lt, getElem?_drop, Nat.add_sub_cancel' hitle, hget]
    split
    · omega
    · omega

/-- The loop over the flattened ranges. -/
theorem getShardIdsForRanges_spec {l : List (List ν × List ν)}
    (hranges : ∀ e ∈ ranges.entries, e.2.shardId ∈ shards) (hs : shardIds ⊆ shards)
    (h : getShardIdsForRanges ranges shards.card l shardIds = some shardIds') :
    shardIds ⊆ shardIds' ∧ shardIds' ⊆ shards ∧
      ∀ c k r, Holds ranges c → c.min ≤ k → k < c.max → r ∈ l → r.1 ≤ k → k ≤ r.2 →
        c.shard ∈ shards → c.shard ∈ shardIds' := by
  induction l generalizing shardIds with
  | nil =>
    cases h
    exact ⟨Finset.Subset.refl _, hs, nofun⟩
  | cons range l ih =>
    rw [getShardIdsForRanges] at h
    obtain ⟨found, hfound, h⟩ := Option.bind_eq_some_iff.mp h
    obtain ⟨hsub, hin, hmem⟩ := getShardIdsForRange_spec hranges hs hfound
    split at h
    next hcard =>
      obtain rfl : found = shardIds' := Option.some.inj h
      have hall : found = shards := Finset.eq_of_subset_of_card_le hin hcard.ge
      refine ⟨hsub, hin, ?_⟩
      intro c k r _ _ _ _ _ _ hshard
      rwa [hall]
    next =>
      obtain ⟨hsub', hin', hmem'⟩ := ih hin h
      refine ⟨hsub.trans hsub', hin', ?_⟩
      intro c k r hc hck hkc hr hlo hhi hshard
      rcases mem_cons.mp hr with rfl | hr
      · exact hsub' (hmem c k hc hck hkc hlo hhi)
      · exact hmem' c k r hc hck hkc hr hlo hhi hshard

end Reached

/-- A shard key below the highest one, whose fields lie in the bounds, has an owner, and the owner is
among the shards that the query is sent to. -/
theorem targets_owner [BoundedOrder ν] {m : ChunkMap ν} {n : Nat} {fields : List (List (Intervals.Interval ν))}
    {shardIds shardIds' : Finset ShardId} (hne : m.chunks ≠ []) (hvalid : isChunkMapValid m = true)
    (hfields : m.HasFields n) (hstart : shardIds ⊆ m.shardIds) (hn : fields.length = n)
    (hordered : ∀ intervals ∈ fields, intervals ≠ [] ∧ Ordered id intervals)
    (h : getShardIdsForBounds m fields shardIds = some shardIds') {k : List ν}
    (hk : List.Forall₂ (fun intervals v => Covers id intervals v) fields k)
    (hmax : k < List.replicate n ⊤) :
    (∃ c ∈ m.chunks, c.min ≤ k ∧ k < c.max) ∧
      ∀ c ∈ m.chunks, c.min ≤ k → k < c.max → c.shard ∈ shardIds' := by
  refine ⟨exists_owner hne hvalid hfields (hk.length_eq.symm.trans hn) hmax, ?_⟩
  intro c hc hck hkc
  obtain ⟨ranges, hranges, h⟩ := Option.bind_eq_some_iff.mp h
  have hwithin : List.Forall₂ Within fields k := by
    rw [forall₂_iff_get] at hk ⊢
    refine ⟨hk.1, fun i hi hi' => ⟨?_, hk.2 i hi hi'⟩⟩
    exact (hordered _ (get_mem fields ⟨i, hi⟩)).2
  obtain ⟨r, hr, hlo, hhi⟩ := flattenBounds_covers hwithin hranges
  obtain ⟨-, -, hreached⟩ := getShardIdsForRanges_spec (fun e he => shardId_of_mem_reloadAll he) hstart h
  refine hreached c k r (reloadAll_holds hvalid hfields hc) hck hkc hr hlo hhi ?_
  rw [ChunkMap.shardIds, mem_toFinset]
  exact mem_map_of_mem hc

/-- Two shards, with the keys from 0 to 5 and from 5 to 9. -/
def twoShards : ChunkMap (Fin 10) where
  map := ⟨[([5], ⟨[0], [5], "A", ⟨1, 0, ⟨List.replicate 12 1, epoch_size⟩⟩⟩),
    ([9], ⟨[5], [9], "B", ⟨1, 1, ⟨List.replicate 12 1, epoch_size⟩⟩⟩)], by decide⟩
  byMax := by decide

theorem targets_owner_twoShards : ∃ shardIds,
    getShardIdsForBounds twoShards [[⟨3, true, 6, true⟩]] ∅ = some shardIds ∧ "B" ∈ shardIds := by
  refine ⟨_, rfl, ?_⟩
  refine (@targets_owner (Fin 10) _ _ twoShards 1 [[⟨3, true, 6, true⟩]] ∅ _ (by decide) (by decide)
    ?_ (by simp) rfl ?_ rfl [6] ?_ (by decide)).2 ⟨[5], [9], "B", ⟨1, 1, ⟨replicate 12 1, rfl⟩⟩⟩
    (by decide) (by decide) (by decide)
  · rw [ChunkMap.HasFields]
    decide
  · rintro intervals (_ | _)
    · exact ⟨by simp, by simp [Interval.Runs], by simp⟩
    · contradiction
  · exact .cons ⟨_, mem_singleton_self _, .inl (by decide), .inr ⟨rfl, rfl⟩⟩ .nil

end MongolDb.Sharding
