import MongolDb.Lib.Outcome
import MongolDb.Query.PlanAgreement

/-! Copying the index assignments of a cached plan onto another query
(`QueryPlanner::cacheDataFromTaggedTree`, `tagAccordingToCache`, `planFromCache`). -/
namespace MongolDb.Query
open ByteOrder Bson Matcher Branching PlanCacheIndexabilityState PlanCache List

/-- The number of the index that a predicate uses, and the position of its field there. -/
structure IndexTag where
  index : Nat
  pos : Nat
  deriving DecidableEq

/-- A query whose predicates carry their assignments. -/
inductive TaggedTree where
  | node (tag : Option IndexTag) (children : List TaggedTree)

namespace TaggedTree

def tag : TaggedTree → Option IndexTag
  | .node tag _ => tag

def children : TaggedTree → List TaggedTree
  | .node _ children => children

end TaggedTree

/-- What the cache keeps: the assigned indexes themselves, in the shape of the query. -/
inductive PlanCacheIndexTree where
  | node (entry : Option (IndexEntry × Nat)) (children : List PlanCacheIndexTree)

namespace PlanCacheIndexTree

def entry : PlanCacheIndexTree → Option (IndexEntry × Nat)
  | .node entry _ => entry

def children : PlanCacheIndexTree → List PlanCacheIndexTree
  | .node _ children => children

end PlanCacheIndexTree

inductive CacheError where
  /-- Index number is .. but there are only .. relevant indices. -/
  | indexNumber (index relevant : Nat)
  /-- Cache topology and query did not match: query has .. children and cache has .. children. -/
  | topology (query cache : Nat)
  /-- Did not find index with keyPattern: .. -/
  | indexNotFound (keyPattern : Obj)

def cachedEntry (relevantIndices : List IndexEntry) :
    Option IndexTag → Except CacheError (Option (IndexEntry × Nat))
  | none => .ok none
  | some itag =>
    match relevantIndices[itag.index]? with
    | none => .error (.indexNumber itag.index relevantIndices.length)
    | some ientry => .ok (some (ientry, itag.pos))

def cacheDataFromTaggedTree (relevantIndices : List IndexEntry) :
    TaggedTree → Except CacheError PlanCacheIndexTree
  | .node tag children =>
    cachedEntry relevantIndices tag >>= fun entry =>
      (children.attach.mapM fun c => cacheDataFromTaggedTree relevantIndices c.1) >>=
        fun children => .ok (.node entry children)
termination_by tree => sizeOf tree
decreasing_by
  have := List.sizeOf_lt_of_mem c.2
  simp
  omega

variable (indices : List IndexEntry)

/-- The number of the last index with this key pattern. -/
def indexMap (keyPattern : Obj) : Option Nat :=
  ((indices.zipIdx.filter fun ie =>
    woCompare compareAsDates ie.1.keyPattern keyPattern = .eq).getLast?).map Prod.snd

def copiedTag :
    Option (IndexEntry × Nat) → Except CacheError (Option IndexTag)
  | none => .ok none
  | some (entry, pos) =>
    match indexMap indices entry.keyPattern with
    | none => .error (.indexNotFound entry.keyPattern)
    | some got => .ok (some ⟨got, pos⟩)

def tagAccordingToCache (indices : List IndexEntry) (filter : MatchExpression) :
    PlanCacheIndexTree → Except CacheError TaggedTree
  | .node entry cached =>
    if filter.children.length ≠ cached.length then
      .error (.topology filter.children.length cached.length)
    else
      ((filter.children.attach.zip cached).mapM fun c =>
        tagAccordingToCache indices c.1.1 c.2) >>= fun children =>
          copiedTag indices entry >>= fun tag => .ok (.node tag children)
termination_by sizeOf filter
decreasing_by exact MatchExpression.sizeOf_lt_of_mem_children c.1.2

/-- The assignments from which `QueryPlanner::planFromCache` builds the plan; it stops the server
on a query that should not have been cached. -/
def planFromCache (query : CanonicalQuery)
    (cached : PlanCacheIndexTree) : Option (Except CacheError TaggedTree) :=
  if shouldCacheQuery query then some (tagAccordingToCache indices query.root cached) else none

/-- The indexes of a collection. No two of them have the same key pattern. -/
structure IndexCatalog where
  indices : List IndexEntry
  distinct : indices.Pairwise fun a b =>
    woCompare compareAsDates a.keyPattern b.keyPattern ≠ .eq

/-! What planning afresh allows. -/

/-- Each assignment is to an index that the rated tree offers at this place. `numbering` says which
index a tag's number means. -/
def Allowed (numbering relevantIndices : List IndexEntry) : RatedTree → TaggedTree → Prop :=
  Rel RatedTree.children TaggedTree.children fun rated tagged =>
    ∀ tag ∈ tagged.tag, ∃ rt ∈ rated.tag, ∃ i ∈ rt.first ++ rt.notFirst, ∃ entry,
      relevantIndices[i]? = some entry ∧ numbering[tag.index]? = some entry

/-- The tagged tree has the shape of the query. -/
def TagsOf : MatchExpression → TaggedTree → Prop :=
  Rel MatchExpression.children TaggedTree.children fun _ _ => True

/-- Two queries that the planner treats alike, so far as indexes go. -/
structure PlannedAlike (strip : List IndexEntry → RatedTree → Option RatedTree)
    (indices : List IndexEntry) (q₁ q₂ : CanonicalQuery) : Prop where
  shape : Rel MatchExpression.children MatchExpression.children
    (fun a b => a.matchType = b.matchType ∧ a.path = b.path) q₁.root q₂.root
  compatible : Rel Placed.children Placed.children (CompatibleAlike indices)
    (.root q₁.root) (.root q₂.root)
  partialIndexes : ∀ index ∈ indices, ∀ filter, index.filterExpr = some filter →
    isSubsetOf q₁.root filter = isSubsetOf q₂.root filter
  /-- Assignments allowed for the first query become assignments allowed for the second. -/
  tags : ∀ relevant rated tagged cached, ratedTree strip indices q₁.root = (relevant, some rated) →
    TagsOf q₁.root tagged → Allowed relevant relevant rated tagged →
    cacheDataFromTaggedTree relevant tagged = .ok cached →
    ∃ relevant' rated' tagged', ratedTree strip indices q₂.root = (relevant', some rated') ∧
      planFromCache indices q₂ cached = some (.ok tagged') ∧
      TagsOf q₂.root tagged' ∧ Allowed indices relevant' rated' tagged'

section Tags
variable {indices relevant : List IndexEntry}

/-- The tags mean the cached indexes, in this numbering. -/
def Copies (numbering : List IndexEntry) : PlanCacheIndexTree → TaggedTree → Prop :=
  Rel PlanCacheIndexTree.children TaggedTree.children fun cached tagged =>
    Option.Rel (fun e tag => numbering[tag.index]? = some e.1 ∧ tag.pos = e.2)
      cached.entry tagged.tag

theorem cacheData_unfold (tag : Option IndexTag) (children : List TaggedTree) :
    cacheDataFromTaggedTree relevant (.node tag children) =
      cachedEntry relevant tag >>= fun entry =>
        children.mapM (cacheDataFromTaggedTree relevant) >>= fun children =>
          .ok (.node entry children) := by
  rw [cacheDataFromTaggedTree]
  congr 1
  funext entry
  congr 1
  conv_rhs => rw [← attach_map_subtype_val children, mapM_map]
  rfl

theorem cachedEntry_eq_ok {tag : Option IndexTag} {entry : Option (IndexEntry × Nat)}
    (h : cachedEntry relevant tag = .ok entry) :
    Option.Rel (fun e tag => relevant[tag.index]? = some e.1 ∧ tag.pos = e.2) entry tag := by
  cases tag with
  | none =>
    cases h
    exact .none
  | some itag =>
    rw [cachedEntry] at h
    split at h
    · cases h
    next ientry hentry =>
      cases h
      exact .some ⟨hentry, rfl⟩

variable {catalog : IndexCatalog} {cached : PlanCacheIndexTree}

theorem copies_of_cacheData {tagged : TaggedTree}
    (h : cacheDataFromTaggedTree relevant tagged = .ok cached) : Copies relevant cached tagged := by
  induction hn : sizeOf tagged using Nat.strongRecOn generalizing tagged cached with
  | ind n ih =>
    subst hn
    obtain ⟨tag, children⟩ := tagged
    rw [cacheData_unfold, Outcome.bind_eq_ok] at h
    obtain ⟨entry, hentry, h⟩ := h
    obtain ⟨entries, hentries, h⟩ := Outcome.bind_eq_ok.mp h
    cases h
    refine .node (cachedEntry_eq_ok hentry) ?_
    have hsize : ∀ c ∈ children, sizeOf c < sizeOf (TaggedTree.node tag children) := by
      intro c hc
      have := sizeOf_lt_of_mem hc
      simp
      omega
    have hchildren := (forall₂_and_left _ _).mpr ⟨hsize, Outcome.forall₂_of_mapM_ok hentries⟩
    exact (hchildren.imp fun c e h => ih _ h.1 h.2 rfl).flip

theorem eq_of_keyPattern {a b : IndexEntry} (ha : a ∈ catalog.indices)
    (hb : b ∈ catalog.indices) (h : woCompare compareAsDates a.keyPattern b.keyPattern = .eq) :
    a = b := by
  have hsymm : Std.Symm fun a b : IndexEntry =>
      woCompare compareAsDates a.keyPattern b.keyPattern ≠ .eq := by
    refine ⟨fun a b hab hba => hab ?_⟩
    rw [← woCompare_swap, hba]
    rfl
  by_contra hne
  exact catalog.distinct.forall ha hb hne h

theorem woCompare_self (o : Obj) : woCompare compareAsDates o o = .eq := by
  have h := woCompare_swap o o
  cases ho : woCompare compareAsDates o o <;> simp_all

/-- An index of the collection is found again by its key pattern. -/
theorem indexMap_of_mem {entry : IndexEntry} (h : entry ∈ catalog.indices) :
    ∃ got, indexMap catalog.indices entry.keyPattern = some got ∧
      catalog.indices[got]? = some entry := by
  obtain ⟨i, hi⟩ := mem_iff_getElem?.mp h
  have hmem : (entry, i) ∈ catalog.indices.zipIdx.filter fun ie =>
      woCompare compareAsDates ie.1.keyPattern entry.keyPattern = .eq := by
    refine mem_filter.mpr ⟨mem_zipIdx_iff_getElem?.mpr hi, ?_⟩
    simp [woCompare_self]
  obtain ⟨last, hlast⟩ := getLast?_isSome.mpr (ne_nil_of_mem hmem) |> Option.isSome_iff_exists.mp
  have hlastmem := mem_filter.mp (mem_of_getLast? hlast)
  have hgot := mem_zipIdx_iff_getElem?.mp hlastmem.1
  refine ⟨last.2, by rw [indexMap, hlast]; rfl, ?_⟩
  rw [hgot, eq_of_keyPattern (mem_of_getElem? hgot) h (by simpa using hlastmem.2)]

theorem copiedTag_of_mem {entry : Option (IndexEntry × Nat)}
    (h : ∀ e ∈ entry, e.1 ∈ catalog.indices) : ∃ tag, copiedTag catalog.indices entry = .ok tag ∧
      Option.Rel (fun e tag => catalog.indices[tag.index]? = some e.1 ∧ tag.pos = e.2) entry tag := by
  cases entry with
  | none => exact ⟨none, rfl, .none⟩
  | some e =>
    obtain ⟨got, hgot, hentry⟩ := indexMap_of_mem (h e rfl)
    refine ⟨some ⟨got, e.2⟩, ?_, .some ⟨hentry, rfl⟩⟩
    rw [copiedTag, hgot]

theorem tagAccordingToCache_unfold (filter : MatchExpression)
    (entry : Option (IndexEntry × Nat)) (cached : List PlanCacheIndexTree) :
    tagAccordingToCache indices filter (.node entry cached) =
      if filter.children.length ≠ cached.length then
        .error (.topology filter.children.length cached.length)
      else
        ((filter.children.zip cached).mapM fun c => tagAccordingToCache indices c.1 c.2) >>=
          fun children => copiedTag indices entry >>= fun tag => .ok (.node tag children) := by
  rw [tagAccordingToCache]
  congr 2
  conv_rhs => rw [← attach_map_subtype_val filter.children, zip_map_left, mapM_map]
  rfl

/-- A loop over two lists each of whose steps has a result. -/
theorem mapM_zip_ok {α β γ ε : Type} {f : α → β → Except ε γ} {Q : α → γ → Prop}
    {S : β → γ → Prop} {as : List α} {bs : List β}
    (h : List.Forall₂ (fun a b => ∃ c, f a b = .ok c ∧ Q a c ∧ S b c) as bs) :
    ∃ cs, ((as.zip bs).mapM fun x => f x.1 x.2) = .ok cs ∧ List.Forall₂ Q as cs ∧
      List.Forall₂ S bs cs := by
  induction h with
  | nil => exact ⟨[], rfl, .nil, .nil⟩
  | cons hhead _ ih =>
    obtain ⟨c, hc, hQ, hS⟩ := hhead
    obtain ⟨cs, hcs, hQs, hSs⟩ := ih
    refine ⟨c :: cs, ?_, .cons hQ hQs, .cons hS hSs⟩
    rw [zip_cons_cons, mapM_cons, hc, hcs]
    rfl

theorem tagAccordingToCache_ok {filter : MatchExpression}
    (h : Rel MatchExpression.children PlanCacheIndexTree.children
      (fun _ cached => ∀ e ∈ cached.entry, e.1 ∈ catalog.indices) filter cached) :
    ∃ tagged, tagAccordingToCache catalog.indices filter cached = .ok tagged ∧
      TagsOf filter tagged ∧ Copies catalog.indices cached tagged := by
  apply h.ind
  rintro filter ⟨entry, cached⟩ hrel ih
  obtain ⟨children, hchildren, htags, hcopies⟩ := mapM_zip_ok ih
  obtain ⟨tag, htag, hentry⟩ := copiedTag_of_mem hrel.here
  refine ⟨.node tag children, ?_, .node trivial htags, .node hentry hcopies⟩
  have hlength : filter.children.length = cached.length := hrel.length_eq
  rw [tagAccordingToCache_unfold, if_neg (not_not.mpr hlength)]
  exact Outcome.bind_eq_ok.mpr ⟨children, hchildren,
    Outcome.bind_eq_ok.mpr ⟨tag, htag, rfl⟩⟩

theorem mem_of_copied {entry : Option (IndexEntry × Nat)} {tag : Option IndexTag}
    (h : Option.Rel (fun e tag => relevant[tag.index]? = some e.1 ∧ tag.pos = e.2) entry tag)
    {e : IndexEntry × Nat} (he : e ∈ entry) : e.1 ∈ relevant := by
  cases h with
  | none => cases he
  | some h =>
    cases he
    exact mem_of_getElem? h.1

/-- Tags copied through the cache stay allowed. -/
theorem allowed_of_copies {numbering : List IndexEntry} {rated : RatedTree}
    {tagged tagged' : TaggedTree}
    (h : Allowed relevant relevant rated tagged) (hc : Copies relevant cached tagged)
    (hc' : Copies numbering cached tagged') : Allowed numbering relevant rated tagged' := by
  refine (h.comp (hc.flip.comp hc')).mono ?_
  rintro rated tagged' ⟨tagged, hallowed, cached, hcopied, hcopied'⟩ tag' htag'
  rw [Option.mem_def.mp htag'] at hcopied'
  -- both tags stand for the one cached entry
  generalize cached.entry = entry at hcopied hcopied'
  generalize htag : tagged.tag = tag at hcopied
  cases hcopied' with
  | some hsame' =>
    cases hcopied with
    | some hsame =>
      obtain ⟨rt, hrt, i, hi, entry, hrel, hnum⟩ := hallowed _ htag
      rw [hsame.1] at hnum
      cases hnum
      exact ⟨rt, hrt, i, hi, _, hrel, hsame'.1⟩

end Tags

/-- The condition: queries that do not differ, at corresponding places, in facts about operands
that decide compatibility and are missing in the key. -/
def SameUnencoded (indices : List IndexEntry) (x y : Placed) : Prop :=
  ∀ index ∈ indices, ∀ elt ∈ index.keyPattern, elt.1 = fullPath x.pathPrefix x.node →
    unencoded elt index x.pathPrefix x.node = unencoded elt index y.pathPrefix y.node

def find (root : MatchExpression) : CanonicalQuery where
  root
  sort := []
  proj := []
  hint := []
  min := []
  max := []
  isExplain := false
  isTailable := false
  isSnapshot := false

/-- An index on one field in ascending order. -/
def ascending (field : Bytes) (sparse : Bool) : IndexEntry where
  keyPattern := [(field, .numberInt 1)]
  multikey := false
  sparse
  filterExpr := none
  type := .btree
  nonempty := by simp
  known := by simp
  separated := by simp
  validFilter := by simp

def single (index : IndexEntry) : IndexCatalog := ⟨[index], List.pairwise_singleton _ _⟩

def abEquals (n : Int32) : MatchExpression := .comparison ⟨.eq, fieldAB, .numberInt n, rfl⟩

theorem accepts_five : Comparison.eq.accepts (.numberInt 5) = true := by decide

theorem accepts_null : Comparison.eq.accepts .null = true := by decide

def bEqualsFive : MatchExpression := .comparison ⟨.eq, [98], .numberInt 5, accepts_five⟩

def bEqualsNull : MatchExpression := .comparison ⟨.eq, [98], .null, accepts_null⟩

end MongolDb.Query
