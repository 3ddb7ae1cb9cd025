import MongolDb.Query.PlanCacheKey

/-! What the planner decides alike for two queries with one key. -/
namespace MongolDb.Query
open ByteOrder Bson Matcher Branching PlanCacheIndexabilityState PlanCache List Indexability MatchExpression

section
variable {state : PathDiscriminatorsMap} {indices : List IndexEntry} {a b : MatchExpression}

/-- Trees of one shape of which the key says the same, node by node. -/
def Alike (state : PathDiscriminatorsMap) : MatchExpression → MatchExpression → Prop :=
  Rel MatchExpression.children MatchExpression.children (SameKey state)

theorem Alike.not_cases (h : Alike state a b) :
    (∃ c d, a = .not c ∧ b = .not d ∧ Alike state c d) ∨
      (a.matchType ≠ .not ∧ b.matchType ≠ .not) := by
  have htype := h.here.matchType
  by_cases hnot : a.matchType = .not
  · obtain ⟨c, rfl⟩ := eq_not_of_matchType hnot
    obtain ⟨d, rfl⟩ := eq_not_of_matchType (htype.symm.trans hnot)
    exact .inl ⟨c, d, rfl, rfl, (forall₂_cons.mp h.onChildren).1⟩
  · exact .inr ⟨hnot, htype ▸ hnot⟩

/-! The tests for partial indexes. -/

theorem answer_eq (h : SameKey state a b) {d : IndexabilityDiscriminator}
    (hd : (a.path, d) ∈ state) : d a = d b := by
  have hmap := h.answers
  rw [answers, answers, ← h.path] at hmap
  refine map_inj_left.mp hmap d (mem_map.mpr ⟨(a.path, d), ?_, rfl⟩)
  exact mem_filter.mpr ⟨hd, by simp⟩

theorem mem_processPartialIndex {filter f : MatchExpression}
    (hvalid : checkValidFilterExpressions filter) (hf : f ∈ filterClauses filter) :
    (f.path, fun e => isSubsetOf e f) ∈ processPartialIndex filter := by
  have hclause : ∀ {f : MatchExpression}, isFilterClause f →
      (f.path, fun e => isSubsetOf e f) ∈ processPartialIndex f := by
    intro f hf
    rw [processPartialIndex]
    obtain ⟨c, rfl⟩ | ⟨p, rfl⟩ | ⟨t, rfl⟩ := filterClause_cases hf <;>
      exact mem_append_right _ (mem_singleton_self _)
  have hf' := isFilterClause_of_mem hvalid hf
  cases filter with
  | and fs =>
    rw [processPartialIndex]
    refine mem_append_left _ (mem_flatMap.mpr ⟨⟨f, hf⟩, mem_attach _ _, ?_⟩)
    exact hclause hf'
  | _ =>
    cases mem_singleton.mp hf
    exact hclause hf'

theorem mem_updateDiscriminators_of_filter {index : IndexEntry} (hindex : index ∈ indices)
    {filter : MatchExpression} (hfilter : index.filterExpr = some filter) {f : MatchExpression}
    (hf : f ∈ filterClauses filter) :
    (f.path, fun e => isSubsetOf e f) ∈ updateDiscriminators indices := by
  refine mem_flatMap.mpr ⟨index, hindex, mem_append_right _ ?_⟩
  rw [hfilter]
  exact mem_processPartialIndex (index.validFilter filter hfilter) hf

/-- Only nodes on the clause's path satisfy the test, and negations of such nodes. -/
theorem isSubsetOfLeaf_eq_false {f : MatchExpression} (hf : isFilterClause f)
    (hpath : a.path ≠ f.path) (hnot : ∀ c, a ≠ .not c) : isSubsetOfLeaf a f = false := by
  have heq : a.equivalent f = false := by
    obtain ⟨c, rfl⟩ | ⟨p, rfl⟩ | ⟨t, rfl⟩ := filterClause_cases hf <;>
      cases a <;> simp_all [equivalent, MatchExpression.path]
  obtain ⟨c, rfl⟩ | ⟨p, rfl⟩ | ⟨t, rfl⟩ := filterClause_cases hf
  · have hcmp : isSubsetOfComparison a c = false := by
      exact if_pos hpath
    simp [isSubsetOfLeaf, heq, hcmp]
  · have hexists : isSubsetOfExists a p = false := by
      cases a <;> simp_all [isSubsetOfExists, MatchExpression.path]
    simp [isSubsetOfLeaf, heq, hexists]
  · simp [isSubsetOfLeaf, heq]

theorem isSubsetOfClause_leaf (hand : a.matchType ≠ .and) (hor : a.matchType ≠ .or)
    (f : MatchExpression) : isSubsetOfClause a f = isSubsetOfLeaf a f := by
  cases a <;> first | rfl | exact absurd rfl hand | exact absurd rfl hor

theorem anyIsSubsetOf_eq (cs : List MatchExpression) (f : MatchExpression) :
    anyIsSubsetOf cs f = cs.any fun c => isSubsetOfClause c f := by
  induction cs with
  | nil => rfl
  | cons c cs ih => rw [anyIsSubsetOf, any_cons, ih]

theorem allAreSubsetsOf_eq (cs : List MatchExpression) (f : MatchExpression) :
    allAreSubsetsOf cs f = cs.all fun c => isSubsetOfClause c f := by
  induction cs with
  | nil => rfl
  | cons c cs ih => rw [allAreSubsetsOf, all_cons, ih]

theorem equivalent_tree_clause {f : MatchExpression} (hf : isFilterClause f)
    (h : a.matchType = .and ∨ a.matchType = .or ∨ a.matchType = .not) :
    a.equivalent f = false := by
  obtain ⟨c, rfl⟩ | ⟨p, rfl⟩ | ⟨t, rfl⟩ := filterClause_cases hf <;>
    cases a <;> simp_all [equivalent, matchType]

/-- A negation satisfies the test for `$exists` alone, by the operand of its child. -/
theorem isSubsetOfLeaf_not {c f : MatchExpression} (hf : isFilterClause f) (hpath : [] ≠ f.path) :
    isSubsetOfLeaf (.not c) f = true ↔
      (∃ p, f = .exists p ∧ c.path = p) ∧
        (c.matchType = .comparison .eq ∨ c.matchType = .matchIn) ∧
        isSubsetOfClause c f = false := by
  have heq := @equivalent_tree_clause (.not c) f hf (.inr (.inr rfl))
  obtain ⟨k, rfl⟩ | ⟨p, rfl⟩ | ⟨t, rfl⟩ := filterClause_cases hf
  · have hcmp : isSubsetOfComparison (.not c) k = false := by
      exact if_pos hpath
    simp [isSubsetOfLeaf, heq, hcmp]
  · by_cases hc : c.path = p
    · cases c <;> simp_all [isSubsetOfClause, isSubsetOfLeaf, isSubsetOfExists,
        equivalent, matchType, MatchExpression.path]
    · have hc' : p ≠ c.path := Ne.symm hc
      simp [isSubsetOfLeaf, heq, isSubsetOfExists, hc, hc']
  · simp [isSubsetOfLeaf, heq]

variable {relevant : List IndexEntry} {as bs : List MatchExpression}

theorem any_eq_of_forall₂ {p : MatchExpression → Bool}
    (h : List.Forall₂ (fun a b => p a = p b) as bs) : as.any p = bs.any p := by
  induction h with
  | nil => rfl
  | cons hhead _ ih => rw [any_cons, any_cons, hhead, ih]

theorem all_eq_of_forall₂ {p : MatchExpression → Bool}
    (h : List.Forall₂ (fun a b => p a = p b) as bs) : as.all p = bs.all p := by
  induction h with
  | nil => rfl
  | cons hhead _ ih => rw [all_cons, all_cons, hhead, ih]

/-- The facts in the key decide the test of a whole query for a clause of a filter. -/
theorem isSubsetOfClause_eq {f : MatchExpression} (hf : isFilterClause f)
    (hmem : (f.path, fun e => isSubsetOf e f) ∈ state) (h : Alike state a b) :
    isSubsetOfClause a f = isSubsetOfClause b f := by
  apply h.ind
  intro a b hab ih
  have hkey := hab.here
  by_cases hpath : a.path = f.path
  · -- the test itself is one of the facts
    rw [← isSubsetOf_clause hf, ← isSubsetOf_clause hf]
    exact answer_eq hkey (by rw [hpath]; exact hmem)
  by_cases hand : a.matchType = .and
  · rw [eq_and_of_matchType hand,
      eq_and_of_matchType (hkey.matchType.symm.trans hand), isSubsetOfClause,
      isSubsetOfClause, equivalent_tree_clause hf (.inl rfl), equivalent_tree_clause hf (.inl rfl),
      anyIsSubsetOf_eq, anyIsSubsetOf_eq, any_eq_of_forall₂ ih]
  by_cases hor : a.matchType = .or
  · rw [eq_or_of_matchType hor,
      eq_or_of_matchType (hkey.matchType.symm.trans hor), isSubsetOfClause,
      isSubsetOfClause, equivalent_tree_clause hf (.inr (.inl rfl)),
      equivalent_tree_clause hf (.inr (.inl rfl)), allAreSubsetsOf_eq, allAreSubsetsOf_eq,
      all_eq_of_forall₂ ih]
  rw [isSubsetOfClause_leaf hand hor,
    isSubsetOfClause_leaf (hkey.matchType ▸ hand) (hkey.matchType ▸ hor)]
  obtain ⟨c, d, rfl, rfl, hcd⟩ | ⟨hnot, hnot'⟩ := Alike.not_cases hab
  · rw [Bool.eq_iff_iff, isSubsetOfLeaf_not hf hpath, isSubsetOfLeaf_not hf hpath,
      (forall₂_cons.mp ih).1, hcd.here.path, hcd.here.matchType]
  · rw [isSubsetOfLeaf_eq_false hf hpath, isSubsetOfLeaf_eq_false hf (hkey.path ▸ hpath)]
    · rintro c rfl
      exact hnot' rfl
    · rintro c rfl
      exact hnot rfl

/-- Queries of one key pass or fail the test for a partial index together. -/
theorem isSubsetOf_eq {index : IndexEntry} (hindex : index ∈ indices) {filter : MatchExpression}
    (hfilter : index.filterExpr = some filter) (h : Alike (updateDiscriminators indices) a b) :
    isSubsetOf a filter = isSubsetOf b filter := by
  have hvalid := index.validFilter filter hfilter
  rw [Bool.eq_iff_iff, isSubsetOf_filter_iff hvalid, isSubsetOf_filter_iff hvalid]
  refine forall₂_congr fun f hf => ?_
  rw [isSubsetOfClause_eq (isFilterClause_of_mem hvalid hf)
    (mem_updateDiscriminators_of_filter hindex hfilter hf) h]

/-- The facts about operands on which compatibility depends and of which the key says nothing:
regular expressions in a `$in` or in a negated one, and nulls under a `$elemMatch` of objects. -/
def unencoded (elt : Bytes × Value) (index : IndexEntry) (pathPrefix : Bytes) :
    MatchExpression → Bool
  | .comparison c =>
    (indexedFieldType elt index).isEmpty && index.sparse && !pathPrefix.isEmpty &&
      c.matchType = .eq && c.rhs.type = 10
  | .matchIn path entries =>
    ((indexedFieldType elt index).isEmpty && index.sparse && !pathPrefix.isEmpty &&
      (index.type ≠ .text || inSuffix path index.keyPattern) && entries.hasNull) ||
    (indexedFieldType elt index = IndexNames.hashed && entries.regexes.length ≠ 0)
  | .not (.matchIn _ entries) =>
    (indexedFieldType elt index).isEmpty && index.type = .btree && !index.sparse &&
      entries.regexes.length ≠ 0
  | _ => false

variable {elt : Bytes × Value} {index : IndexEntry} {p : Bytes}

theorem sparse_answer_eq (hindex : index ∈ indices) (hsparse : index.sparse)
    (helt : elt ∈ index.keyPattern) (hpath : elt.1 = a.path)
    (h : SameKey (updateDiscriminators indices) a b) :
    sparseDiscriminator a = sparseDiscriminator b := by
  refine answer_eq h (mem_flatMap.mpr ⟨index, hindex, mem_append_left _ ?_⟩)
  rw [if_pos hsparse, ← hpath]
  exact mem_map.mpr ⟨elt, helt, rfl⟩

/-- Nodes whose operands play no role. -/
def operandFree : MatchType → Bool
  | .comparison _ | .matchIn | .geo | .geoNear | .not => false
  | _ => true

theorem compatible_of_operandFree (h : operandFree a.matchType) :
    compatible elt index a =
      if (indexedFieldType elt index).isEmpty then
        (if index.type ≠ .text then true else inSuffix a.path index.keyPattern)
      else if indexedFieldType elt index = IndexNames.hashed then false
      else if indexedFieldType elt index = IndexNames.geo2DSphere then false
      else if indexedFieldType elt index = IndexNames.text then decide (a.matchType = .text)
      else false := by
  cases a with
  | comparison _ | matchIn _ _ | geo _ | geoNear _ | not _ => cases h
  | _ => simp [compatible, operandCompatible, matchType]

theorem unencoded_of_operandFree (h : operandFree a.matchType) : unencoded elt index p a = false := by
  cases a <;> first | rfl | cases h

theorem compatible_comparison (c : ComparisonMatchExpression) :
    compatible elt index (.comparison c) =
      if (indexedFieldType elt index).isEmpty then
        (if c.matchType = .eq then !(index.sparse && c.rhs.type = 10)
          else index.type ≠ .text || inSuffix c.path index.keyPattern)
      else indexedFieldType elt index = IndexNames.hashed && c.matchType = .eq := by
  by_cases ho : (indexedFieldType elt index).isEmpty
  · by_cases hc : c.matchType = .eq <;> by_cases ht : index.type = .text <;>
      simp [compatible, operandCompatible, matchType, MatchExpression.path, ho, hc,
        ht]
  · by_cases hh : indexedFieldType elt index = IndexNames.hashed <;>
      simp [compatible, matchType, ho, hh]

theorem compatible_matchIn (path : Bytes) (entries : ArrayFilterEntries) :
    compatible elt index (.matchIn path entries) =
      if (indexedFieldType elt index).isEmpty then
        !(index.sparse && entries.hasNull) &&
          (index.type ≠ .text || inSuffix path index.keyPattern)
      else indexedFieldType elt index = IndexNames.hashed && entries.regexes.length = 0 := by
  by_cases ho : (indexedFieldType elt index).isEmpty
  · by_cases hn : index.sparse && entries.hasNull <;> by_cases ht : index.type = .text <;>
      simp_all [compatible, operandCompatible, matchType, MatchExpression.path]
  · by_cases hh : indexedFieldType elt index = IndexNames.hashed <;>
      simp [compatible, matchType, ho, hh]

theorem compatible_not (child : MatchExpression) :
    compatible elt index (.not child) =
      ((indexedFieldType elt index).isEmpty && negationCompatible index child) := by
  by_cases ho : (indexedFieldType elt index).isEmpty
  · by_cases hn : negationCompatible index child
    · have ht : index.type ≠ .text := by
        intro ht
        simp [negationCompatible, ht] at hn
      simp [compatible, operandCompatible, ho, hn, ht]
    · simp [compatible, operandCompatible, ho, hn]
  · by_cases hh : indexedFieldType elt index = IndexNames.hashed <;>
      simp [compatible, matchType, ho, hh]

theorem negationCompatible_eq {c d : MatchExpression} (h : c.matchType = d.matchType)
    (hin : c.matchType ≠ .matchIn) : negationCompatible index c = negationCompatible index d := by
  have hkind : ∀ {e : MatchExpression}, e.matchType ≠ .matchIn →
      negationCompatible index e = (index.type = .btree && !index.sparse &&
        !(e.matchType = .regex || e.matchType = .mod || e.matchType = .typeOperator ||
          e.matchType = .elemMatchValue)) := by
    intro e he
    by_cases ht : index.type = .btree <;> by_cases hs : index.sparse <;>
      cases e <;> first | exact absurd rfl he | simp [negationCompatible, matchType, ht, hs]
  rw [hkind hin, hkind (h ▸ hin), h]

theorem comparison_compatible_iff {c d : ComparisonMatchExpression} (hcd : c.path = d.path)
    (hk : d.matchType = c.matchType)
    (hsparse : p = [] → index.sparse →
      sparseDiscriminator (.comparison c) = sparseDiscriminator (.comparison d)) :
    compatible elt index (.comparison c) = compatible elt index (.comparison d) ↔
      unencoded elt index p (.comparison c) = unencoded elt index p (.comparison d) := by
  simp only [compatible_comparison, hk, hcd]
  by_cases hc : c.matchType = .eq
  · by_cases hs : index.sparse
    · by_cases hp : p = []
      · have hnull := hsparse hp hs
        simp [sparseDiscriminator, hk, hc] at hnull
        simp [unencoded, hp, hs, hc, hk, hnull]
      · have hp' : p.isEmpty = false := by simpa using hp
        cases ho : (indexedFieldType elt index).isEmpty <;>
          simp [unencoded, hp', hs, hc, hk, ho]
    · simp [unencoded, hs]
  · simp [unencoded, hk, hc]

theorem matchIn_compatible_iff (path : Bytes) {entries entries' : ArrayFilterEntries}
    (hnull : p = [] → index.sparse → entries.hasNull = entries'.hasNull) :
    compatible elt index (.matchIn path entries) = compatible elt index (.matchIn path entries') ↔
      unencoded elt index p (.matchIn path entries) =
        unencoded elt index p (.matchIn path entries') := by
  rw [compatible_matchIn, compatible_matchIn]
  by_cases ho : (indexedFieldType elt index).isEmpty
  · have hh : indexedFieldType elt index ≠ IndexNames.hashed := by
      intro hh
      simp [hh] at ho
    by_cases hs : index.sparse
    · by_cases hp : p = []
      · simp [unencoded, ho, hh, hs, hp, hnull hp hs]
      · have hp' : p.isEmpty = false := by simpa using hp
        simp only [unencoded, ho, hs, hp', if_true, Bool.true_and, Bool.not_false]
        generalize (decide (index.type ≠ .text) || inSuffix path index.keyPattern) = suffix
        cases suffix <;> simp [hh]
    · simp [unencoded, hs, hh]
  · by_cases hh : indexedFieldType elt index = IndexNames.hashed
    · simp [unencoded, hh]
    · simp [unencoded, ho, hh]

theorem not_compatible_iff {c d : MatchExpression} (h : c.matchType = d.matchType) :
    compatible elt index (.not c) = compatible elt index (.not d) ↔
      unencoded elt index p (.not c) = unencoded elt index p (.not d) := by
  simp only [compatible_not]
  by_cases hin : c.matchType = .matchIn
  · obtain ⟨entries, hc⟩ := eq_matchIn_of_matchType hin
    obtain ⟨entries', hd⟩ := eq_matchIn_of_matchType (h.symm.trans hin)
    rw [hc, hd]
    by_cases ht : index.type = .btree <;> by_cases hs : index.sparse <;>
      cases ho : (indexedFieldType elt index).isEmpty <;>
      simp [unencoded, negationCompatible, ht, hs, ho]
  · have hfree : ∀ {e : MatchExpression}, e.matchType ≠ .matchIn →
        unencoded elt index p (.not e) = false := by
      intro e he
      cases e <;> first | rfl | exact absurd rfl he
    rw [hfree hin, hfree (h ▸ hin), negationCompatible_eq h hin]
    simp

/-- Two nodes of which the key says the same are compatible with a field alike if and only if they
do not differ in what the key leaves out. -/
theorem compatible_eq_iff (hindex : index ∈ indices) (helt : elt ∈ index.keyPattern)
    (hpath : elt.1 = fullPath p a) (h : Alike (updateDiscriminators indices) a b) :
    compatible elt index a = compatible elt index b ↔
      unencoded elt index p a = unencoded elt index p b := by
  have hkey := h.here
  -- at top level the key says which operands hold nulls
  have hsparse : p = [] → index.sparse → (∀ c, a ≠ .not c) →
      sparseDiscriminator a = sparseDiscriminator b := by
    intro hp hs hnot
    refine sparse_answer_eq hindex hs helt ?_ hkey
    rw [hpath, hp]
    cases a <;> first | rfl | exact absurd rfl (hnot _)
  cases htype : a.matchType with
  | comparison k =>
    obtain ⟨c, rfl, rfl⟩ := eq_comparison_of_matchType htype
    obtain ⟨d, rfl, hk⟩ := eq_comparison_of_matchType (hkey.matchType.symm.trans htype)
    exact comparison_compatible_iff hkey.path hk fun hp hs => hsparse hp hs (by simp)
  | matchIn =>
    obtain ⟨entries, ha⟩ := eq_matchIn_of_matchType htype
    obtain ⟨entries', hb⟩ := eq_matchIn_of_matchType (hkey.matchType.symm.trans htype)
    rw [← hkey.path] at hb
    rw [ha, hb]
    refine matchIn_compatible_iff _ fun hp hs => ?_
    have hnull := hsparse hp hs (by rw [ha]; simp)
    rw [ha, hb] at hnull
    exact Bool.not_inj hnull
  | not =>
    obtain ⟨c, d, rfl, rfl, hcd⟩ := h.not_cases.resolve_right fun hnot => hnot.1 htype
    exact not_compatible_iff hcd.here.matchType
  | geo =>
    obtain ⟨g, rfl⟩ := eq_geo_of_matchType htype
    obtain ⟨g', rfl⟩ := eq_geo_of_matchType (hkey.matchType.symm.trans htype)
    obtain ⟨code, hg, hg'⟩ := hkey.geo
    simp [compatible, operandCompatible, matchType, hasS2Region_eq hg hg', unencoded]
  | geoNear =>
    obtain ⟨g, rfl⟩ := eq_geoNear_of_matchType htype
    obtain ⟨g', rfl⟩ := eq_geoNear_of_matchType (hkey.matchType.symm.trans htype)
    obtain ⟨code, hg, hg'⟩ := hkey.geo
    simp [compatible, operandCompatible, matchType, geoNear_crs_eq hg hg', unencoded]
  | _ =>
    have hfree : operandFree a.matchType := by rw [htype]; rfl
    have hfree' : operandFree b.matchType := by rw [← hkey.matchType, htype]; rfl
    rw [compatible_of_operandFree hfree, compatible_of_operandFree hfree',
      unencoded_of_operandFree hfree, unencoded_of_operandFree hfree', hkey.path, hkey.matchType]
    simp

theorem isIndexOnOwnFieldTypeNode_eq (h : a.matchType = b.matchType) :
    Indexability.isIndexOnOwnFieldTypeNode a = Indexability.isIndexOnOwnFieldTypeNode b := by
  simp only [isIndexOnOwnFieldTypeNode, h]

theorem elemMatchChildUsesIndex_eq (h : Alike state a b) :
    Indexability.elemMatchChildUsesIndex a = Indexability.elemMatchChildUsesIndex b := by
  obtain ⟨c, d, rfl, rfl, hcd⟩ | ⟨hnot, hnot'⟩ := h.not_cases
  · simp only [elemMatchChildUsesIndex, isIndexOnOwnFieldTypeNode,
      hcd.here.matchType]
  · have hchild : ∀ {e : MatchExpression}, e.matchType ≠ .not →
        elemMatchChildUsesIndex e = isIndexOnOwnFieldTypeNode e := by
      intro e he
      cases e <;> first | rfl | exact absurd rfl he
    rw [hchild hnot, hchild hnot', isIndexOnOwnFieldTypeNode_eq h.here.matchType]

theorem nodeCanUseIndexOnOwnField_eq (h : Alike state a b) :
    Indexability.nodeCanUseIndexOnOwnField a = Indexability.nodeCanUseIndexOnOwnField b := by
  have htype := h.here.matchType
  have harray : arrayUsesIndexOnOwnField a =
      arrayUsesIndexOnOwnField b := by
    by_cases hvalue : a.matchType = .elemMatchValue
    · rw [eq_elemMatchValue_of_matchType hvalue,
        eq_elemMatchValue_of_matchType (htype.symm.trans hvalue)]
      apply all_eq_of_forall₂
      exact h.onChildren.imp fun _ _ hcd => elemMatchChildUsesIndex_eq hcd
    · have hother : ∀ {e : MatchExpression}, e.matchType ≠ .elemMatchValue →
          arrayUsesIndexOnOwnField e = false := by
        intro e he
        cases e <;> first | rfl | exact absurd rfl he
      rw [hother hvalue, hother (htype ▸ hvalue)]
  simp only [nodeCanUseIndexOnOwnField, harray, h.here.path, isIndexOnOwnFieldTypeNode_eq htype]

theorem isBoundsGenerating_eq (h : Alike state a b) :
    Indexability.isBoundsGenerating a = Indexability.isBoundsGenerating b := by
  have hnegated : isBoundsGeneratingNot a = isBoundsGeneratingNot b := by
    obtain ⟨c, d, rfl, rfl, hcd⟩ | ⟨hnot, hnot'⟩ := h.not_cases
    · exact nodeCanUseIndexOnOwnField_eq hcd
    · have hother : ∀ {e : MatchExpression}, e.matchType ≠ .not →
          isBoundsGeneratingNot e = false := by
        intro e he
        cases e <;> first | rfl | exact absurd rfl he
      rw [hother hnot, hother hnot']
  simp only [isBoundsGenerating, hnegated, nodeCanUseIndexOnOwnField_eq h]

theorem childPrefix_eq (h : SameKey state a b) (p : Bytes) : childPrefix p a = childPrefix p b := by
  by_cases hobject : a.matchType = .elemMatchObject
  · obtain ⟨c, hc⟩ := eq_elemMatchObject_of_matchType hobject
    obtain ⟨d, hd⟩ := eq_elemMatchObject_of_matchType
      (h.matchType.symm.trans hobject)
    rw [hc, hd, childPrefix, childPrefix, h.path]
  · have hother : ∀ {e : MatchExpression}, e.matchType ≠ .elemMatchObject → childPrefix p e = p := by
      intro e he
      cases e <;> first | rfl | exact absurd rfl he
    rw [hother hobject, hother (h.matchType ▸ hobject)]

theorem fullPath_eq (h : Alike state a b) (p : Bytes) : fullPath p a = fullPath p b := by
  obtain ⟨c, d, rfl, rfl, hcd⟩ | ⟨hnot, hnot'⟩ := h.not_cases
  · rw [fullPath, fullPath, hcd.here.path]
  · have hother : ∀ {e : MatchExpression}, e.matchType ≠ .not → fullPath p e = p ++ e.path := by
      intro e he
      cases e <;> first | rfl | exact absurd rfl he
    rw [hother hnot, hother hnot', h.here.path]

/-- Nodes at corresponding places are read under one prefix. -/
theorem placed_of_alike (h : Alike state a b) (p : Bytes) :
    Rel Placed.children Placed.children
      (fun x y => x.pathPrefix = y.pathPrefix ∧ Alike state x.node y.node) ⟨p, a⟩ ⟨p, b⟩ := by
  revert p
  apply h.ind
  intro a b hab ih p
  refine .node ⟨rfl, hab⟩ ?_
  simp only [Placed.children, forall₂_map_left_iff, forall₂_map_right_iff]
  refine ih.imp fun c d hcd => ?_
  simp only [childPrefix_eq hab.here]
  exact hcd _

theorem isLogical_eq (h : a.matchType = b.matchType) : a.isLogical = b.isLogical := by
  rw [isLogical, isLogical, h]

theorem getFields_unfold (p : Bytes) (e : MatchExpression) :
    getFields p e = if e.matchType = .nor then []
      else if Indexability.nodeCanUseIndexOnOwnField e then [p ++ e.path]
      else if Indexability.arrayUsesIndexOnChildren e || e.isLogical then
        e.children.flatMap (getFields (childPrefix p e))
      else [] := by
  rw [getFields]
  simp

theorem getFields_eq (h : Alike state a b) (p : Bytes) : getFields p a = getFields p b := by
  revert p
  apply h.ind
  intro a b hab ih p
  have htype := hab.here.matchType
  have hchildren : a.children.flatMap (getFields (childPrefix p a)) =
      b.children.flatMap (getFields (childPrefix p b)) := by
    rw [flatMap_def, flatMap_def, childPrefix_eq hab.here]
    congr 1
    exact map_eq_map_of_forall₂ (ih.imp fun c d hcd => hcd _)
  rw [getFields_unfold, getFields_unfold, hchildren, nodeCanUseIndexOnOwnField_eq hab,
    arrayUsesIndexOnChildren, arrayUsesIndexOnChildren, htype,
    hab.here.path, isLogical_eq htype]

theorem ratedNode_eq (h : Alike state a b) : ratedNode a = ratedNode b := by
  funext children
  rw [ratedNode, ratedNode, h.here.matchType, h.here.path, nodeCanUseIndexOnOwnField_eq h]

theorem untagged_unfold (e : MatchExpression) :
    untagged e = ratedNode e (e.children.map untagged) := by
  rw [untagged]
  simp

theorem untagged_eq (h : Alike state a b) : untagged a = untagged b := by
  apply h.ind
  intro a b hab ih
  simp only [untagged_unfold, ratedNode_eq hab, map_eq_map_of_forall₂ ih]

theorem rateIndices_unfold (indices : List IndexEntry) (p : Bytes) (e : MatchExpression) :
    rateIndices indices p e = if e.matchType = .nor then untagged e
      else if Indexability.isBoundsGenerating e then
        let rt := some (relevantTag indices (fullPath p e) e)
        let children := e.children.map untagged
        (ratedNode e (if e.matchType = .not then children.map (RatedTree.setTag rt)
          else children)).setTag rt
      else if Indexability.arrayUsesIndexOnChildren e || e.isLogical then
        ratedNode e (e.children.map (rateIndices indices (childPrefix p e)))
      else untagged e := by
  rw [rateIndices]
  simp

/-- The same fields of the same indexes are compatible with both nodes. -/
def CompatibleAlike (indices : List IndexEntry) (x y : Placed) : Prop :=
  ∀ index ∈ indices, ∀ elt ∈ index.keyPattern, elt.1 = fullPath x.pathPrefix x.node →
    compatible elt index x.node = compatible elt index y.node

theorem ratedOn_eq (hsub : relevant ⊆ indices)
    {fields : IndexEntry → Obj} (hfields : ∀ index, fields index ⊆ index.keyPattern)
    (h : CompatibleAlike indices ⟨p, a⟩ ⟨p, b⟩) :
    ratedOn fields relevant (fullPath p a) a = ratedOn fields relevant (fullPath p a) b := by
  refine flatMap_congr fun index hindex => flatMap_congr fun elt helt => ?_
  have hmem : index.1 ∈ indices := hsub (fst_mem_of_mem_zipIdx hindex)
  by_cases hname : elt.1 = fullPath p a
  · rw [h index.1 hmem elt (hfields _ helt) hname]
  · simp [hname]

theorem relevantTag_eq (hsub : relevant ⊆ indices) (h : CompatibleAlike indices ⟨p, a⟩ ⟨p, b⟩) :
    relevantTag relevant (fullPath p a) a = relevantTag relevant (fullPath p a) b := by
  rw [relevantTag, relevantTag,
    ratedOn_eq hsub (fun index => take_subset 1 index.keyPattern) h,
    ratedOn_eq hsub (fun index => drop_subset 1 index.keyPattern) h]

/-- Where compatibility agrees node by node, so do the ratings. -/
theorem rateIndices_eq (hsub : relevant ⊆ indices) (h : Alike state a b) {p : Bytes}
    (hc : Rel Placed.children Placed.children (CompatibleAlike indices) ⟨p, a⟩ ⟨p, b⟩) :
    rateIndices relevant p a = rateIndices relevant p b := by
  refine Rel.ind (motive := fun x y => rateIndices relevant x.pathPrefix x.node =
    rateIndices relevant y.pathPrefix y.node) ?_ ((placed_of_alike h p).and hc)
  rintro ⟨p, a⟩ ⟨q, b⟩ hxy ih
  obtain ⟨⟨hpq, hab⟩, hcompat⟩ := hxy.here
  obtain rfl : p = q := hpq
  have htype := hab.here.matchType
  have hchildren : a.children.map (rateIndices relevant (childPrefix p a)) =
      b.children.map (rateIndices relevant (childPrefix p b)) := by
    simp only [Placed.children, forall₂_map_left_iff, forall₂_map_right_iff] at ih
    exact map_eq_map_of_forall₂ ih
  have huntagged : a.children.map untagged = b.children.map untagged :=
    map_eq_map_of_forall₂ (hab.onChildren.imp fun _ _ hcd => untagged_eq hcd)
  simp only [rateIndices_unfold, hchildren, huntagged, isBoundsGenerating_eq hab,
    untagged_eq hab, ratedNode_eq hab, ← fullPath_eq hab, relevantTag_eq hsub hcompat, htype,
    arrayUsesIndexOnChildren, isLogical_eq htype]
  rfl

theorem stripNode_unfold (idxNo : Nat) (filter e : MatchExpression) (inNegation : Bool)
    (type : MatchType) (path : Bytes) (ownField : Bool) (tag : Option RelevantTag)
    (children : List RatedTree) :
    stripInvalidAssignmentsToPartialIndexNode idxNo filter e inNegation
        (.node type path ownField tag children) =
      .node type path ownField (tag.map (RelevantTag.remove idxNo))
        (List.zipWith (fun c t =>
          if !(inNegation || nodeIsNegationOrElemMatchObj e) && e.matchType = .or &&
            isSubsetOf c filter then t
          else stripInvalidAssignmentsToPartialIndexNode idxNo filter c
            (inNegation || nodeIsNegationOrElemMatchObj e) t) e.children children) := by
  rw [stripInvalidAssignmentsToPartialIndexNode]
  congr 1
  conv_rhs => rw [← attach_map_subtype_val e.children, zipWith_map_left]

theorem zipWith_eq_of_forall₂ {ts : List RatedTree} {f g : MatchExpression → RatedTree → RatedTree}
    (h : List.Forall₂ (fun a b => ∀ t, f a t = g b t) as bs) :
    List.zipWith f as ts = List.zipWith g bs ts := by
  induction h generalizing ts with
  | nil => rfl
  | cons hhead _ ih =>
    cases ts with
    | nil => rfl
    | cons t ts => simp only [zipWith_cons_cons, hhead, ih]

theorem nodeIsNegationOrElemMatchObj_eq (h : a.matchType = b.matchType) :
    nodeIsNegationOrElemMatchObj a = nodeIsNegationOrElemMatchObj b := by
  simp only [nodeIsNegationOrElemMatchObj, h]

theorem stripNode_eq (hindex : index ∈ indices) {filter : MatchExpression}
    (hfilter : index.filterExpr = some filter) (h : Alike (updateDiscriminators indices) a b)
    (idxNo : Nat) (inNegation : Bool) (t : RatedTree) :
    stripInvalidAssignmentsToPartialIndexNode idxNo filter a inNegation t =
      stripInvalidAssignmentsToPartialIndexNode idxNo filter b inNegation t := by
  revert inNegation t
  apply h.ind
  intro a b hab ih inNegation t
  have htype := hab.here.matchType
  cases t with
  | node type path ownField tag children =>
    simp only [stripNode_unfold, nodeIsNegationOrElemMatchObj_eq htype, htype]
    congr 1
    apply zipWith_eq_of_forall₂
    refine List.Forall₂.mp (fun c d hcd ih t => ?_) hab.onChildren ih
    rw [isSubsetOf_eq hindex hfilter hcd, ih]

theorem stripPartial_eq (h : Alike (updateDiscriminators indices) a b)
    (hsub : relevant ⊆ indices) (t : RatedTree) :
    stripInvalidAssignmentsToPartialIndices relevant a t =
      stripInvalidAssignmentsToPartialIndices relevant b t := by
  refine foldl_ext _ _ _ fun t index hindex => ?_
  have hmem : index.1 ∈ indices := hsub (fst_mem_of_mem_zipIdx hindex)
  cases hfilter : index.1.filterExpr with
  | none => rfl
  | some filter =>
    simp only [stripInvalidAssignmentsToPartialIndexRoot, isSubsetOf_eq hmem hfilter h,
      stripNode_eq hmem hfilter h, nodeIsNegationOrElemMatchObj_eq h.here.matchType]

/-- Where compatibility agrees node by node, the planner offers both queries the same indexes at
the same places. -/
theorem ratedTree_eq (strip : List IndexEntry → RatedTree → Option RatedTree)
    (h : Alike (updateDiscriminators indices) a b)
    (hc : Rel Placed.children Placed.children (CompatibleAlike indices) (.root a) (.root b)) :
    ratedTree strip indices a = ratedTree strip indices b := by
  have hsub : findRelevantIndices (getFields [] b) indices ⊆ indices := filter_subset_self _
  simp only [ratedTree, getFields_eq h, rateIndices_eq hsub h hc]
  congr 2
  funext t
  exact stripPartial_eq h hsub t

end

end MongolDb.Query
