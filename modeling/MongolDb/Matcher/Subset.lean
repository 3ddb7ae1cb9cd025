import MongolDb.Matcher.Expression

/-! When does the planner take a partial index to hold every result of a query
(matcher/expression_algo.cpp)? -/
namespace MongolDb.Matcher
open ByteOrder Bson ThreeWay MatchExpression List

/-- The table at the end of `_isSubsetOf` for two comparisons, whose operands compare as `cmp`. -/
def Comparison.within (lhs rhs : Comparison) (cmp : Ordering) : Bool :=
  if lhs = rhs && cmp = .eq then true
  else
    match rhs with
    | .lt | .lte =>
      match lhs with
      | .lt | .lte | .eq => if rhs = .lte then cmp ≠ .gt else cmp = .lt
      | _ => false
    | .gt | .gte =>
      match lhs with
      | .gt | .gte | .eq => if rhs = .gte then cmp ≠ .lt else cmp = .gt
      | _ => false
    | .eq => false

def isSubsetOfComparisons (lhs rhs : ComparisonMatchExpression) : Bool :=
  if lhs.path ≠ rhs.path then false
  else if lhs.rhs.canonicalType ≠ rhs.rhs.canonicalType then false
  else if lhs.rhs.isNaN || rhs.rhs.isNaN then
    -- NaN compares equal only to itself
    if lhs.matchType.supportsEquality && rhs.matchType.supportsEquality then
      lhs.rhs.isNaN && rhs.rhs.isNaN
    else false
  else lhs.matchType.within rhs.matchType (compareElementValues compareAsDates lhs.rhs rhs.rhs)

/-- Each entry of an `$in` stands for an equality. -/
theorem ArrayFilterEntries.accepts (entries : ArrayFilterEntries) {e : Bytes × Value}
    (he : e ∈ entries.equalities) : Comparison.accepts .eq e.2 = true := by
  have := entries.accepted e he
  simp [Comparison.accepts, this.2]

def isSubsetOfComparison (lhs : MatchExpression) (rhs : ComparisonMatchExpression) : Bool :=
  if lhs.path ≠ rhs.path then false
  else
    match lhs with
    | .comparison c => isSubsetOfComparisons c rhs
    | .matchIn path entries =>
      if entries.regexes.length > 0 then false
      else
        entries.equalities.attach.all fun ⟨e, he⟩ =>
          isSubsetOfComparisons ⟨.eq, path, e.2, entries.accepts he⟩ rhs
    | _ => false

def isSubsetOfExists (lhs : MatchExpression) (path : Bytes) : Bool :=
  match lhs with
  | .not child =>
    if child.path ≠ path then false
    else
      match child with
      | .comparison c => c.matchType = .eq && c.rhs.type = 10
      | .matchIn _ entries => entries.hasNull
      | _ => false
  | _ =>
    if lhs.path ≠ path then false
    else
      match lhs with
      | .comparison c => c.rhs.type ≠ 10
      | .elemMatchValue _ _ | .elemMatchObject _ _ | .exists _ | .geo _ | .mod _ | .regex _ _
      | .size _ _ | .typeOperator _ => true
      | .matchIn _ entries => !entries.hasNull
      | _ => false

/-- The end of `expression::isSubsetOf`, where neither side is a tree. -/
def isSubsetOfLeaf (lhs rhs : MatchExpression) : Bool :=
  lhs.equivalent rhs ||
    match rhs with
    | .comparison c => isSubsetOfComparison lhs c
    | .exists path => isSubsetOfExists lhs path
    | _ => false

mutual
/-- `expression::isSubsetOf` for a right side that is no conjunction. -/
def isSubsetOfClause : MatchExpression → MatchExpression → Bool
  | .and children, rhs => (MatchExpression.and children).equivalent rhs || anyIsSubsetOf children rhs
  | .or children, rhs => (MatchExpression.or children).equivalent rhs || allAreSubsetsOf children rhs
  | lhs, rhs => isSubsetOfLeaf lhs rhs
def anyIsSubsetOf : List MatchExpression → MatchExpression → Bool
  | [], _ => false
  | child :: rest, rhs => isSubsetOfClause child rhs || anyIsSubsetOf rest rhs
def allAreSubsetsOf : List MatchExpression → MatchExpression → Bool
  | [], _ => true
  | child :: rest, rhs => isSubsetOfClause child rhs && allAreSubsetsOf rest rhs
end

mutual
/-- `expression::isSubsetOf`: the documents that match `lhs` are among those that match `rhs`. -/
def isSubsetOf (lhs : MatchExpression) : MatchExpression → Bool
  | .and children => lhs.equivalent (.and children) || isSubsetOfAll lhs children
  | rhs => isSubsetOfClause lhs rhs
def isSubsetOfAll (lhs : MatchExpression) : List MatchExpression → Bool
  | [] => true
  | child :: rest => isSubsetOf lhs child && isSubsetOfAll lhs rest
end

/-- `_checkValidFilterExpressions`: the clauses a partial index may filter by. -/
def isFilterClause : MatchExpression → Bool
  | .comparison _ | .exists _ | .typeOperator _ => true
  | _ => false

/-- A filter of a partial index: one clause, or a conjunction of clauses at top level. -/
def checkValidFilterExpressions : MatchExpression → Bool
  | .and children => children.all isFilterClause
  | e => isFilterClause e

def filterClauses : MatchExpression → List MatchExpression
  | .and children => children
  | e => [e]

/-! Comparisons: what matches the first matches the second, element by element. -/

section
variable {l r : ComparisonMatchExpression}

theorem within_sound : ∀ {a b : Comparison} {x y z : Ordering}, Chained x y z → a.within b y →
    a.holds x → b.holds z := by
  intro a b
  cases a <;> cases b <;> decide

theorem within_supportsEquality : ∀ {a b : Comparison}, a.within b .eq →
    a.supportsEquality → b.supportsEquality := by
  intro a b
  cases a <;> cases b <;> decide

theorem within_ne_eq : ∀ {a b : Comparison} {y : Ordering}, a.within b y → a ≠ .eq → b ≠ .eq := by
  intro a b y
  cases a <;> cases b <;> cases y <;> decide

theorem rhs_eq_null_of_sum {c : ComparisonMatchExpression} {w : Value}
    (hne : w.canonicalType ≠ c.rhs.canonicalType)
    (hsum : w.canonicalType + c.rhs.canonicalType = 5) : c.rhs = .null := by
  have hu := rhs_ne_undefined c
  cases hr : c.rhs <;> simp only [hr, Value.canonicalType] at hsum hne ⊢ <;>
    first | exact absurd hr hu | (cases w <;> simp at hsum)

theorem isSubsetOfComparisons_cases (h : isSubsetOfComparisons l r) :
    l.path = r.path ∧ l.rhs.canonicalType = r.rhs.canonicalType ∧
      ((l.rhs.isNaN ∧ r.rhs.isNaN ∧ l.matchType.supportsEquality ∧
          r.matchType.supportsEquality) ∨
        (l.rhs.isNaN = false ∧ r.rhs.isNaN = false ∧
          l.matchType.within r.matchType (l.rhs.woCompare r.rhs))) := by
  unfold isSubsetOfComparisons at h
  split at h
  · cases h
  next hpath =>
    split at h
    · cases h
    next hct =>
      rw [not_not] at hpath hct
      refine ⟨hpath, hct, ?_⟩
      rw [woCompare_of_canonicalType_eq hct]
      split at h
      next =>
        split at h
        next heq =>
          simp only [Bool.and_eq_true] at h heq
          exact .inl ⟨h.1, h.2, heq.1, heq.2⟩
        · cases h
      next hn =>
        simp only [Bool.or_eq_true, not_or, Bool.not_eq_true] at hn
        exact .inr ⟨hn.1, hn.2, h⟩

/-- A missing field is compared as an undefined value. -/
theorem matchesSingleElement_getD (c : ComparisonMatchExpression) (e : Option Value) :
    c.matchesSingleElement e = c.matchesSingleElement (some (e.getD .undefined)) := by
  cases e <;> rfl

theorem key_of_canonicalType_eq (hct : l.rhs.canonicalType = r.rhs.canonicalType)
    (hk : l.rhs = .maxKey ∨ l.rhs = .minKey) : r.rhs = .maxKey ∨ r.rhs = .minKey := by
  rcases hk with hk | hk <;> rw [hk] at hct <;> cases hr : r.rhs <;> simp_all [Value.canonicalType]

theorem isSubsetOfComparisons_sound (h : isSubsetOfComparisons l r) {e : Option Value}
    (hm : l.matchesSingleElement e) : r.matchesSingleElement e := by
  obtain ⟨-, hct, hcase⟩ := isSubsetOfComparisons_cases h
  rw [matchesSingleElement_getD] at hm ⊢
  generalize e.getD .undefined = w at hm ⊢
  by_cases hw : w.canonicalType = l.rhs.canonicalType
  · rw [matches_of_canonicalType_eq hw] at hm
    rw [matches_of_canonicalType_eq (hw.trans hct)]
    obtain ⟨hl, hr, hle, hre⟩ | ⟨hl, hr, hwithin⟩ := hcase
    · have hwn : w.isNaN := hm.2.trans hl
      refine ⟨?_, hwn.trans hr.symm⟩
      rw [woCompare_of_isNaN hwn hr]
      cases hb : r.matchType <;> simp_all [Comparison.holds, Comparison.supportsEquality]
    · refine ⟨within_sound ?_ hwithin hm.1, hm.2.trans (hl.trans hr.symm)⟩
      exact chained_of_transCmp _ _ _
  · rw [matches_of_canonicalType_ne hw] at hm
    rw [matches_of_canonicalType_ne (fun he => hw (he.trans hct.symm)), ← hct]
    obtain ⟨hsum, hle⟩ | ⟨hsum, hkey, hne⟩ := hm
    · have hln := rhs_eq_null_of_sum hw hsum
      have hrn : r.rhs = .null := by
        apply @rhs_eq_null_of_sum r w
        · exact fun he => hw (he.trans hct.symm)
        · rw [← hct]
          exact hsum
      obtain ⟨hl, -⟩ | ⟨-, -, hwithin⟩ := hcase
      · rw [hln] at hl
        cases hl
      · rw [hln, hrn] at hwithin
        exact .inl ⟨hsum, within_supportsEquality hwithin hle⟩
    · obtain ⟨hl, -⟩ | ⟨-, -, hwithin⟩ := hcase
      · rcases hkey with hk | hk <;> rw [hk] at hl <;> cases hl
      · exact .inr ⟨hsum, key_of_canonicalType_eq hct hkey, within_ne_eq hwithin hne⟩

end

/-! Where the test is wrong. -/

/-- The node satisfies the test for the clause, and yet documents outside of the clause match it:
comparisons with MinKey or MaxKey, `$type: 0` and, where a path ends in an empty array, negated
nulls hold of missing fields; and a `$type` is taken for the one of all numbers if its number is
the one left in memory there. -/
def unsoundLeaf : MatchExpression → MatchExpression → Bool
  | .exists path, .comparison c =>
    c.path = path && c.matchType ≠ .eq && (c.rhs.type = 127 || c.rhs.type = -1)
  | .exists path, .typeOperator t => t.path = path && !t.matchesAllNumbers && t.type = 0
  | .exists path, .not (.comparison c) => c.path = path && c.matchType = .eq && c.rhs.type = 10
  | .exists path, .not (.matchIn p entries) => p = path && entries.hasNull
  | .typeOperator u, .typeOperator t =>
    t.path = u.path && u.matchesAllNumbers && !t.matchesAllNumbers && t.type = u.type &&
      !(t.type = 1 || t.type = 16 || t.type = 18)
  | _, _ => false

mutual
/-- Such a node stands in the query under conjunctions and disjunctions. -/
def unsoundFor (clause : MatchExpression) : MatchExpression → Bool
  | .and children | .or children => anyUnsoundFor clause children
  | lhs => unsoundLeaf clause lhs
def anyUnsoundFor (clause : MatchExpression) : List MatchExpression → Bool
  | [] => false
  | child :: rest => unsoundFor clause child || anyUnsoundFor clause rest
end

section Clauses
variable {engines : Engines} {doc : Obj} {path : Bytes} {clause lhs : MatchExpression}

theorem leafMatches_mono {p q : Option Value → Bool} (hpq : ∀ e, p e → q e)
    (h : leafMatches path p doc) : leafMatches path q doc := by
  simp only [leafMatches, any_eq_true] at h ⊢
  obtain ⟨c, hc, hp⟩ := h
  exact ⟨c, hc, hpq _ hp⟩

theorem matches_congr {l r : ComparisonMatchExpression} (ht : l.matchType = r.matchType)
    (hv : l.rhs.woCompare r.rhs = .eq) {e : Option Value} (h : l.matchesSingleElement e) :
    r.matchesSingleElement e := by
  have hct := canonicalType_of_woCompare_eq hv
  rw [matchesSingleElement_getD] at h ⊢
  generalize e.getD .undefined = w at h ⊢
  by_cases hw : w.canonicalType = l.rhs.canonicalType
  · rw [matches_of_canonicalType_eq hw] at h
    rw [matches_of_canonicalType_eq (hw.trans hct), ← ht, ← isNaN_of_woCompare_eq hv,
      ← Std.TransCmp.congr_right hv]
    exact h
  · rw [matches_of_canonicalType_ne hw] at h
    rw [matches_of_canonicalType_ne (fun he => hw (he.trans hct.symm)), ← hct, ← ht]
    exact h.imp_right fun ⟨hs, hk, hne⟩ => ⟨hs, key_of_canonicalType_eq hct hk, hne⟩

theorem entry_matches_equality (path : Bytes) {entries : ArrayFilterEntries} {e : Option Value}
    (hr : entries.regexes = []) (h : entries.matchesSingleElement engines.partialMatch e) :
    ∃ f, ∃ hf : f ∈ entries.equalities,
      (⟨.eq, path, f.2, entries.accepts hf⟩ : ComparisonMatchExpression).matchesSingleElement e := by
  simp only [ArrayFilterEntries.matchesSingleElement, hr, any_nil, Bool.or_false,
    Bool.or_eq_true, Bool.and_eq_true] at h
  obtain ⟨hn, he⟩ | hc := h
  · simp only [ArrayFilterEntries.hasNull, any_eq_true, decide_eq_true_eq] at hn
    obtain ⟨f, hf, ht⟩ := hn
    have hv : f.2 = .null := by
      cases hf2 : f.2 <;> simp [hf2, Value.type] at ht
      rfl
    refine ⟨f, hf, ?_⟩
    cases e with
    | some v => cases he
    | none => simp [ComparisonMatchExpression.matchesSingleElement, hv, Value.canonicalType,
        Comparison.supportsEquality]
  · cases e with
    | none => cases hc
    | some v =>
      simp only [ArrayFilterEntries.contains, any_eq_true, decide_eq_true_eq] at hc
      obtain ⟨f, hf, hv⟩ := hc
      refine ⟨f, hf, ?_⟩
      have hv' : v.woCompare f.2 = .eq := Std.OrientedCmp.eq_symm hv
      rw [matches_of_canonicalType_eq (canonicalType_of_woCompare_eq hv')]
      exact ⟨by simp [Comparison.holds, hv'], isNaN_of_woCompare_eq hv'⟩

theorem isSubsetOfComparison_sound {r : ComparisonMatchExpression}
    (h : isSubsetOfComparison lhs r) (hm : lhs.matchesBSON engines doc) :
    leafMatches r.path r.matchesSingleElement doc := by
  unfold isSubsetOfComparison at h
  split at h
  · cases h
  next hpath =>
    rw [not_not] at hpath
    rw [← hpath]
    split at h
    next c => exact leafMatches_mono (fun e he => isSubsetOfComparisons_sound h he) hm
    next p entries =>
      split at h
      · cases h
      next hr =>
        have hr : entries.regexes = [] := by simpa using hr
        simp only [all_eq_true] at h
        refine leafMatches_mono (fun e he => ?_) hm
        obtain ⟨f, hf, hfe⟩ := entry_matches_equality p hr he
        exact isSubsetOfComparisons_sound (h ⟨f, hf⟩ (mem_attach _ _)) hfe
    · cases h

/-- A predicate that no missing field satisfies. -/
theorem exists_of_leafMatches {p : Option Value → Bool} (hp : p none = false)
    (h : leafMatches path p doc) : leafMatches path Option.isSome doc := by
  refine leafMatches_mono (fun e he => ?_) h
  cases e with
  | none => rw [hp] at he; cases he
  | some v => rfl

theorem exists_of_arrayMatches {matchesArray : Obj → Bool}
    (h : arrayMatches path matchesArray doc) : leafMatches path Option.isSome doc := by
  simp only [arrayMatches, leafMatches, any_eq_true] at h ⊢
  obtain ⟨c, hc, hm⟩ := h
  refine ⟨c, BSONElementIterator.elements_subset doc _ hc, ?_⟩
  cases he : c.element with
  | none => simp [he, arrayMatchesSingleElement] at hm
  | some v => rfl

theorem matches_none_iff {c : ComparisonMatchExpression} (hn : c.rhs.type ≠ 10)
    (h : c.matchesSingleElement none) :
    c.matchType ≠ .eq ∧ (c.rhs.type = 127 ∨ c.rhs.type = -1) := by
  have hct : Value.undefined.canonicalType ≠ c.rhs.canonicalType := by
    have := rhs_ne_undefined c
    cases hr : c.rhs <;> simp_all [Value.canonicalType]
  rw [matches_none, matches_of_canonicalType_ne hct] at h
  obtain ⟨hsum, -⟩ | ⟨-, hk, hne⟩ := h
  · rw [rhs_eq_null_of_sum hct hsum] at hn
    exact absurd rfl hn
  · refine ⟨hne, ?_⟩
    rcases hk with hk | hk <;> simp [hk, Value.type]

theorem isSubsetOfExists_not {child : MatchExpression} (h : isSubsetOfExists (.not child) path) :
    unsoundLeaf (.exists path) (.not child) := by
  simp only [isSubsetOfExists] at h
  split at h
  · cases h
  next hpath =>
    rw [not_not] at hpath
    cases child <;> simp_all [unsoundLeaf, MatchExpression.path]

theorem path_eq_of_isSubsetOfExists (h : isSubsetOfExists lhs path)
    (hnot : ∀ child, lhs ≠ .not child) : lhs.path = path := by
  by_contra hpath
  cases lhs <;> simp_all [isSubsetOfExists]

theorem isSubsetOfExists_sound (h : isSubsetOfExists lhs path) (hm : lhs.matchesBSON engines doc) :
    leafMatches path Option.isSome doc ∨ unsoundLeaf (.exists path) lhs := by
  by_cases hnot : ∃ child, lhs = .not child
  · obtain ⟨child, rfl⟩ := hnot
    exact .inr (isSubsetOfExists_not h)
  obtain rfl := path_eq_of_isSubsetOfExists h fun child he => hnot ⟨child, he⟩
  cases lhs with
  | comparison c =>
    by_cases hnone : c.matchesSingleElement none
    · have hn : c.rhs.type ≠ 10 := by simpa [isSubsetOfExists] using h
      have := matches_none_iff hn hnone
      exact .inr (by simp [unsoundLeaf, this, MatchExpression.path])
    · exact .inl (exists_of_leafMatches (by simpa using hnone) hm)
  | typeOperator t =>
    by_cases hnone : t.matchesSingleElement none
    · refine .inr ?_
      simp only [TypeMatchExpression.matchesSingleElement] at hnone
      split at hnone
      · cases hnone
      next ha =>
        simp only [Option.map_none, Option.getD_none, decide_eq_true_eq] at hnone
        simp [unsoundLeaf, ha, ← hnone, MatchExpression.path]
    · left
      have hleaf : leafMatches t.path t.matchesSingleElement doc := by
        simp only [matchesBSON, TypeMatchExpression.matchesBSON, leafMatches,
          any_eq_true, Bool.and_eq_true] at hm ⊢
        obtain ⟨c, hc, -, hm⟩ := hm
        exact ⟨c, hc, hm⟩
      exact exists_of_leafMatches (by simpa using hnone) hleaf
  | elemMatchObject p sub | elemMatchValue p subs | size p n =>
    exact .inl (exists_of_arrayMatches hm)
  | regex p re | mod m | geo g => exact .inl (exists_of_leafMatches rfl hm)
  | «exists» p => exact .inl hm
  | matchIn p entries =>
    have hn : entries.hasNull = false := by simpa [isSubsetOfExists] using h
    refine .inl (exists_of_leafMatches ?_ hm)
    simp [ArrayFilterEntries.matchesSingleElement, hn, ArrayFilterEntries.contains,
      Regex.matchesSingleElement]
  | not child => exact absurd ⟨child, rfl⟩ hnot
  | _ => simp [isSubsetOfExists] at h

/-- A `$type` accepted as equivalent matches the same elements, unless it was taken for the one of
all numbers. -/
theorem typeOperator_sound {t u : TypeMatchExpression}
    (h : (MatchExpression.typeOperator t).equivalent (.typeOperator u))
    (hm : t.matchesBSON doc) :
    u.matchesBSON doc ∨ unsoundLeaf (.typeOperator u) (.typeOperator t) := by
  simp only [equivalent, Bool.and_eq_true, decide_eq_true_eq] at h
  obtain ⟨hpath, htype⟩ := h
  simp only [TypeMatchExpression.matchesBSON, any_eq_true, Bool.and_eq_true] at hm ⊢
  rw [← hpath]
  obtain ⟨c, hc, hlook, hm⟩ := hm
  -- a number is never handed out as an array
  have hnumber : (c.element.map Value.isNumber).getD false → u.looksAt c := by
    intro hn
    simp only [TypeMatchExpression.looksAt, Bool.not_eq_true', Bool.and_eq_false_iff]
    right
    by_contra ho
    rw [Bool.not_eq_false] at ho
    rcases BSONElementIterator.outerArray_cases hc ho with ⟨fields, he⟩ | ⟨arr, he⟩ <;>
      simp [he, Value.isNumber] at hn
  cases ht : t.matchesAllNumbers with
  | true =>
    simp only [ht, ite_true] at htype
    simp only [TypeMatchExpression.matchesSingleElement, ht, ite_true] at hm
    exact .inl ⟨c, hc, hnumber hm, by simpa [TypeMatchExpression.matchesSingleElement, htype]⟩
  | false =>
    simp only [ht, Bool.false_eq_true, ite_false, decide_eq_true_eq] at htype
    simp only [TypeMatchExpression.matchesSingleElement, ht, Bool.false_eq_true, ite_false,
      decide_eq_true_eq] at hm
    cases hu : u.matchesAllNumbers with
    | false =>
      refine .inl ⟨c, hc, ?_, ?_⟩
      · simpa [TypeMatchExpression.looksAt, ← htype] using hlook
      · simp [TypeMatchExpression.matchesSingleElement, hu, hm, htype]
    | true =>
      by_cases hn : t.type = 1 ∨ t.type = 16 ∨ t.type = 18
      · have hnum : (c.element.map Value.isNumber).getD false := by
          cases he : c.element with
          | none => rw [he] at hm; simp only [Option.map_none, Option.getD_none] at hm; omega
          | some v =>
            rw [he] at hm
            rw [← hm] at hn
            cases v <;> simp [Value.type] at hn <;> rfl
        exact .inl ⟨c, hc, hnumber hnum, by simpa [TypeMatchExpression.matchesSingleElement, hu]⟩
      · right
        simp only [not_or] at hn
        simp [unsoundLeaf, hpath, hu, ht, ← htype, hn]

/-- What `isSubsetOf` accepts as equivalent to a clause matches it. -/
theorem equivalent_sound (h : lhs.equivalent clause) (hclause : isFilterClause clause)
    (hm : lhs.matchesBSON engines doc) :
    clause.matchesBSON engines doc ∨ unsoundLeaf clause lhs := by
  cases clause with
  | comparison r =>
    cases lhs <;> simp [equivalent] at h
    next l =>
      left
      obtain ⟨⟨ht, hp⟩, hv⟩ := h
      simp only [matchesBSON] at hm ⊢
      rw [← hp]
      exact leafMatches_mono (fun e he => matches_congr ht hv he) hm
  | «exists» p =>
    cases lhs <;> simp [equivalent] at h
    next q =>
      rw [h] at hm
      exact .inl hm
  | typeOperator u =>
    cases lhs <;> try (simp [equivalent] at h; done)
    next t => exact typeOperator_sound h hm
  | _ => cases hclause

theorem isSubsetOfLeaf_sound (hclause : isFilterClause clause) (h : isSubsetOfLeaf lhs clause)
    (hm : lhs.matchesBSON engines doc) :
    clause.matchesBSON engines doc ∨ unsoundLeaf clause lhs := by
  rcases Bool.or_eq_true_iff.mp h with h | h
  · exact equivalent_sound h hclause hm
  · cases clause with
    | comparison r => exact .inl (isSubsetOfComparison_sound h hm)
    | «exists» p => exact isSubsetOfExists_sound h hm
    | _ => cases h

theorem not_equivalent_clause {children : List MatchExpression} (hclause : isFilterClause clause) :
    (MatchExpression.and children).equivalent clause = false ∧
      (MatchExpression.or children).equivalent clause = false := by
  cases clause <;> simp_all [isFilterClause, equivalent]

mutual
/-- By recursion over the query: a conjunction needs one sound child, a disjunction only sound
ones. -/
theorem isSubsetOfClause_sound (hclause : isFilterClause clause) : ∀ (lhs : MatchExpression),
    isSubsetOfClause lhs clause → lhs.matchesBSON engines doc →
      clause.matchesBSON engines doc ∨ unsoundFor clause lhs
  | .and children, h, hm => by
    simp only [isSubsetOfClause, (not_equivalent_clause hclause).1, Bool.false_or] at h
    exact anyIsSubsetOf_sound hclause children h hm
  | .or children, h, hm => by
    simp only [isSubsetOfClause, (not_equivalent_clause hclause).2, Bool.false_or] at h
    exact allAreSubsetsOf_sound hclause children h hm
  | .nor _, h, hm | .not _, h, hm | .elemMatchObject _ _, h, hm | .elemMatchValue _ _, h, hm
  | .size _ _, h, hm | .comparison _, h, hm | .regex _ _, h, hm | .mod _, h, hm
  | .exists _, h, hm | .matchIn _ _, h, hm | .typeOperator _, h, hm | .bits _, h, hm
  | .geo _, h, hm | .geoNear _, h, hm | .where _, h, hm | .text _, h, hm | .atomic, h, hm
  | .alwaysFalse, h, hm => isSubsetOfLeaf_sound hclause h hm
theorem anyIsSubsetOf_sound (hclause : isFilterClause clause) : ∀ (children : List MatchExpression),
    anyIsSubsetOf children clause → MatchExpression.allMatch engines children doc →
      clause.matchesBSON engines doc ∨ anyUnsoundFor clause children
  | [], h, _ => by cases h
  | child :: rest, h, hm => by
    simp only [MatchExpression.allMatch, Bool.and_eq_true] at hm
    simp only [anyUnsoundFor, Bool.or_eq_true]
    rcases Bool.or_eq_true_iff.mp h with h | h
    · exact (isSubsetOfClause_sound hclause child h hm.1).imp_right .inl
    · exact (anyIsSubsetOf_sound hclause rest h hm.2).imp_right .inr
theorem allAreSubsetsOf_sound (hclause : isFilterClause clause) :
    ∀ (children : List MatchExpression), allAreSubsetsOf children clause →
      MatchExpression.anyMatches engines children doc →
        clause.matchesBSON engines doc ∨ anyUnsoundFor clause children
  | [], _, hm => by cases hm
  | child :: rest, h, hm => by
    simp only [allAreSubsetsOf, Bool.and_eq_true] at h
    simp only [anyUnsoundFor, Bool.or_eq_true]
    rcases Bool.or_eq_true_iff.mp hm with hm | hm
    · exact (isSubsetOfClause_sound hclause child h.1 hm).imp_right .inl
    · exact (allAreSubsetsOf_sound hclause rest h.2 hm).imp_right .inr
end

end Clauses

section Filters
variable {engines : Engines} {doc : Obj}

theorem matches_filter_iff {filter : MatchExpression} :
    filter.matchesBSON engines doc ↔
      ∀ clause ∈ filterClauses filter, clause.matchesBSON engines doc := by
  cases filter <;> simp only [filterClauses, mem_singleton, forall_eq]
  next children =>
    exact allMatch_iff engines

theorem isFilterClause_of_mem {filter clause : MatchExpression}
    (h : checkValidFilterExpressions filter) (hc : clause ∈ filterClauses filter) :
    isFilterClause clause := by
  cases filter with
  | and children => exact all_eq_true.mp h clause hc
  | _ =>
    rw [mem_singleton.mp hc]
    exact h

theorem isSubsetOf_clause {lhs clause : MatchExpression} (hclause : isFilterClause clause) :
    isSubsetOf lhs clause = isSubsetOfClause lhs clause := by
  cases clause <;> first | rfl | cases hclause

theorem filterClause_cases {f : MatchExpression} (hf : isFilterClause f) :
    (∃ c, f = .comparison c) ∨ (∃ p, f = .exists p) ∨ ∃ t, f = .typeOperator t := by
  cases f with
  | comparison c => exact .inl ⟨c, rfl⟩
  | «exists» p => exact .inr (.inl ⟨p, rfl⟩)
  | typeOperator t => exact .inr (.inr ⟨t, rfl⟩)
  | _ => cases hf

theorem isSubsetOfAll_iff {e : MatchExpression} {fs : List MatchExpression} :
    isSubsetOfAll e fs ↔ ∀ f ∈ fs, isSubsetOf e f := by
  induction fs with
  | nil => simp [isSubsetOfAll]
  | cons f fs ih => simp [isSubsetOfAll, ih]

/-- Clauses of an equivalent conjunction pass the test one by one. -/
theorem isSubsetOf_of_equivalent {a : MatchExpression} {fs : List MatchExpression} (hfs : fs.all isFilterClause)
    (h : a.equivalent (.and fs)) : ∀ f ∈ fs, isSubsetOf a f := by
  have hlists : ∀ {ls : List MatchExpression} {fs : List MatchExpression}, fs.all isFilterClause →
      equivalentLists ls fs → ∀ f ∈ fs, anyIsSubsetOf ls f := by
    intro ls fs hfs h
    induction fs generalizing ls with
    | nil => simp
    | cons g gs ih =>
      cases ls with
      | nil => cases h
      | cons l ls =>
        rw [all_cons, Bool.and_eq_true] at hfs
        rw [equivalentLists, Bool.and_eq_true] at h
        intro f hf
        rw [anyIsSubsetOf, Bool.or_eq_true]
        rcases mem_cons.mp hf with rfl | hf
        · left
          have hleaf : isSubsetOfLeaf l f := by
            unfold isSubsetOfLeaf
            rw [h.1, Bool.true_or]
          obtain ⟨c, rfl⟩ | ⟨p, rfl⟩ | ⟨t, rfl⟩ := filterClause_cases hfs.1 <;>
            cases l <;> first | exact hleaf | cases h.1
        · exact .inr (ih hfs.2 h.2 f hf)
  cases a with
  | and ls =>
    intro f hf
    rw [isSubsetOf_clause (all_eq_true.mp hfs f hf), isSubsetOfClause,
      hlists hfs h f hf, Bool.or_true]
  | _ => cases h

theorem isSubsetOf_filter_iff {a filter : MatchExpression}
    (hvalid : checkValidFilterExpressions filter) :
    isSubsetOf a filter ↔ ∀ f ∈ filterClauses filter, isSubsetOfClause a f := by
  have hclauses : (∀ f ∈ filterClauses filter, isSubsetOfClause a f) ↔
      ∀ f ∈ filterClauses filter, isSubsetOf a f := by
    refine forall₂_congr fun f hf => ?_
    rw [isSubsetOf_clause (isFilterClause_of_mem hvalid hf)]
  rw [hclauses]
  cases filter with
  | and fs =>
    rw [isSubsetOf, Bool.or_eq_true, isSubsetOfAll_iff]
    exact ⟨fun h => h.elim (isSubsetOf_of_equivalent hvalid) id, .inr⟩
  | _ => simp [filterClauses]

/-- A document that matches the query is in the partial index exactly if it meets those clauses of
the filter for which the query has a node that the test wrongly accepts. -/
theorem isSubsetOf_contains_results_iff (engines : Engines) (query filter : MatchExpression)
    (doc : Obj) (hfilter : checkValidFilterExpressions filter) (h : isSubsetOf query filter)
    (hm : query.matchesBSON engines doc) :
    filter.matchesBSON engines doc ↔
      ∀ clause ∈ filterClauses filter, unsoundFor clause query →
        clause.matchesBSON engines doc := by
  rw [matches_filter_iff]
  constructor
  · intro hall clause hc _
    exact hall clause hc
  · intro hall clause hc
    rcases isSubsetOfClause_sound (isFilterClause_of_mem hfilter hc) query
        ((isSubsetOf_filter_iff hfilter).mp h clause hc) hm with hok | hu
    · exact hok
    · exact hall clause hc hu

/-- No regular expression, geometry or script matches anything. -/
def noEngines : Engines := ⟨fun _ _ => false, fun _ _ => false, fun _ _ => false⟩

def fieldA : Bytes := [97]

def aGreaterThanFive : MatchExpression :=
  .comparison ⟨.gt, fieldA, .numberInt 5, by decide⟩

def aExistsAndAtLeastThree : MatchExpression :=
  .and [.exists fieldA, .comparison ⟨.gte, fieldA, .numberInt 3, by decide⟩]

theorem isSubsetOf_contains_results_iff_greaterThanFive :
    isSubsetOf aGreaterThanFive aExistsAndAtLeastThree ∧
    aGreaterThanFive.matchesBSON noEngines [(fieldA, .numberInt 7)] ∧
    aExistsAndAtLeastThree.matchesBSON noEngines [(fieldA, .numberInt 7)] := by
  have hsubset : isSubsetOf aGreaterThanFive aExistsAndAtLeastThree := by decide +kernel
  have hm : aGreaterThanFive.matchesBSON noEngines [(fieldA, .numberInt 7)] := by decide +kernel
  exact ⟨hsubset, hm, (isSubsetOf_contains_results_iff noEngines aGreaterThanFive
    aExistsAndAtLeastThree _ (by decide) hsubset hm).mpr (by decide +kernel)⟩

def aLessThanMaxKey : MatchExpression := .comparison ⟨.lt, fieldA, .maxKey, by decide⟩

def fieldAB : Bytes := [97, 46, 98]

def abNotNull : MatchExpression := .not (.comparison ⟨.eq, fieldAB, .null, by decide⟩)

/-- A document without `a` is below MaxKey in it, and one whose `a` is an empty array has no null
under `a.b`; neither has the field, though the test takes it to have. -/
theorem isSubsetOf_loses_results :
    (isSubsetOf aLessThanMaxKey (.exists fieldA) ∧ aLessThanMaxKey.matchesBSON noEngines [] ∧
      ¬ (MatchExpression.exists fieldA).matchesBSON noEngines []) ∧
    (isSubsetOf abNotNull (.exists fieldAB) ∧
      abNotNull.matchesBSON noEngines [(fieldA, .array [])] ∧
      ¬ (MatchExpression.exists fieldAB).matchesBSON noEngines [(fieldA, .array [])]) := by
  decide +kernel

end Filters

end MongolDb.Matcher
