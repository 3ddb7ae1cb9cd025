import MongolDb.Matcher.Leaf

/-! Match expressions and the documents they match (matcher/expression.h, expression_tree.cpp,
expression_array.cpp). -/
namespace MongolDb.Matcher
open ByteOrder Bson

/-- The types of nodes that a parsed query can hold. -/
inductive MatchType where
  | and
  | or
  | elemMatchObject
  | elemMatchValue
  | size
  | comparison (c : Comparison)
  | regex
  | mod
  | exists
  | matchIn
  | bits (b : BitTest)
  | not
  | nor
  | typeOperator
  | geo
  | where
  | atomic
  | alwaysFalse
  | geoNear
  | text
  deriving DecidableEq

inductive MatchExpression where
  | and (children : List MatchExpression)
  | or (children : List MatchExpression)
  | nor (children : List MatchExpression)
  | not (child : MatchExpression)
  | elemMatchObject (path : Bytes) (sub : MatchExpression)
  | elemMatchValue (path : Bytes) (subs : List MatchExpression)
  | size (path : Bytes) (size : Int32)
  | comparison (c : ComparisonMatchExpression)
  | regex (path : Bytes) (re : Regex)
  | mod (m : ModMatchExpression)
  | exists (path : Bytes)
  | matchIn (path : Bytes) (entries : ArrayFilterEntries)
  | typeOperator (t : TypeMatchExpression)
  | bits (b : BitTestMatchExpression)
  | geo (g : GeoMatchExpression)
  | geoNear (g : GeoNearMatchExpression)
  | where (w : WhereMatchExpression)
  | text (t : TextMatchExpression)
  | atomic
  | alwaysFalse

namespace MatchExpression

def matchType : MatchExpression → MatchType
  | .and _ => .and
  | .or _ => .or
  | .nor _ => .nor
  | .not _ => .not
  | .elemMatchObject _ _ => .elemMatchObject
  | .elemMatchValue _ _ => .elemMatchValue
  | .size _ _ => .size
  | .comparison c => .comparison c.matchType
  | .regex _ _ => .regex
  | .mod _ => .mod
  | .exists _ => .exists
  | .matchIn _ _ => .matchIn
  | .typeOperator _ => .typeOperator
  | .bits b => .bits b.matchType
  | .geo _ => .geo
  | .geoNear _ => .geoNear
  | .where _ => .where
  | .text _ => .text
  | .atomic => .atomic
  | .alwaysFalse => .alwaysFalse

/-- A logical node has no path; a text predicate reads the field that holds the text's terms. -/
def path : MatchExpression → Bytes
  | .elemMatchObject path _ | .elemMatchValue path _ | .size path _ | .regex path _
  | .exists path | .matchIn path _ => path
  | .comparison c => c.path
  | .mod m => m.path
  | .typeOperator t => t.path
  | .bits b => b.path
  | .geo g => g.path
  | .geoNear g => g.path
  | .text _ => "_fts".toUTF8.toList
  | .and _ | .or _ | .nor _ | .not _ | .where _ | .atomic | .alwaysFalse => []

def children : MatchExpression → List MatchExpression
  | .and children | .or children | .nor children | .elemMatchValue _ children => children
  | .not child | .elemMatchObject _ child => [child]
  | _ => []

theorem sizeOf_lt_of_mem_children {e c : MatchExpression} (h : c ∈ e.children) :
    sizeOf c < sizeOf e := by
  cases e with
  | and cs | or cs | nor cs | elemMatchValue _ cs =>
    have hc : sizeOf c < sizeOf cs := List.sizeOf_lt_of_mem h
    simp
    omega
  | not child | elemMatchObject _ child =>
    rw [List.mem_singleton.mp h]
    simp
  | _ => cases h

/-! A node's type says which kind of node it is. -/

section
variable {e : MatchExpression}

theorem eq_and_of_matchType (h : e.matchType = .and) : e = .and e.children := by
  cases e <;> first | rfl | cases h

theorem eq_or_of_matchType (h : e.matchType = .or) : e = .or e.children := by
  cases e <;> first | rfl | cases h

theorem eq_not_of_matchType (h : e.matchType = .not) : ∃ child, e = .not child := by
  cases e <;> first | exact ⟨_, rfl⟩ | cases h

theorem eq_elemMatchObject_of_matchType (h : e.matchType = .elemMatchObject) :
    ∃ sub, e = .elemMatchObject e.path sub := by
  cases e <;> first | exact ⟨_, rfl⟩ | cases h

theorem eq_elemMatchValue_of_matchType (h : e.matchType = .elemMatchValue) :
    e = .elemMatchValue e.path e.children := by
  cases e <;> first | rfl | cases h

theorem eq_comparison_of_matchType {k : Comparison} (h : e.matchType = .comparison k) :
    ∃ c, e = .comparison c ∧ c.matchType = k := by
  cases e <;> first | exact ⟨_, rfl, MatchType.comparison.inj h⟩ | cases h

theorem eq_matchIn_of_matchType (h : e.matchType = .matchIn) :
    ∃ entries, e = .matchIn e.path entries := by
  cases e <;> first | exact ⟨_, rfl⟩ | cases h

theorem eq_geo_of_matchType (h : e.matchType = .geo) : ∃ g, e = .geo g := by
  cases e <;> first | exact ⟨_, rfl⟩ | cases h

theorem eq_geoNear_of_matchType (h : e.matchType = .geoNear) : ∃ g, e = .geoNear g := by
  cases e <;> first | exact ⟨_, rfl⟩ | cases h

end

def isLogical (e : MatchExpression) : Bool :=
  match e.matchType with
  | .and | .or | .not | .nor => true
  | _ => false

end MatchExpression

/-! Matching. -/

/-- `LeafMatchExpression::matches`: some element on the path satisfies the predicate. -/
def leafMatches (path : Bytes) (matchesSingleElement : Option Value → Bool) (doc : Obj) : Bool :=
  (BSONElementIterator.elements true doc (FieldRef.parse path)).any fun c =>
    matchesSingleElement c.element

/-- `TypeMatchExpression::matches`. -/
def TypeMatchExpression.matchesBSON (t : TypeMatchExpression) (doc : Obj) : Bool :=
  (BSONElementIterator.elements true doc (FieldRef.parse t.path)).any fun c =>
    t.looksAt c && t.matchesSingleElement c.element

/-- `ArrayMatchingMatchExpression::matchesSingleElement`. -/
def arrayMatchesSingleElement (matchesArray : Obj → Bool) : Option Value → Bool
  | some (.array anArray) => matchesArray anArray
  | _ => false

/-- `ArrayMatchingMatchExpression::matches`: arrays at the end of the path are not traversed. -/
def arrayMatches (path : Bytes) (matchesArray : Obj → Bool) (doc : Obj) : Bool :=
  (BSONElementIterator.elements false doc (FieldRef.parse path)).any fun c =>
    arrayMatchesSingleElement matchesArray c.element

def sizeMatchesArray (size : Int32) (anArray : Obj) : Bool :=
  if size < 0 then false else (anArray.length : Int) = size.toInt

namespace MatchExpression
section Matches
variable (engines : Engines)

mutual
/-- Does the document satisfy the expression? -/
def matchesBSON : MatchExpression → Obj → Bool
  | .and children, doc => allMatch children doc
  | .or children, doc => anyMatches children doc
  | .nor children, doc => !anyMatches children doc
  | .not child, doc => !matchesBSON child doc
  | .elemMatchObject path sub, doc =>
    arrayMatches path (fun anArray => anArray.any fun inner =>
      inner.2.isABSONObj && matchesBSON sub inner.2.embedded) doc
  | .elemMatchValue path subs, doc =>
    arrayMatches path (fun anArray => anArray.any fun inner =>
      allMatchElement subs (some inner.2)) doc
  | .size path n, doc => arrayMatches path (sizeMatchesArray n) doc
  | .comparison c, doc => leafMatches c.path c.matchesSingleElement doc
  | .regex path re, doc => leafMatches path (re.matchesSingleElement engines.partialMatch) doc
  | .mod m, doc => leafMatches m.path m.matchesSingleElement doc
  | .exists path, doc => leafMatches path Option.isSome doc
  | .matchIn path entries, doc =>
    leafMatches path (entries.matchesSingleElement engines.partialMatch) doc
  | .typeOperator t, doc => t.matchesBSON doc
  | .bits b, doc => leafMatches b.path b.matchesSingleElement doc
  | .geo g, doc => leafMatches g.path (g.matchesSingleElement engines) doc
  -- these two are taken out of the tree by the planner
  | .geoNear g, doc => leafMatches g.path (fun _ => true) doc
  | .text _, doc => leafMatches "_fts".toUTF8.toList (fun _ => true) doc
  | .where w, doc => engines.where_ w doc
  | .atomic, _ => true
  | .alwaysFalse, _ => false
/-- Does the element satisfy the expression? -/
def matchesSingleElement : MatchExpression → Option Value → Bool
  | .and children, e => allMatchElement children e
  | .or children, e => anyMatchesElement children e
  | .nor children, e => !anyMatchesElement children e
  | .not child, e => !matchesSingleElement child e
  | .elemMatchObject _ sub, e =>
    arrayMatchesSingleElement (fun anArray => anArray.any fun inner =>
      inner.2.isABSONObj && matchesBSON sub inner.2.embedded) e
  | .elemMatchValue _ subs, e =>
    arrayMatchesSingleElement (fun anArray => anArray.any fun inner =>
      allMatchElement subs (some inner.2)) e
  | .size _ n, e => arrayMatchesSingleElement (sizeMatchesArray n) e
  | .comparison c, e => c.matchesSingleElement e
  | .regex _ re, e => re.matchesSingleElement engines.partialMatch e
  | .mod m, e => m.matchesSingleElement e
  | .exists _, e => e.isSome
  | .matchIn _ entries, e => entries.matchesSingleElement engines.partialMatch e
  | .typeOperator t, e => t.matchesSingleElement e
  | .bits b, e => b.matchesSingleElement e
  | .geo g, e => g.matchesSingleElement engines e
  | .geoNear _, _ | .text _, _ | .atomic, _ => true
  | .where _, _ | .alwaysFalse, _ => false
def allMatch : List MatchExpression → Obj → Bool
  | [], _ => true
  | child :: rest, doc => matchesBSON child doc && allMatch rest doc
def anyMatches : List MatchExpression → Obj → Bool
  | [], _ => false
  | child :: rest, doc => matchesBSON child doc || anyMatches rest doc
def allMatchElement : List MatchExpression → Option Value → Bool
  | [], _ => true
  | child :: rest, e => matchesSingleElement child e && allMatchElement rest e
def anyMatchesElement : List MatchExpression → Option Value → Bool
  | [], _ => false
  | child :: rest, e => matchesSingleElement child e || anyMatchesElement rest e
end

theorem allMatch_iff {children : List MatchExpression} {doc : Obj} :
    allMatch engines children doc ↔ ∀ child ∈ children, child.matchesBSON engines doc := by
  induction children with
  | nil => simp [allMatch]
  | cons child rest ih => simp [allMatch, ih]

end Matches

mutual
def equivalent : MatchExpression → MatchExpression → Bool
  | .and l, .and r | .or l, .or r | .nor l, .nor r => equivalentLists l r
  | .not l, .not r => equivalent l r
  | .elemMatchObject lp l, .elemMatchObject rp r => lp = rp && equivalent l r
  | .elemMatchValue lp l, .elemMatchValue rp r => lp = rp && equivalentLists l r
  | .size lp l, .size rp r => lp = rp && l = r
  | .comparison l, .comparison r =>
    l.matchType = r.matchType && l.path = r.path && l.rhs.woCompare r.rhs = .eq
  | .regex lp l, .regex rp r => lp = rp && l = r
  | .mod l, .mod r => l.path = r.path && l.divisor = r.divisor && l.remainder = r.remainder
  | .exists lp, .exists rp => lp = rp
  | .matchIn lp l, .matchIn rp r => lp = rp && l.equivalent r
  | .typeOperator l, .typeOperator r =>
    l.path = r.path && if l.matchesAllNumbers then r.matchesAllNumbers else l.type = r.type
  | .bits l, .bits r =>
    l.matchType = r.matchType && l.path = r.path &&
      l.bitPositions.mergeSort = r.bitPositions.mergeSort
  | .geo l, .geo r | .geoNear l, .geoNear r =>
    l.path = r.path && woCompare compareAsDates l.rawObj r.rawObj = .eq
  | .where l, .where r =>
    l.dbName = r.dbName && l.code = r.code && woCompare compareAsDates l.userScope r.userScope = .eq
  | .text l, .text r => l = r
  | .atomic, .atomic => true
  | .alwaysFalse, .alwaysFalse => true
  | _, _ => false
def equivalentLists : List MatchExpression → List MatchExpression → Bool
  | [], [] => true
  | l :: ls, r :: rs => equivalent l r && equivalentLists ls rs
  | _, _ => false
end

end MatchExpression

end MongolDb.Matcher
