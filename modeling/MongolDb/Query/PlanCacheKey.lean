import MongolDb.Lib.SortedMap
import MongolDb.Query.IndexSelect

/-! The key under which the plan cache keeps the plan of a query (query/plan_cache.cpp,
query/plan_cache_indexability.cpp). -/

namespace MongolDb.Bson

/-- `BSONElement::numberInt()`: of a double out of range the processor yields the least integer,
of a long the lower half. -/
def Value.asInt : Value → Int
  | .numberDouble d =>
    if d.isNaN then -2 ^ 31
    else if -2 ^ 31 ≤ d.truncInt ∧ d.truncInt < 2 ^ 31 then d.truncInt
    else -2 ^ 31
  | .numberInt n => n.toInt
  | .numberLong n => n.toInt32.toInt
  | _ => 0

def Value.isSimpleType : Value → Bool
  | .numberLong _ | .numberDouble _ | .numberInt _ | .string _ | .bool _ | .date _ | .oid _ => true
  | _ => false

def Value.trueValue : Value → Bool
  | .numberLong n => n ≠ 0
  | .numberDouble d => !d.eq (Binary64.ofInt 0)
  | .numberInt n => n ≠ 0
  | .bool b => b
  | .null | .undefined => false
  | _ => true

end MongolDb.Bson

namespace MongolDb.Query
open ByteOrder Bson Matcher Branching List

/-- What a query asks for beside its predicates, as far as the plan cache reads it. -/
structure CanonicalQuery where
  root : MatchExpression
  sort : Obj
  proj : Obj
  hint : Obj
  min : Obj
  max : Obj
  isExplain : Bool
  isTailable : Bool
  isSnapshot : Bool

/-! Facts about operands that the key records, per path. -/

abbrev IndexabilityDiscriminator := MatchExpression → Bool

/-- `PlanCacheIndexabilityState`: for each path its discriminators, in the order of the indexes. -/
abbrev PathDiscriminatorsMap := List (Bytes × IndexabilityDiscriminator)

namespace PlanCacheIndexabilityState

def sparseDiscriminator : IndexabilityDiscriminator
  | .comparison c => if c.matchType = .eq then c.rhs.type ≠ 10 else true
  | .matchIn _ entries => !entries.hasNull
  | _ => true

def processSparseIndex (keyPattern : Obj) : PathDiscriminatorsMap :=
  keyPattern.map fun elem => (elem.1, sparseDiscriminator)

def processPartialIndex (filterExpr : MatchExpression) : PathDiscriminatorsMap :=
  (filterExpr.children.attach.flatMap fun c => processPartialIndex c.1) ++
    if filterExpr.isLogical then []
    else [(filterExpr.path, fun queryExpr => isSubsetOf queryExpr filterExpr)]
termination_by sizeOf filterExpr
decreasing_by exact MatchExpression.sizeOf_lt_of_mem_children c.2

def updateDiscriminators (indexEntries : List IndexEntry) : PathDiscriminatorsMap :=
  indexEntries.flatMap fun idx =>
    (if idx.sparse then processSparseIndex idx.keyPattern else []) ++
      match idx.filterExpr with
      | some filterExpr => processPartialIndex filterExpr
      | none => []

def getDiscriminators (state : PathDiscriminatorsMap) (path : Bytes) :
    List IndexabilityDiscriminator :=
  (state.filter fun d => d.1 = path).map Prod.snd

/-- The facts about a node that its key records. -/
def answers (state : PathDiscriminatorsMap) (e : MatchExpression) : List Bool :=
  (getDiscriminators state e.path).map fun discriminator => discriminator e

end PlanCacheIndexabilityState

open PlanCacheIndexabilityState

namespace PlanCache

def shouldCacheQuery (query : CanonicalQuery) : Bool :=
  if query.sort.isEmpty && query.root.matchType = .and && query.root.children.isEmpty then false
  else if !query.hint.isEmpty then false
  else if !query.min.isEmpty then false
  else if !query.max.isEmpty then false
  else if query.isExplain then false
  else if query.isTailable then false
  else if query.isSnapshot then false
  else true

/-! The signs of a key. -/

def discriminatorsBegin : UInt8 := 60
def discriminatorsEnd : UInt8 := 62
def childrenBegin : UInt8 := 91
def childrenEnd : UInt8 := 93
def childrenSeparator : UInt8 := 44
def sortSection : UInt8 := 126
def projectionSection : UInt8 := 124
def backslash : UInt8 := 92

def delimiters : Bytes :=
  [discriminatorsBegin, discriminatorsEnd, childrenBegin, childrenEnd, childrenSeparator,
    sortSection, projectionSection]

theorem lawfulBEq_uint8 : LawfulBEq UInt8 := inferInstance

instance decidableMemBytes (c : UInt8) (s : Bytes) : Decidable (c ∈ s) :=
  @List.instDecidableMemOfLawfulBEq UInt8 _ lawfulBEq_uint8 c s

def encodeUserString (s : Bytes) : Bytes :=
  s.flatMap fun c => if c ∈ delimiters ∨ c = backslash then [backslash, c] else [c]

def chars (s : String) : Bytes := s.toUTF8.toList

def encodeMatchType : MatchType → Bytes
  | .and => chars "an"
  | .or => chars "or"
  | .nor => chars "nr"
  | .not => chars "nt"
  | .elemMatchObject => chars "eo"
  | .elemMatchValue => chars "ev"
  | .size => chars "sz"
  | .comparison .lte => chars "le"
  | .comparison .lt => chars "lt"
  | .comparison .eq => chars "eq"
  | .comparison .gt => chars "gt"
  | .comparison .gte => chars "ge"
  | .regex => chars "re"
  | .mod => chars "mo"
  | .exists => chars "ex"
  | .matchIn => chars "in"
  | .typeOperator => chars "ty"
  | .geo => chars "go"
  | .where => chars "wh"
  | .atomic => chars "at"
  | .alwaysFalse => chars "af"
  | .geoNear => chars "gn"
  | .text => chars "te"
  | .bits .allSet => chars "ls"
  | .bits .allClear => chars "lc"
  | .bits .anySet => chars "ys"
  | .bits .anyClear => chars "yc"

def encodePred : GeoPredicate → Bytes
  | .within => chars "wi"
  | .intersect => chars "in"
  | .invalid => chars "id"

def getDebugType : GeometryType → Bytes
  | .point => chars "pt"
  | .line => chars "ln"
  | .box => chars "bx"
  | .polygon => chars "pl"
  | .cap => chars "cc"
  | .multiPoint => chars "mp"
  | .multiLine => chars "ml"
  | .multiPolygon => chars "my"
  | .geometryCollection => chars "gc"

/-- The server stops on a coordinate system that was not set. -/
def encodeCRS : CRS → Option Bytes
  | .flat => some (chars "fl")
  | .sphere => some (chars "sp")
  | .strictSphere => some (chars "ss")
  | .unset => none

/-- `encodeGeoMatchExpression` and `encodeGeoNearMatchExpression`. -/
def encodeGeo : MatchExpression → Option Bytes
  | .geo g =>
    (encodeCRS g.geometry.getNativeCRS).map fun crs =>
      encodePred g.pred ++ getDebugType g.geometry.type ++ crs
  | .geoNear g =>
    (encodeCRS g.crs).map fun crs => (if g.isNearSphere then chars "ns" else chars "nr") ++ crs
  | _ => some []

def encodeAnswers : List Bool → Bytes
  | [] => []
  | answers =>
    discriminatorsBegin :: (answers.map fun b => if b then 49 else 48) ++ [discriminatorsEnd]

section
variable (state : PathDiscriminatorsMap)

/-- What the key says of a node itself: its type, its path, its geometry and the facts about its
operand. -/
def encodeNode (tree : MatchExpression) : Option Bytes :=
  (encodeGeo tree).map fun geo =>
    encodeMatchType tree.matchType ++ encodeUserString tree.path ++ geo ++
      encodeAnswers (answers state tree)

def encodeKeyForMatch (tree : MatchExpression) : Option Bytes :=
  (encodeNode state tree).bind fun own =>
    (tree.children.attach.mapM fun c => encodeKeyForMatch c.1).map fun children =>
      own ++ bracketed childrenBegin childrenSeparator childrenEnd children
termination_by sizeOf tree
decreasing_by exact MatchExpression.sizeOf_lt_of_mem_children c.2

def isTextScoreMeta : Value → Bool
  | .object [(name, .string s)] => name = chars "$meta" && s = chars "textScore"
  | _ => false

def encodeKeyForSort (sortObj : Obj) : Bytes :=
  if sortObj.isEmpty then []
  else
    sortSection :: [44].intercalate (sortObj.map fun elt =>
      (if isTextScoreMeta elt.2 then chars "t"
        else if elt.2.asInt = 1 then chars "a"
        else chars "d") ++ encodeUserString elt.1)

/-- `PlanCache::encodeKeyForProj`; `elementToString` is the text of a value. -/
def encodeKeyForProj (elementToString : Value → Bytes) (projObj : Obj) : Bytes :=
  -- fields that start with a dollar sign are added by the server itself
  let elements : SortedMap Bytes Value := projObj.foldl (fun elements elt =>
    if elt.1.head? = some 36 then elements else elements.put elt.1 elt.2) SortedMap.empty
  (if elements.entries.isEmpty then [] else [projectionSection]) ++
    elements.entries.flatMap fun elt =>
      (if elt.2.isSimpleType then (if elt.2.trueValue then chars "i" else chars "e")
        else encodeUserString (elementToString elt.2)) ++ encodeUserString elt.1

def computeKey (elementToString : Value → Bytes) (query : CanonicalQuery) : Option Bytes :=
  (encodeKeyForMatch state query.root).map fun key =>
    key ++ encodeKeyForSort query.sort ++ encodeKeyForProj elementToString query.proj

end

/-! Two keys that agree say the same of all nodes. -/

/-- The key says the same of both nodes. -/
structure SameKey (state : PathDiscriminatorsMap) (a b : MatchExpression) : Prop where
  matchType : a.matchType = b.matchType
  path : a.path = b.path
  geo : ∃ code, encodeGeo a = some code ∧ encodeGeo b = some code
  answers : answers state a = answers state b

theorem encodeUserString_cons (c : UInt8) (s : Bytes) :
    encodeUserString (c :: s) =
      (if c ∈ delimiters ∨ c = backslash then [backslash, c] else [c]) ++ encodeUserString s :=
  rfl

theorem encodeUserString_append (s t : Bytes) :
    encodeUserString (s ++ t) = encodeUserString s ++ encodeUserString t :=
  flatMap_append

section
variable {stop : UInt8 → Prop} (hstop : ¬ stop backslash)
include hstop

/-- A sign that ends strings and is escaped in them does not begin an encoded string. -/
theorem not_follows_encoded {c : UInt8} {s r : Bytes} (hc : stop c → c ∈ delimiters) :
    ¬ Follows stop (encodeUserString (c :: s) ++ r) := by
  intro h
  rw [encodeUserString_cons] at h
  split at h
  · exact hstop (h backslash rfl)
  next hplain => exact hplain (.inl (hc (h c rfl)))

theorem encodeUserString_tells {s t r r' : Bytes} (hs : ∀ c ∈ s, stop c → c ∈ delimiters)
    (ht : ∀ c ∈ t, stop c → c ∈ delimiters) (hr : Follows stop r) (hr' : Follows stop r')
    (h : encodeUserString s ++ r = encodeUserString t ++ r') : s = t ∧ r = r' := by
  induction s generalizing t with
  | nil =>
    cases t with
    | nil => exact ⟨rfl, h⟩
    | cons d t =>
      rw [show encodeUserString [] ++ r = r from rfl] at h
      subst h
      exact absurd hr (not_follows_encoded hstop (ht d mem_cons_self))
  | cons c s ih =>
    cases t with
    | nil =>
      rw [show encodeUserString [] ++ r' = r' from rfl] at h
      subst h
      exact absurd hr' (not_follows_encoded hstop (hs c mem_cons_self))
    | cons d t =>
      simp only [encodeUserString_cons] at h
      -- an escaped sign starts with a backslash, which no other does
      have hhead : c = d ∧ encodeUserString s ++ r = encodeUserString t ++ r' := by
        split at h <;> split at h <;>
          simp only [cons_append, nil_append, cons.injEq, true_and] at h
        · exact h
        next hd => exact absurd (Or.inr h.1.symm) hd
        next hc _ => exact absurd (Or.inr h.1) hc
        · exact h
      obtain ⟨rfl, hrest⟩ := ih (forall_mem_cons.mp hs).2
        (forall_mem_cons.mp ht).2 hhead.2
      exact ⟨by rw [hhead.1], hrest⟩

end

theorem encodeUserString_of_plain {s : Bytes} (h : ∀ c ∈ s, ¬ (c ∈ delimiters ∨ c = backslash)) :
    encodeUserString s = s := by
  induction s with
  | nil => rfl
  | cons c s ih =>
    rw [encodeUserString_cons, if_neg (h c mem_cons_self),
      ih (forall_mem_cons.mp h).2]
    rfl

/-! The codes of two signs. -/

def matchTypes : List MatchType :=
  [.and, .or, .nor, .not, .elemMatchObject, .elemMatchValue, .size, .comparison .lte,
    .comparison .lt, .comparison .eq, .comparison .gt, .comparison .gte, .regex, .mod, .exists,
    .matchIn, .typeOperator, .geo, .where, .atomic, .alwaysFalse, .geoNear, .text, .bits .allSet,
    .bits .allClear, .bits .anySet, .bits .anyClear]

theorem mem_matchTypes (t : MatchType) : t ∈ matchTypes := by
  cases t with
  | comparison c => cases c <;> simp [matchTypes]
  | bits b => cases b <;> simp [matchTypes]
  | _ => simp [matchTypes]

def geoPredicates : List GeoPredicate := [.within, .intersect, .invalid]

def geometryTypes : List GeometryType :=
  [.point, .line, .box, .polygon, .cap, .multiPoint, .multiLine, .multiPolygon,
    .geometryCollection]

def coordinateSystems : List CRS := [.flat, .sphere, .strictSphere]

/-- A code of so many signs, none of which is escaped. -/
def Plain (n : Nat) (code : Bytes) : Prop :=
  code.length = n ∧ ∀ c ∈ code, ¬ (c ∈ delimiters ∨ c = backslash)

instance decidablePlain (n : Nat) (code : Bytes) : Decidable (Plain n code) :=
  @instDecidableAnd _ _ _ (List.decidableBAll _ code)

/-- The signs that may follow the code of a node. -/
def stops : Bytes :=
  [childrenBegin, childrenEnd, childrenSeparator, sortSection, projectionSection]

/-- The tables of codes: each code has two signs, none of them is escaped in the geo codes, and the
codes of one table differ. -/
theorem codes_spec :
    (∀ t ∈ matchTypes, (encodeMatchType t).length = 2 ∧
      matchTypes.find? (fun u => encodeMatchType u = encodeMatchType t) = some t) ∧
    (∀ p ∈ geoPredicates, Plain 2 (encodePred p) ∧
      geoPredicates.find? (fun u => encodePred u = encodePred p) = some p) ∧
    (∀ t ∈ geometryTypes, Plain 2 (getDebugType t) ∧
      geometryTypes.find? (fun u => getDebugType u = getDebugType t) = some t) ∧
    (∀ crs ∈ coordinateSystems, Plain 2 ((encodeCRS crs).getD []) ∧
      coordinateSystems.find? (fun u => encodeCRS u = encodeCRS crs) = some crs) ∧
    Plain 2 (chars "ns") ∧ Plain 2 (chars "nr") ∧ ∀ c ∈ stops, c ∈ delimiters := by
  decide +kernel

theorem find_encodeMatchType (t : MatchType) :
    matchTypes.find? (fun u => encodeMatchType u = encodeMatchType t) = some t :=
  (codes_spec.1 t (mem_matchTypes t)).2

/-- Codes by which the members of a table are found differ. -/
theorem injective_of_find {α : Type} {table : List α} {encode : α → Bytes}
    (h : ∀ a, table.find? (fun u => encode u = encode a) = some a) : Function.Injective encode := by
  intro a b hab
  have ha := h a
  rw [hab, h b] at ha
  exact (Option.some.inj ha).symm

theorem encodeMatchType_injective : Function.Injective encodeMatchType :=
  injective_of_find find_encodeMatchType

theorem length_encodeMatchType (t : MatchType) : (encodeMatchType t).length = 2 :=
  (codes_spec.1 t (mem_matchTypes t)).1

theorem Plain.append {m n : Nat} {s t : Bytes} (hs : Plain m s) (ht : Plain n t) :
    Plain (m + n) (s ++ t) := by
  refine ⟨by rw [length_append, hs.1, ht.1], ?_⟩
  intro c hc
  rcases mem_append.mp hc with hc | hc
  · exact hs.2 c hc
  · exact ht.2 c hc

theorem encodePred_spec (p : GeoPredicate) : Plain 2 (encodePred p) ∧
    geoPredicates.find? (fun u => encodePred u = encodePred p) = some p :=
  codes_spec.2.1 p (by cases p <;> simp [geoPredicates])

theorem getDebugType_spec (t : GeometryType) : Plain 2 (getDebugType t) ∧
    geometryTypes.find? (fun u => getDebugType u = getDebugType t) = some t :=
  codes_spec.2.2.1 t (by cases t <;> simp [geometryTypes])

variable {code : Bytes}

theorem encodeCRS_spec {crs : CRS} (h : encodeCRS crs = some code) :
    Plain 2 code ∧ coordinateSystems.find? (fun u => encodeCRS u = some code) = some crs := by
  have hmem : crs ∈ coordinateSystems := by
    cases crs with
    | unset => cases h
    | _ => simp [coordinateSystems]
  have hspec := codes_spec.2.2.2.1 crs hmem
  rwa [h] at hspec

theorem encodeCRS_injective {crs crs' : CRS} (h : encodeCRS crs = some code)
    (h' : encodeCRS crs' = some code) : crs = crs' := by
  have hcrs := (encodeCRS_spec h).2
  rw [(encodeCRS_spec h').2] at hcrs
  exact (Option.some.inj hcrs).symm

def geoLength : MatchType → Nat
  | .geo => 6
  | .geoNear => 4
  | _ => 0

theorem plain_encodeGeo {e : MatchExpression} {geo : Bytes} (h : encodeGeo e = some geo) :
    Plain (geoLength e.matchType) geo := by
  have hempty : ∀ {geo : Bytes}, some [] = some geo → Plain 0 geo := by
    rintro _ ⟨⟩
    exact ⟨rfl, by simp⟩
  cases e with
  | geo g =>
    obtain ⟨crs, hcrs, rfl⟩ := Option.map_eq_some_iff.mp h
    exact ((encodePred_spec _).1.append (getDebugType_spec _).1).append (encodeCRS_spec hcrs).1
  | geoNear g =>
    obtain ⟨crs, hcrs, rfl⟩ := Option.map_eq_some_iff.mp h
    refine Plain.append ?_ (encodeCRS_spec hcrs).1
    split
    · exact codes_spec.2.2.2.2.1
    · exact codes_spec.2.2.2.2.2.1
  | _ => exact hempty h

/-! The facts about an operand. -/

theorem follows_encodeAnswers {bs : List Bool} {r : Bytes} (hr : Follows (· ∈ delimiters) r) :
    Follows (· ∈ delimiters) (encodeAnswers bs ++ r) := by
  cases bs with
  | nil => exact hr
  | cons b bs => exact follows_cons (by decide)

theorem answers_of_digits {bs cs : List Bool} {r s : Bytes}
    (h : (bs.map fun b => if b then (49 : UInt8) else 48) ++ discriminatorsEnd :: r =
      (cs.map fun b => if b then (49 : UInt8) else 48) ++ discriminatorsEnd :: s) :
    bs = cs ∧ r = s := by
  have hdigit : ∀ b : Bool, (if b then (49 : UInt8) else 48) ≠ discriminatorsEnd := by decide
  induction bs generalizing cs with
  | nil =>
    cases cs with
    | nil => exact ⟨rfl, (cons.inj h).2⟩
    | cons c cs => exact absurd (cons.inj h).1.symm (hdigit c)
  | cons b bs ih =>
    cases cs with
    | nil => exact absurd (cons.inj h).1 (hdigit b)
    | cons c cs =>
      obtain ⟨hhead, htail⟩ := cons.inj h
      obtain ⟨rfl, hrs⟩ := ih htail
      have hbc : b = c := by
        revert hhead
        cases b <;> cases c <;> decide
      exact ⟨by rw [hbc], hrs⟩

theorem encodeAnswers_tells {bs cs : List Bool} {r s : Bytes} (hr : Follows (· ∈ stops) r)
    (hs : Follows (· ∈ stops) s) (h : encodeAnswers bs ++ r = encodeAnswers cs ++ s) :
    bs = cs ∧ r = s := by
  have hbegin : ∀ {r t : Bytes}, Follows (· ∈ stops) r → r ≠ discriminatorsBegin :: t := by
    rintro r t hr rfl
    exact absurd (hr _ rfl) (by decide)
  cases bs <;> cases cs
  · exact ⟨rfl, h⟩
  · exact absurd h (hbegin hr)
  · exact absurd h.symm (hbegin hs)
  · simp only [encodeAnswers, cons_append, cons.injEq, append_assoc,
      nil_append, true_and] at h
    exact answers_of_digits h

/-! Nodes and trees. -/

variable {state : PathDiscriminatorsMap}

theorem encodeNode_tells : Tells (· ∈ stops) (encodeNode state) (SameKey state) := by
  intro a b x y r s hx hy hr hs h
  obtain ⟨g, hg, rfl⟩ := Option.map_eq_some_iff.mp hx
  obtain ⟨g', hg', rfl⟩ := Option.map_eq_some_iff.mp hy
  have hstop : ∀ {r}, Follows (· ∈ stops) r → Follows (· ∈ delimiters) r := by
    intro r hr c hc
    exact codes_spec.2.2.2.2.2.2 c (hr c hc)
  have hplain := plain_encodeGeo hg
  have hplain' := plain_encodeGeo hg'
  simp only [append_assoc] at h
  obtain ⟨htype, h⟩ := append_inj h (by simp only [length_encodeMatchType])
  have htype := encodeMatchType_injective htype
  -- the code of a geometry reads like the end of the path
  rw [← append_assoc, ← append_assoc (encodeUserString b.path),
    ← encodeUserString_of_plain hplain.2, ← encodeUserString_of_plain hplain'.2,
    ← encodeUserString_append, ← encodeUserString_append] at h
  obtain ⟨hpath, h⟩ := encodeUserString_tells (by decide) (fun _ _ => id) (fun _ _ => id)
    (follows_encodeAnswers (hstop hr)) (follows_encodeAnswers (hstop hs)) h
  obtain ⟨hpath, hgeo⟩ := append_inj' hpath (by rw [hplain.1, hplain'.1, htype])
  obtain ⟨hanswers, hrest⟩ := encodeAnswers_tells hr hs h
  exact ⟨⟨htype, hpath, ⟨g, hg, by rw [hg', hgeo]⟩, hanswers⟩, hrest⟩

/-- The predicate, the kind of geometry and the coordinate system of a geo node. -/
def geoShape : MatchExpression → Option ((GeoPredicate × GeometryType × CRS) ⊕ Bool × CRS)
  | .geo g => some (.inl (g.pred, g.geometry.type, g.geometry.getNativeCRS))
  | .geoNear g => some (.inr (g.isNearSphere, g.crs))
  | _ => none

theorem geoShape_eq {a b : MatchExpression} (h : encodeGeo a = some code)
    (h' : encodeGeo b = some code) (htype : a.matchType = b.matchType) : geoShape a = geoShape b := by
  cases a <;> cases b <;> first | rfl | cases htype
  case geo.geo g g' =>
    obtain ⟨crs, hcrs, rfl⟩ := Option.map_eq_some_iff.mp h
    obtain ⟨crs', hcrs', heq⟩ := Option.map_eq_some_iff.mp h'
    obtain ⟨hkind, rfl⟩ := append_inj' heq
      (by rw [(encodeCRS_spec hcrs).1.1, (encodeCRS_spec hcrs').1.1])
    obtain ⟨hpred, htype⟩ := append_inj' hkind
      (by simp only [(getDebugType_spec _).1.1])
    rw [geoShape, geoShape, encodeCRS_injective hcrs hcrs',
      injective_of_find (fun p => (encodePred_spec p).2) hpred,
      injective_of_find (fun t => (getDebugType_spec t).2) htype]
  case geoNear.geoNear g g' =>
    obtain ⟨crs, hcrs, rfl⟩ := Option.map_eq_some_iff.mp h
    obtain ⟨crs', hcrs', heq⟩ := Option.map_eq_some_iff.mp h'
    obtain ⟨hnear, rfl⟩ := append_inj' heq
      (by rw [(encodeCRS_spec hcrs).1.1, (encodeCRS_spec hcrs').1.1])
    have hsphere : g'.isNearSphere = g.isNearSphere := by
      revert hnear
      cases g'.isNearSphere <;> cases g.isNearSphere <;> decide +kernel
    rw [geoShape, geoShape, encodeCRS_injective hcrs hcrs', hsphere]

/-- The code of a geometry decides what a 2dsphere index can answer. -/
theorem hasS2Region_eq {g g' : GeoMatchExpression}
    (h : encodeGeo (.geo g) = some code) (h' : encodeGeo (.geo g') = some code) :
    g.geometry.hasS2Region = g'.geometry.hasS2Region := by
  have hshape := geoShape_eq h h' rfl
  simp only [geoShape, Option.some.injEq, Sum.inl.injEq, Prod.mk.injEq,
    GeometryContainer.getNativeCRS] at hshape
  obtain ⟨-, htype, hnative⟩ := hshape
  simp only [GeometryContainer.hasS2Region, htype]
  by_cases hgc : g'.geometry.type = .geometryCollection
  · rw [hgc]
  · rw [htype, if_neg hgc, if_neg hgc] at hnative
    rw [hnative]

theorem geoNear_crs_eq {g g' : GeoNearMatchExpression}
    (h : encodeGeo (.geoNear g) = some code) (h' : encodeGeo (.geoNear g') = some code) :
    g.crs = g'.crs := by
  have hshape := geoShape_eq h h' rfl
  simp only [geoShape, Option.some.injEq, Sum.inr.injEq, Prod.mk.injEq] at hshape
  exact hshape.2

theorem encodeKeyForMatch_eq (tree : MatchExpression) :
    encodeKeyForMatch state tree = (encodeNode state tree).bind fun own =>
      (tree.children.mapM (encodeKeyForMatch state)).map fun children =>
        own ++ bracketed childrenBegin childrenSeparator childrenEnd children := by
  rw [encodeKeyForMatch]
  congr 1
  funext own
  congr 1
  conv_rhs => rw [← attach_map_subtype_val tree.children, mapM_map]
  rfl

theorem follows_proj (elementToString : Value → Bytes) (p : Obj) :
    Follows (· = projectionSection) (encodeKeyForProj elementToString p) := by
  rw [encodeKeyForProj]
  split
  next hempty =>
    rw [isEmpty_iff.mp hempty]
    simp [Follows]
  · exact follows_cons rfl

/-- The rest of a key starts with the sign of its section. -/
theorem follows_sections (elementToString : Value → Bytes) (query : CanonicalQuery) :
    Follows (fun c => c ∈ stops ∧ c ≠ childrenBegin)
      (encodeKeyForSort query.sort ++ encodeKeyForProj elementToString query.proj) := by
  rw [encodeKeyForSort]
  split
  · intro c hc
    rw [follows_proj elementToString query.proj c hc]
    decide
  · exact follows_cons (by decide)

/-- Queries with one key have trees of one shape, node by node with the same type, path, geometry
and facts about operands, and the same other sections of the key. -/
theorem sameKey_of_computeKey {elementToString : Value → Bytes} {q₁ q₂ : CanonicalQuery}
    {key : Bytes} (h₁ : computeKey state elementToString q₁ = some key)
    (h₂ : computeKey state elementToString q₂ = some key) :
    Rel MatchExpression.children MatchExpression.children (SameKey state) q₁.root q₂.root ∧
      encodeKeyForSort q₁.sort ++ encodeKeyForProj elementToString q₁.proj =
        encodeKeyForSort q₂.sort ++ encodeKeyForProj elementToString q₂.proj := by
  obtain ⟨k₁, hk₁, rfl⟩ := Option.map_eq_some_iff.mp h₁
  obtain ⟨k₂, hk₂, heq⟩ := Option.map_eq_some_iff.mp h₂
  simp only [append_assoc] at heq
  exact rel_of_code (fun a c hc => MatchExpression.sizeOf_lt_of_mem_children hc)
    encodeKeyForMatch_eq encodeNode_tells (by decide) (by decide) (by decide) (by decide)
    (by decide) (by decide) hk₁ hk₂ (follows_sections elementToString q₁)
    (follows_sections elementToString q₂) heq.symm

/-- Names, each behind a sign that ends the one before it and a code of one length. -/
theorem items_tell {α : Type} (stop : UInt8 → Prop) {n : Nat} {sign : α → UInt8}
    {lead name : α → Bytes} (hinj : ∀ e e', sign e = sign e' → lead e = lead e' → name e = name e' →
      e = e') (hstop : ¬ stop backslash) (hsign : ∀ e, stop (sign e))
    (hlead : ∀ e, (lead e).length = n) {l l' : List α} {r r' : Bytes}
    (hl : ∀ e ∈ l, ∀ c ∈ name e, stop c → c ∈ delimiters)
    (hl' : ∀ e ∈ l', ∀ c ∈ name e, stop c → c ∈ delimiters)
    (hr : Follows (fun c => stop c ∧ ∀ e, sign e ≠ c) r)
    (hr' : Follows (fun c => stop c ∧ ∀ e, sign e ≠ c) r')
    (h : (l.flatMap fun e => sign e :: (lead e ++ encodeUserString (name e))) ++ r =
      (l'.flatMap fun e => sign e :: (lead e ++ encodeUserString (name e))) ++ r') :
    l = l' ∧ r = r' := by
  have hfollows : ∀ {l : List α} {r}, Follows (fun c => stop c ∧ ∀ e, sign e ≠ c) r →
      Follows stop ((l.flatMap fun e => sign e :: (lead e ++ encodeUserString (name e))) ++ r) := by
    intro l r hr
    cases l with
    | nil => exact fun c hc => (hr c hc).1
    | cons e l => exact follows_cons (hsign e)
  induction l generalizing l' with
  | nil =>
    cases l' with
    | nil => exact ⟨rfl, h⟩
    | cons e l' =>
      obtain rfl : r = _ := h
      exact absurd rfl ((hr _ rfl).2 e)
  | cons e l ih =>
    cases l' with
    | nil =>
      obtain rfl : _ = r' := h
      exact absurd rfl ((hr' _ rfl).2 e)
    | cons e' l' =>
      simp only [flatMap_cons, cons_append, append_assoc, cons.injEq] at h
      obtain ⟨hsame, h⟩ := h
      obtain ⟨hcode, h⟩ := append_inj h (by rw [hlead, hlead])
      obtain ⟨hname, h⟩ := encodeUserString_tells hstop (hl e mem_cons_self)
        (hl' e' mem_cons_self) (hfollows hr) (hfollows hr') h
      obtain ⟨rfl, hrest⟩ := ih (forall_mem_cons.mp hl).2
        (forall_mem_cons.mp hl').2 h
      exact ⟨by rw [hinj e e' hsame hcode hname], hrest⟩

/-- The fields of a sort pattern, each ascending, descending or (`none`) by text score. -/
def sortPattern (sortObj : Obj) : List (Bytes × Option Bool) :=
  sortObj.map fun elt =>
    (elt.1, if isTextScoreMeta elt.2 then none else some (decide (elt.2.asInt = 1)))

def sortMark : Option Bool → UInt8
  | none => 116
  | some true => 97
  | some false => 100

theorem encodeKeyForSort_cons (e : Bytes × Value) (s : Obj) :
    ∃ fields, encodeKeyForSort (e :: s) = sortSection :: fields ∧ 44 :: fields =
      (sortPattern (e :: s)).flatMap fun x => 44 :: ([sortMark x.2] ++ encodeUserString x.1) := by
  have hmarks : chars "t" = [116] ∧ chars "a" = [97] ∧ chars "d" = [100] := by decide +kernel
  have hmark : ∀ v : Value, (if isTextScoreMeta v then chars "t"
      else if v.asInt = 1 then chars "a" else chars "d") =
        [sortMark (if isTextScoreMeta v then none else some (decide (v.asInt = 1)))] := by
    intro v
    split
    · exact hmarks.1
    · split <;> simp_all [sortMark]
  refine ⟨_, rfl, ?_⟩
  induction s generalizing e with
  | nil => simp [sortPattern, hmark]
  | cons e' s ih => simpa [sortPattern, hmark, intercalate_cons_cons] using ih e'

theorem sort_tells {s s' : Obj} {r r' : Bytes} (hr : Follows (· = projectionSection) r)
    (hr' : Follows (· = projectionSection) r')
    (h : encodeKeyForSort s ++ r = encodeKeyForSort s' ++ r') :
    sortPattern s = sortPattern s' ∧ r = r' := by
  have hend : ∀ {r}, Follows (· = projectionSection) r →
      Follows (fun c => c ∈ delimiters ∧ ∀ _ : Bytes × Option Bool, 44 ≠ c) r := by
    intro r hr c hc
    rw [hr c hc]
    exact ⟨by decide, fun _ => by decide⟩
  cases s <;> cases s'
  case nil.nil => exact ⟨rfl, h⟩
  case nil.cons =>
    obtain rfl : r = _ := h
    exact absurd (hr _ rfl) (by decide)
  case cons.nil =>
    obtain rfl : _ = r' := h
    exact absurd (hr' _ rfl) (by decide)
  case cons.cons e s e' s' =>
    obtain ⟨fields, hs, hfields⟩ := encodeKeyForSort_cons e s
    obtain ⟨fields', hs', hfields'⟩ := encodeKeyForSort_cons e' s'
    rw [hs, hs'] at h
    have h : 44 :: (fields ++ r) = 44 :: (fields' ++ r') := congrArg _ (cons.inj h).2
    rw [← cons_append, ← cons_append, hfields, hfields'] at h
    refine items_tell (· ∈ delimiters) (n := 1) ?_ (by decide) (fun _ => by decide)
      (fun _ => rfl) (fun _ _ _ _ => id) (fun _ _ _ _ => id) (hend hr) (hend hr') h
    rintro ⟨x, _ | _ | _⟩ ⟨y, _ | _ | _⟩ _ hmark rfl <;> first | rfl | simp [sortMark] at hmark

def projElements (projObj : Obj) : List (Bytes × Value) :=
  (projObj.foldl (fun elements elt =>
    if elt.1.head? = some 36 then elements else elements.put elt.1 elt.2)
      (SortedMap.empty : SortedMap Bytes Value)).entries

/-- The fields of a projection, each included, excluded or with the text of its operator. -/
def projection (elementToString : Value → Bytes) (projObj : Obj) : List (Bytes × (Bool ⊕ Bytes)) :=
  (projElements projObj).map fun elt =>
    (elt.1, if elt.2.isSimpleType then .inl elt.2.trueValue else .inr (elementToString elt.2))

/-- What is written before a name. -/
def projMark : Bool ⊕ Bytes → Bytes
  | .inl true => [105]
  | .inl false => [101]
  | .inr text => text

/-- The fields one after the other, with nothing between them. -/
def projText (fields : List (Bytes × (Bool ⊕ Bytes))) : Bytes :=
  fields.flatMap fun x => projMark x.2 ++ x.1

/-- Two projections with fields do not read the same unless they are the same. -/
def ReadApart (fields fields' : List (Bytes × (Bool ⊕ Bytes))) : Prop :=
  fields ≠ [] → fields' ≠ [] → projText fields = projText fields' → fields = fields'

theorem encodeKeyForProj_eq (elementToString : Value → Bytes) (p : Obj) :
    encodeKeyForProj elementToString p =
      (if (projection elementToString p).isEmpty then [] else [projectionSection]) ++
        encodeUserString (projText (projection elementToString p)) := by
  have hmarks : chars "i" = [105] ∧ chars "e" = [101] := by decide +kernel
  have hplain : encodeUserString [105] = [105] ∧ encodeUserString [101] = [101] := by decide
  rw [projection, isEmpty_map, projText, flatMap_map, encodeUserString, flatMap_assoc]
  refine congrArg _ (flatMap_congr fun e _ => ?_)
  change _ = encodeUserString (_ ++ _)
  rw [encodeUserString_append]
  congr 1
  cases e.2.isSimpleType with
  | false => rfl
  | true => cases e.2.trueValue <;> simp [projMark, hmarks, hplain]

theorem encodeUserString_injective : Function.Injective encodeUserString := by
  intro s t h
  have hend : Follows (fun _ : UInt8 => False) [] := by simp [Follows]
  exact (encodeUserString_tells id (fun _ _ => False.elim) (fun _ _ => False.elim) hend hend
    (by rw [h])).1

theorem encodeKeyForProj_eq_iff {elementToString : Value → Bytes} {p p' : Obj} :
    (encodeKeyForProj elementToString p = encodeKeyForProj elementToString p' →
      projection elementToString p = projection elementToString p') ↔
    ReadApart (projection elementToString p) (projection elementToString p') := by
  rw [encodeKeyForProj_eq, encodeKeyForProj_eq, ReadApart]
  generalize projection elementToString p = l
  generalize projection elementToString p' = l'
  cases l <;> cases l'
  · simp
  · simp [projText, encodeUserString]
  · simp [projText, encodeUserString]
  · simp [encodeUserString_injective.eq_iff]

/-- The nodes have one type, path and geometry. -/
def SameNode (a b : MatchExpression) : Prop :=
  a.matchType = b.matchType ∧ a.path = b.path ∧ geoShape a = geoShape b

/-- The match trees up to operands, the sort patterns and the projections of two queries agree. -/
structure SameShape (elementToString : Value → Bytes) (q₁ q₂ : CanonicalQuery) : Prop where
  tree : Rel MatchExpression.children MatchExpression.children SameNode q₁.root q₂.root
  sort : sortPattern q₁.sort = sortPattern q₂.sort
  projection : projection elementToString q₁.proj = projection elementToString q₂.proj

/-- A query for all documents. -/
def findAll (sort proj : Obj) : CanonicalQuery := ⟨.and [], sort, proj, [], [], [], false, false, false⟩

theorem computeKey_findAll (state : PathDiscriminatorsMap) (elementToString : Value → Bytes) :
    ∃ tree, ∀ p, computeKey state elementToString (findAll [] p) =
      some (tree ++ encodeKeyForProj elementToString p) := by
  refine ⟨encodeMatchType .and ++ encodeUserString [] ++ [] ++
    encodeAnswers (answers state (.and [])), fun p => ?_⟩
  rw [computeKey, findAll, encodeKeyForMatch_eq]
  simp [encodeNode, encodeGeo, MatchExpression.children, MatchExpression.path,
    MatchExpression.matchType, bracketed, encodeKeyForSort]

end PlanCache

end MongolDb.Query
