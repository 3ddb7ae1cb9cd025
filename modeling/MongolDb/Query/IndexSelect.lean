import MongolDb.Lib.Branching
import MongolDb.Matcher.Subset

/-! Which indexes the planner rates for which predicates (query/planner_ixselect.cpp,
query/indexability.h, query/index_entry.h). Indexes of type 2d are left out: plans that use them
are not cached. -/

namespace MongolDb.Bson

def Value.isString : Value → Bool
  | .string _ => true
  | _ => false

end MongolDb.Bson

namespace MongolDb.Query
open ByteOrder Bson Matcher

inductive IndexType where
  | btree
  | haystack
  | twoDSphere
  | text
  | hashed
  deriving DecidableEq

namespace IndexNames

def geo2DSphere : Bytes := "2dsphere".toUTF8.toList
def geoHaystack : Bytes := "geoHaystack".toUTF8.toList
def text : Bytes := "text".toUTF8.toList
def hashed : Bytes := "hashed".toUTF8.toList

/-- The strings that stand in the key patterns of indexes that are no btree. -/
def plugins : List Bytes := [geo2DSphere, geoHaystack, text, hashed]

@[simp] theorem plugin_names :
    hashed ≠ [] ∧ hashed.isEmpty = false ∧ geo2DSphere ≠ [] ∧ hashed ≠ geo2DSphere := by
  decide +kernel

end IndexNames

structure IndexEntry where
  keyPattern : Obj
  multikey : Bool
  sparse : Bool
  filterExpr : Option MatchExpression
  type : IndexType
  nonempty : keyPattern ≠ []
  /-- Index creation refuses other strings. -/
  known : type ≠ .btree → ∀ name s, (name, .string s) ∈ keyPattern → s ∈ IndexNames.plugins
  /-- A string separates the prefix of a text index from its suffix. -/
  separated : type = .text → keyPattern.any fun elt => elt.2.isString
  /-- Index creation refuses other filters. -/
  validFilter : ∀ filter ∈ filterExpr, checkValidFilterExpressions filter

/-! What kind of predicate can use an index at all. -/

namespace Indexability

def isIndexOnOwnFieldTypeNode (me : MatchExpression) : Bool :=
  match me.matchType with
  | .comparison _ | .regex | .mod | .matchIn | .typeOperator | .geo | .geoNear | .exists
  | .text => true
  | _ => false

/-- The children of an `ELEM_MATCH_VALUE` that can use an index on its own field. -/
def elemMatchChildUsesIndex : MatchExpression → Bool
  | .not notChild =>
    match notChild.matchType with
    -- negations of these are not indexed
    | .mod | .regex | .typeOperator => false
    | _ => isIndexOnOwnFieldTypeNode notChild
  | child => isIndexOnOwnFieldTypeNode child

def arrayUsesIndexOnOwnField : MatchExpression → Bool
  | .elemMatchValue _ subs => subs.all elemMatchChildUsesIndex
  | _ => false

def nodeCanUseIndexOnOwnField (me : MatchExpression) : Bool :=
  if me.path.isEmpty then false
  else arrayUsesIndexOnOwnField me || isIndexOnOwnFieldTypeNode me

def arrayUsesIndexOnChildren (me : MatchExpression) : Bool :=
  me.matchType = .elemMatchObject

def isBoundsGeneratingNot : MatchExpression → Bool
  | .not child => nodeCanUseIndexOnOwnField child
  | _ => false

def isBoundsGenerating (me : MatchExpression) : Bool :=
  isBoundsGeneratingNot me || nodeCanUseIndexOnOwnField me

end Indexability

/-! Compatibility of a predicate with one field of an index. -/

/-- The plugin that handles the field; none for a field in the order of its values. -/
def indexedFieldType (elt : Bytes × Value) (index : IndexEntry) : Bytes :=
  match elt.2 with
  | .string s => if index.type = .btree then [] else s
  | _ => []

/-- Negated predicates that may use a field in the order of its values. -/
def negationCompatible (index : IndexEntry) (child : MatchExpression) : Bool :=
  if index.type ≠ .btree then false
  else if index.sparse then false
  else
    match child with
    | .regex _ _ | .mod _ | .typeOperator _ | .elemMatchValue _ _ => false
    | .matchIn _ entries => entries.regexes.length = 0
    | _ => true

/-- The checks by operand for a field in the order of its values. -/
def operandCompatible (index : IndexEntry) : MatchExpression → Bool
  | .comparison c => !(c.matchType = .eq && index.sparse && c.rhs.type = 10)
  | .matchIn _ entries => !(index.sparse && entries.hasNull)
  | .geo _ | .geoNear _ => false
  | .not child => negationCompatible index child
  | _ => true

/-- The walk along the key pattern of a text index to the string that ends its prefix. -/
def inSuffix (path : Bytes) : Obj → Bool
  -- not reached: a text index has a separator
  | [] => true
  | (name, value) :: rest =>
    if value.isString then true
    else if path = name then false
    else inSuffix path rest

def compatible (elt : Bytes × Value) (index : IndexEntry) (node : MatchExpression) : Bool :=
  let indexedFieldType := indexedFieldType elt index
  if indexedFieldType.isEmpty then
    if !operandCompatible index node then false
    else if index.type ≠ .text then true
    -- an equality may go anywhere in a text index, the others only into the suffix
    else if node.matchType = .comparison .eq then true
    else inSuffix node.path index.keyPattern
  else if indexedFieldType = IndexNames.hashed then
    match node with
    | .comparison c => c.matchType = .eq
    | .matchIn _ entries => entries.regexes.length = 0
    | _ => false
  else if indexedFieldType = IndexNames.geo2DSphere then
    match node with
    | .geo g => g.geometry.hasS2Region
    | .geoNear g => g.crs = .sphere
    | _ => false
  else if indexedFieldType = IndexNames.text then node.matchType = .text
  else false

/-! The fields of a query and the indexes over them. -/

/-- Under a `$elemMatch` of objects paths are read from its own path on. -/
def childPrefix (pathPrefix : Bytes) : MatchExpression → Bytes
  | .elemMatchObject path _ => if path.isEmpty then pathPrefix else pathPrefix ++ path ++ [46]
  | _ => pathPrefix

/-- The path that the planner compares with the fields of indexes. -/
def fullPath (pathPrefix : Bytes) : MatchExpression → Bytes
  | .not child => pathPrefix ++ child.path
  | node => pathPrefix ++ node.path

/-- A node with the prefix under which its path is read. -/
structure Placed where
  pathPrefix : Bytes
  node : MatchExpression

namespace Placed

def children (p : Placed) : List Placed :=
  p.node.children.map fun c => ⟨childPrefix p.pathPrefix p.node, c⟩

def root (e : MatchExpression) : Placed := ⟨[], e⟩

end Placed

def getFields (pathPrefix : Bytes) (node : MatchExpression) : List Bytes :=
  if node.matchType = .nor then []
  else if Indexability.nodeCanUseIndexOnOwnField node then [pathPrefix ++ node.path]
  else if Indexability.arrayUsesIndexOnChildren node || node.isLogical then
    node.children.attach.flatMap fun c => getFields (childPrefix pathPrefix node) c.1
  else []
termination_by sizeOf node
decreasing_by exact MatchExpression.sizeOf_lt_of_mem_children c.2

/-- `QueryPlannerIXSelect::findRelevantIndices`: the indexes whose first field is one of these. -/
def findRelevantIndices (fields : List Bytes) (allIndices : List IndexEntry) : List IndexEntry :=
  allIndices.filter fun index => index.keyPattern.head?.any fun elt => fields.contains elt.1

/-- The numbers of the indexes that a predicate may use on their first and on later fields. -/
structure RelevantTag where
  first : List Nat
  notFirst : List Nat
  path : Bytes
  deriving DecidableEq

/-- A query whose nodes may carry tags, with what later steps read of its nodes. -/
inductive RatedTree where
  | node (type : MatchType) (path : Bytes) (ownField : Bool) (tag : Option RelevantTag)
    (children : List RatedTree)

namespace RatedTree

def tag : RatedTree → Option RelevantTag
  | .node _ _ _ tag _ => tag

def children : RatedTree → List RatedTree
  | .node _ _ _ _ children => children

def setTag (newTag : Option RelevantTag) : RatedTree → RatedTree
  | .node type path ownField _ children => .node type path ownField newTag children

end RatedTree

/-- The node over its children, untagged. -/
def ratedNode (node : MatchExpression) (children : List RatedTree) : RatedTree :=
  .node node.matchType node.path (Indexability.nodeCanUseIndexOnOwnField node) none children

def untagged (node : MatchExpression) : RatedTree :=
  ratedNode node (node.children.attach.map fun c => untagged c.1)
termination_by sizeOf node
decreasing_by exact MatchExpression.sizeOf_lt_of_mem_children c.2

/-- The numbers of the indexes that have a compatible field of this name among the given ones. -/
def ratedOn (fields : IndexEntry → Obj) (indices : List IndexEntry) (fullPath : Bytes)
    (node : MatchExpression) : List Nat :=
  indices.zipIdx.flatMap fun index =>
    (fields index.1).flatMap fun elt =>
      if elt.1 = fullPath && compatible elt index.1 node then [index.2] else []

def relevantTag (indices : List IndexEntry) (fullPath : Bytes) (node : MatchExpression) :
    RelevantTag where
  first := ratedOn (fun index => index.keyPattern.take 1) indices fullPath node
  notFirst := ratedOn (fun index => index.keyPattern.drop 1) indices fullPath node
  path := fullPath

def rateIndices (indices : List IndexEntry) (pathPrefix : Bytes) (node : MatchExpression) :
    RatedTree :=
  if node.matchType = .nor then untagged node
  else if Indexability.isBoundsGenerating node then
    let rt := some (relevantTag indices (fullPath pathPrefix node) node)
    let children := node.children.map untagged
    -- the child of a negation gets a copy of the tag
    (ratedNode node (if node.matchType = .not then children.map (RatedTree.setTag rt)
      else children)).setTag rt
  else if Indexability.arrayUsesIndexOnChildren node || node.isLogical then
    ratedNode node (node.children.attach.map fun c =>
      rateIndices indices (childPrefix pathPrefix node) c.1)
  else untagged node
termination_by sizeOf node
decreasing_by exact MatchExpression.sizeOf_lt_of_mem_children c.2

/-! Taking back the ratings of partial indexes that lack results. -/

def RelevantTag.remove (idx : Nat) (tag : RelevantTag) : RelevantTag :=
  { tag with first := tag.first.erase idx, notFirst := tag.notFirst.erase idx }

def nodeIsNegationOrElemMatchObj (node : MatchExpression) : Bool :=
  match node.matchType with
  | .not | .nor | .elemMatchObject => true
  | _ => false

/-- `stripInvalidAssignmentsToPartialIndexNode`: takes the index from the node and from what is
below it, but for those clauses of an `$or` whose results the index holds. -/
def stripInvalidAssignmentsToPartialIndexNode (idxNo : Nat) (filterExpr : MatchExpression)
    (node : MatchExpression) (inNegationOrElemMatchObj : Bool) : RatedTree → RatedTree
  | .node type path ownField tag children =>
    let inNegationOrElemMatchObj := inNegationOrElemMatchObj || nodeIsNegationOrElemMatchObj node
    .node type path ownField (tag.map (RelevantTag.remove idxNo))
      (List.zipWith (fun c t =>
        if !inNegationOrElemMatchObj && node.matchType = .or && isSubsetOf c.1 filterExpr then t
        else stripInvalidAssignmentsToPartialIndexNode idxNo filterExpr c.1
          inNegationOrElemMatchObj t) node.children.attach children)
termination_by sizeOf node
decreasing_by exact MatchExpression.sizeOf_lt_of_mem_children c.2

def stripInvalidAssignmentsToPartialIndexRoot (idxNo : Nat) (filterExpr : MatchExpression)
    (root : MatchExpression) (tree : RatedTree) : RatedTree :=
  if isSubsetOf root filterExpr then tree
  else
    stripInvalidAssignmentsToPartialIndexNode idxNo filterExpr root
      (nodeIsNegationOrElemMatchObj root) tree

def stripInvalidAssignmentsToPartialIndices (indices : List IndexEntry) (root : MatchExpression)
    (tree : RatedTree) : RatedTree :=
  indices.zipIdx.foldl (fun tree index =>
    match index.1.filterExpr with
    | some filterExpr => stripInvalidAssignmentsToPartialIndexRoot index.2 filterExpr root tree
    | none => tree) tree

/-- The relevant indexes of a query and its tree with the ratings the planner may choose from.
`strip` stands for the two steps that take back ratings of text and of 2dsphere indexes; they
read no more of the query than the rated tree has, and stop the planner where a tag is missing. -/
def ratedTree (strip : List IndexEntry → RatedTree → Option RatedTree) (allIndices : List IndexEntry)
    (root : MatchExpression) : List IndexEntry × Option RatedTree :=
  let relevantIndices := findRelevantIndices (getFields [] root) allIndices
  (relevantIndices, (strip relevantIndices (rateIndices relevantIndices [] root)).map
    (stripInvalidAssignmentsToPartialIndices relevantIndices root))

end MongolDb.Query
