import MongolDb.Bson.Order

/-! How a predicate's path is followed through a document (matcher/path.cpp): the elements that
`BSONElementIterator` hands out, in order. -/
namespace MongolDb.Matcher
open ByteOrder Bson List

/-- `BSONObj::getField`: the first field of that name; no value stands for EOO. -/
def getField (obj : Obj) (name : Bytes) : Option Value := obj.lookup name

/-- `FieldRef::parse`: the parts between the dots, none for the empty path. -/
def FieldRef.parse (path : Bytes) : List Bytes :=
  if path = [] then [] else path.splitOn 46

/-- The parts of the text that these parts make up when joined by dots. -/
def FieldRef.reparse (parts : List Bytes) : List Bytes := if parts = [[]] then [] else parts

def isAllDigits (s : Bytes) : Bool := s.all fun c => 48 ≤ c && c ≤ 57

/-- The first element along the path that is missing, an array, or at its end, with the parts
after the one that `idxPath` points at. -/
def getFieldDottedOrArray (doc : Obj) : List Bytes → Option Value × List Bytes
  | [] => (getField doc [], [])
  | part :: rest =>
    match getField doc part with
    | none => (none, rest)
    | some (.object fields) =>
      if rest = [] then (some (.object fields), []) else getFieldDottedOrArray fields rest
    | some (.array elements) => (some (.array elements), rest)
    | some v => (if rest = [] then some v else none, rest)

theorem length_getFieldDottedOrArray {doc : Obj} {path rest : List Bytes} {e : Option Value}
    (h : getFieldDottedOrArray doc path = (e, rest)) (hne : rest ≠ []) :
    rest.length < path.length := by
  induction path generalizing doc with
  | nil =>
    simp only [getFieldDottedOrArray, Prod.mk.injEq] at h
    exact absurd h.2.symm hne
  | cons part path ih =>
    simp only [getFieldDottedOrArray] at h
    split at h
    · simp_all
    · split at h
      · simp_all
      · have := ih h
        simp only [length_cons]
        omega
    · simp_all
    · simp_all

namespace ElementIterator

/-- What the iterator hands out: an element, and whether it is an array that was not looked
into. The array offset is kept for the match details only, and left out. -/
structure Context where
  element : Option Value
  outerArray : Bool

end ElementIterator

namespace BSONElementIterator
open ElementIterator

/-- Is there a part left after the array? -/
def hasMore (rest : List Bytes) : Bool := rest ≠ [] && rest ≠ [[]]

def isArrayOffsetMatch (rest : List Bytes) (fieldName : Bytes) : Bool :=
  match rest with
  | [] => false
  | part :: _ => isAllDigits part && part = fieldName

/-- An array at the end of the path: its elements, then the array itself. -/
def leafArray (theArray : Obj) : List Context :=
  theArray.map (fun e => ⟨some e.2, false⟩) ++ [⟨some (.array theArray), true⟩]

theorem hasMore_ne_nil {rest : List Bytes} (h : hasMore rest) : rest ≠ [] := by
  intro he
  simp [hasMore, he] at h

theorem length_reparse_le (parts : List Bytes) :
    (FieldRef.reparse parts).length ≤ parts.length := by
  unfold FieldRef.reparse
  split <;> simp

theorem length_reparse_tail {parts : List Bytes} (h : parts ≠ []) :
    (FieldRef.reparse parts.tail).length < parts.length := by
  have := length_reparse_le parts.tail
  have := length_pos_of_ne_nil h
  rw [length_tail] at *
  omega

-- The two states of the iterator. An array's elements carry their positions as names, so the
-- empty part, all of whose characters are digits too, meets no element of that name.
mutual
/-- The elements from state `BEGIN` on. -/
def elements (leaf : Bool) (context : Obj) (path : List Bytes) : List Context :=
  match _h : getFieldDottedOrArray context path with
  | (some (.array theArray), rest) =>
    if _hm : hasMore rest then inArray leaf theArray rest
    else if leaf then leafArray theArray
    else [⟨some (.array theArray), true⟩]
  | (e, _) => [⟨e, false⟩]
termination_by 2 * path.length
decreasing_by
  have := length_getFieldDottedOrArray _h (hasMore_ne_nil _hm)
  omega
/-- The elements from state `IN_ARRAY` on, while there is a part left after the array. -/
def inArray (leaf : Bool) (theArray : Obj) (rest : List Bytes) : List Context :=
  if _hr : rest = [] then []
  else theArray.flatMap fun e =>
    match e.2 with
    | .object fields =>
      elements leaf fields rest ++
        if isArrayOffsetMatch rest e.1 then
          if rest.tail = [] then [⟨some (.object fields), true⟩]
          else elements leaf fields (FieldRef.reparse rest.tail)
        else []
    | v =>
      if isArrayOffsetMatch rest e.1 then
        if rest.tail = [] then [⟨some v, false⟩]
        else
          match v with
          | .array nested =>
            if hasMore (FieldRef.reparse rest.tail) then
              inArray leaf nested (FieldRef.reparse rest.tail)
            else leafArray nested
          | _ => []
      else []
termination_by 2 * rest.length + 1
decreasing_by
  all_goals
    have := length_reparse_tail _hr
    omega
end

section
variable {obj : Obj} {path rest : List Bytes} {e : Option Value}

theorem elements_of_array {leaf : Bool} {theArray : Obj}
    (h : getFieldDottedOrArray obj path = (some (.array theArray), rest)) :
    elements leaf obj path =
      if hasMore rest then inArray leaf theArray rest
      else if leaf then leafArray theArray
      else [⟨some (.array theArray), true⟩] := by
  rw [elements]
  split
  next h' =>
    rw [h] at h'
    cases h'
    simp
  next hno h' =>
    rw [h] at h'
    cases h'
    exact absurd rfl (hno theArray)

theorem elements_of_not_array {leaf : Bool} (h : getFieldDottedOrArray obj path = (e, rest))
    (he : ∀ theArray, e ≠ some (.array theArray)) : elements leaf obj path = [⟨e, false⟩] := by
  rw [elements]
  split
  next theArray _ h' =>
    rw [h] at h'
    cases h'
    exact absurd rfl (he theArray)
  next h' =>
    rw [h] at h'
    cases h'
    rfl

/-- What one element of an array on the path contributes. -/
def entryContexts (leaf : Bool) (rest : List Bytes) (e : Bytes × Value) : List Context :=
  match e.2 with
  | .object fields =>
    elements leaf fields rest ++
      if isArrayOffsetMatch rest e.1 then
        if rest.tail = [] then [⟨some (.object fields), true⟩]
        else elements leaf fields (FieldRef.reparse rest.tail)
      else []
  | v =>
    if isArrayOffsetMatch rest e.1 then
      if rest.tail = [] then [⟨some v, false⟩]
      else
        match v with
        | .array nested =>
          if hasMore (FieldRef.reparse rest.tail) then
            inArray leaf nested (FieldRef.reparse rest.tail)
          else leafArray nested
        | _ => []
    else []

theorem inArray_eq {leaf : Bool} {theArray : Obj} (hr : rest ≠ []) :
    inArray leaf theArray rest = theArray.flatMap (entryContexts leaf rest) := by
  rw [inArray, dif_neg hr]
  rfl

end

/-- What holds of every kind of context holds of all that the iterator hands out. By induction on
the number of parts left, through both states. -/
theorem forall_elements {P : Context → Prop} (hvalue : ∀ e, P ⟨e, false⟩)
    (hobject : ∀ fields, P ⟨some (.object fields), true⟩)
    (harray : ∀ theArray, P ⟨some (.array theArray), true⟩) (leaf : Bool) (doc : Obj)
    (path : List Bytes) : ∀ c ∈ elements leaf doc path, P c := by
  have hleaf : ∀ theArray, ∀ c ∈ leafArray theArray, P c := by
    intro theArray c hc
    simp only [leafArray, mem_append, mem_map, mem_singleton] at hc
    obtain ⟨e, -, rfl⟩ | rfl := hc
    · exact hvalue _
    · exact harray _
  have helements : ∀ path : List Bytes,
      (∀ theArray rest, rest.length < path.length → ∀ c ∈ inArray leaf theArray rest, P c) →
        ∀ doc, ∀ c ∈ elements leaf doc path, P c := by
    intro path hin doc c hc
    cases hg : getFieldDottedOrArray doc path with
    | mk e rest =>
      by_cases ha : ∃ theArray, e = some (.array theArray)
      · obtain ⟨theArray, rfl⟩ := ha
        rw [elements_of_array hg] at hc
        split at hc
        next hm =>
          exact hin theArray rest (length_getFieldDottedOrArray hg (hasMore_ne_nil hm)) c hc
        next =>
          split at hc
          · exact hleaf theArray c hc
          · rw [mem_singleton.mp hc]
            exact harray _
      · rw [elements_of_not_array hg fun theArray he => ha ⟨theArray, he⟩] at hc
        rw [mem_singleton.mp hc]
        exact hvalue _
  have hin : ∀ n (theArray : Obj) (rest : List Bytes), rest.length = n →
      ∀ c ∈ inArray leaf theArray rest, P c := by
    intro n
    induction n using Nat.strong_induction_on with
    | h n ih =>
      rintro theArray rest rfl c hc
      by_cases hr : rest = []
      · rw [hr, inArray] at hc
        simp at hc
      · have htail := length_reparse_tail hr
        rw [inArray_eq hr, mem_flatMap] at hc
        obtain ⟨e, -, hc⟩ := hc
        unfold entryContexts at hc
        split at hc
        next fields _ =>
          rcases mem_append.mp hc with hc | hc
          · exact helements rest (fun a r hlt => ih _ hlt a r rfl) fields c hc
          · split at hc
            · split at hc
              · rw [mem_singleton.mp hc]
                exact hobject fields
              · exact helements _ (fun a r hlt => ih _ (hlt.trans htail) a r rfl) fields c hc
            · simp at hc
        next =>
          split at hc
          · split at hc
            · rw [mem_singleton.mp hc]
              exact hvalue _
            · split at hc
              · split at hc
                · exact ih _ htail _ _ rfl c hc
                · exact hleaf _ c hc
              · simp at hc
          · simp at hc
  exact helements path (fun theArray rest _ => hin _ theArray rest rfl) doc

/-- Only objects and arrays are handed out as an array that was not looked into. -/
theorem outerArray_cases {leaf : Bool} {doc : Obj} {path : List Bytes} {c : Context}
    (h : c ∈ elements leaf doc path) (ho : c.outerArray) :
    (∃ fields, c.element = some (.object fields)) ∨
      ∃ theArray, c.element = some (.array theArray) := by
  let P : Context → Prop := fun c => c.outerArray = true →
    (∃ fields, c.element = some (.object fields)) ∨ ∃ theArray, c.element = some (.array theArray)
  have hall : ∀ c ∈ elements leaf doc path, P c := by
    apply forall_elements
    · intro e he
      cases he
    · intro fields _
      exact .inl ⟨fields, rfl⟩
    · intro theArray _
      exact .inr ⟨theArray, rfl⟩
  exact hall c h ho

theorem elements_subset_of {path : List Bytes}
    (hin : ∀ theArray rest, rest.length < path.length →
      inArray false theArray rest ⊆ inArray true theArray rest) (doc : Obj) :
    elements false doc path ⊆ elements true doc path := by
  cases hg : getFieldDottedOrArray doc path with
  | mk e rest =>
    by_cases ha : ∃ theArray, e = some (.array theArray)
    · obtain ⟨theArray, rfl⟩ := ha
      simp only [elements_of_array hg]
      split
      next hm => exact hin theArray rest (length_getFieldDottedOrArray hg (hasMore_ne_nil hm))
      next => simp [leafArray]
    · have hno : ∀ theArray, e ≠ some (.array theArray) := fun theArray he => ha ⟨theArray, he⟩
      simp only [elements_of_not_array hg hno]
      exact List.Subset.refl _

theorem inArray_subset : ∀ (n : Nat) (theArray : Obj) (rest : List Bytes), rest.length = n →
    inArray false theArray rest ⊆ inArray true theArray rest := by
  intro n
  induction n using Nat.strong_induction_on with
  | h n ih =>
    rintro theArray rest rfl
    by_cases hr : rest = []
    · rw [hr, inArray]
      simp
    · have htail := length_reparse_tail hr
      have hsame := elements_subset_of fun a r hlt => ih r.length hlt a r rfl
      have hnext := elements_subset_of fun a r hlt => ih r.length (hlt.trans htail) a r rfl
      simp only [inArray_eq hr]
      intro c hc
      obtain ⟨e, he, hc⟩ := mem_flatMap.mp hc
      refine mem_flatMap.mpr ⟨e, he, ?_⟩
      unfold entryContexts at hc ⊢
      cases hv : e.2 with
      | object fields =>
        rw [hv] at hc
        rcases mem_append.mp hc with hc | hc
        · exact mem_append_left _ (hsame fields hc)
        · apply mem_append_right
          revert hc
          split
          · split
            · exact id
            · exact fun hc => hnext fields hc
          · exact id
      | array nested =>
        rw [hv] at hc
        revert hc
        dsimp only
        split
        · split
          · exact id
          · split
            · exact fun hc => ih _ htail nested _ rfl hc
            · exact id
        · exact id
      | _ =>
        rw [hv] at hc
        exact hc

/-- Looking into the arrays at the end of the path leaves out nothing that is seen without. -/
theorem elements_subset (doc : Obj) (path : List Bytes) :
    elements false doc path ⊆ elements true doc path :=
  elements_subset_of (fun theArray rest _ => inArray_subset _ theArray rest rfl) doc

end BSONElementIterator

end MongolDb.Matcher
