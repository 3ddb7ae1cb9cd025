import MongolDb.Lib.Outcome
import MongolDb.Index.KeyGenerator
import MongolDb.Matcher.Expression

/-! The keys of a document are the elements that the matcher sees, up to arrays and missing
fields. -/
namespace MongolDb.Index
open ByteOrder Bson Matcher BSONElementIterator ElementIterator List PositionalPathInfo

theorem toNat_of_isDigit {c : Char} (h : c.isDigit) : 48 ≤ c.toNat ∧ c.toNat ≤ 57 := by
  simp only [Char.isDigit, Bool.and_eq_true, decide_eq_true_eq, ge_iff_le, UInt32.le_iff_toNat_le] at h
  exact h

theorem numStr_injective : Function.Injective numStr := by
  intro i j h
  have hchars : ∀ n, (numStr n).map (fun b => Char.ofNat b.toNat) = Nat.toDigits 10 n := by
    intro n
    rw [numStr, map_map]
    refine (map_congr_left ?_).trans (map_id _)
    intro c hc
    have hdigit := toNat_of_isDigit (Nat.isDigit_of_mem_toDigits (by decide) (by decide) hc)
    rw [Function.comp_apply, UInt8.toNat_ofNat', Nat.mod_eq_of_lt (by omega), Char.ofNat_toNat]
    rfl
  have he : Nat.toDigits 10 i = Nat.toDigits 10 j := by rw [← hchars, h, hchars]
  rw [← @Nat.ofDigitChars_toDigits 10 i (by decide) (by decide), he,
    Nat.ofDigitChars_toDigits (by decide) (by decide)]

theorem isAllDigits_numStr (i : Nat) : isAllDigits (numStr i) := by
  simp only [isAllDigits, numStr, all_map, all_eq_true, Function.comp_apply,
    Bool.and_eq_true, decide_eq_true_eq]
  intro c hc
  have h := toNat_of_isDigit (Nat.isDigit_of_mem_toDigits (by decide) (by decide) hc)
  simp only [UInt8.le_iff_toNat_le, UInt8.toNat_ofNat']
  change 48 ≤ _ ∧ _ ≤ 57
  omega

theorem exists_numStr_of_mem {elements : Obj} {i : Nat} (h : elementsPositional i elements) :
    ∀ e ∈ elements, ∃ j, i ≤ j ∧ e.1 = numStr j ∧ e.2.positional := by
  induction elements generalizing i with
  | nil => simp
  | cons f rest ih =>
    simp only [elementsPositional, Bool.and_eq_true, decide_eq_true_eq] at h
    intro e he
    rcases mem_cons.mp he with rfl | he
    · exact ⟨i, le_refl i, h.1.1, h.1.2⟩
    · obtain ⟨j, hj, hrest⟩ := ih h.2 e he
      exact ⟨j, by omega, hrest⟩

/-- No two elements of an array have one name. -/
theorem getField_eq_some_iff {elements : Obj} {i : Nat} (h : elementsPositional i elements)
    {name : Bytes} {v : Value} : getField elements name = some v ↔ (name, v) ∈ elements := by
  induction elements generalizing i with
  | nil => simp [getField]
  | cons f rest ih =>
    obtain ⟨n, w⟩ := f
    simp only [elementsPositional, Bool.and_eq_true, decide_eq_true_eq] at h
    by_cases hn : name = n
    · subst hn
      have hnot : (name, v) ∉ rest := by
        intro hmem
        obtain ⟨j, hj, he, -⟩ := exists_numStr_of_mem h.2 _ hmem
        have := numStr_injective (h.1.1.symm.trans he)
        omega
      simp [getField, hnot, eq_comm]
    · have hb : (name == n) = false := by simpa using hn
      simp only [getField, lookup_cons, hb, mem_cons, Prod.mk.injEq, hn, false_and,
        false_or]
      exact ih h.2

theorem positional_of_mem {fields : Obj} (h : fieldsPositional fields) :
    ∀ f ∈ fields, f.2.positional := by
  induction fields with
  | nil => simp
  | cons f rest ih =>
    simp only [fieldsPositional, Bool.and_eq_true] at h
    exact forall_mem_cons.mpr ⟨h.1, ih h.2⟩

theorem positional_getField {obj : Obj} (h : fieldsPositional obj) {name : Bytes} {v : Value}
    (hv : getField obj name = some v) : v.positional := by
  obtain ⟨pre, post, rfl, -⟩ := lookup_eq_some_iff.mp hv
  exact positional_of_mem h (name, v) (by simp)

section Walk
variable {obj : Obj} {path rest : List Bytes} {e : Option Value}

theorem getFieldDottedOrArray_suffix (h : getFieldDottedOrArray obj path = (e, rest)) :
    rest <:+ path := by
  induction path generalizing obj with
  | nil =>
    simp only [getFieldDottedOrArray, Prod.mk.injEq] at h
    simp [← h.2]
  | cons part path ih =>
    simp only [getFieldDottedOrArray] at h
    split at h
    · simp_all
    · split at h
      · simp_all
      · exact (ih h).trans (suffix_cons _ _)
    · simp_all
    · simp_all

theorem getFieldDottedOrArray_positional (hobj : fieldsPositional obj)
    (h : getFieldDottedOrArray obj path = (e, rest)) : ∀ v, e = some v → v.positional := by
  induction path generalizing obj with
  | nil =>
    simp only [getFieldDottedOrArray, Prod.mk.injEq] at h
    exact fun v hv => positional_getField hobj (h.1.trans hv)
  | cons part path ih =>
    simp only [getFieldDottedOrArray] at h
    split at h
    · rintro v rfl
      simp at h
    next fields hf =>
      have hw := positional_getField hobj hf
      split at h
      · rintro v rfl
        simp only [Prod.mk.injEq, Option.some.injEq] at h
        rw [← h.1]
        exact hw
      · exact ih hw h
    next elements hf =>
      rintro v rfl
      simp only [Prod.mk.injEq, Option.some.injEq] at h
      rw [← h.1]
      exact positional_getField hobj hf
    next w _ _ hf =>
      rintro v rfl
      simp only [Prod.mk.injEq] at h
      split at h
      · simp only [Option.some.injEq] at h
        rw [← h.1]
        exact positional_getField hobj hf
      · simp at h

/-- No part of the path is empty, as an index requires. -/
def PartsNonempty (path : List Bytes) : Prop := ∀ part ∈ path, part ≠ []

theorem PartsNonempty.of_suffix (h : PartsNonempty path) (hs : rest <:+ path) :
    PartsNonempty rest :=
  fun part hp => h part (hs.subset hp)

theorem PartsNonempty.hasMore_iff (h : PartsNonempty rest) : hasMore rest ↔ rest ≠ [] := by
  have hne : rest ≠ [[]] := by
    rintro rfl
    exact h [] (by simp) rfl
  simp [hasMore, hne]

theorem PartsNonempty.reparse_eq (h : PartsNonempty rest) : FieldRef.reparse rest = rest := by
  unfold FieldRef.reparse
  rw [if_neg]
  rintro rfl
  exact h [] (by simp) rfl

end Walk

/-! What the key generator does with the element at which its walk has stopped. -/

section
variable {fixed : Value} {num : Nat} {obj arr : Obj} {part : Bytes} {path rest : List Bytes}
  {info : Option (PositionalPathInfo path)}

def keysOfElement (fixed : Value) (num : Nat) (elt : Option Value) (rest : List Bytes)
    (nested : Bool) : Except KeyError (List Value) :=
  match elt with
  | none => .ok [.null]
  | some (.array arr) =>
    if arr = [] then
      getKeysImplWithArray false rest (if rest = [] then .undefined else fixed) [] num none
    else
      (arr.mapM fun entry =>
        getKeysImplWithArray false rest
          (if rest = [] then if !nested then entry.2 else .array arr else fixed)
          (embeddedObject entry.2) num (PositionalPathInfo.of arr rest)).map List.flatten
  | some v => .ok [v]

theorem keysOfElement_of_not_array {v : Value} {nested : Bool} (hv : ∀ a, v ≠ .array a) :
    keysOfElement fixed num (some v) rest nested = .ok [v] := by
  cases v <;> first | rfl | exact absurd rfl (hv _)

theorem getKeysImplWithArray_of_extract (hp : path ≠ []) {next : Extracted path}
    (h : extractNextElement obj path info = .ok next) :
    getKeysImplWithArray false path fixed obj num info =
      keysOfElement fixed num next.elt next.rest next.arrayNestedArray := by
  rw [getKeysImplWithArray, if_neg hp, h]
  simp only
  split
  next he => simp [he, keysOfElement, singleKey]
  next he => simp [he, keysOfElement, embeddedObject]
  next v hv he =>
    rw [he, keysOfElement_of_not_array hv]
    simp [singleKey]

theorem keys_of_object (hp : path ≠ []) :
    getKeysImplWithArray false path fixed obj num none =
      keysOfElement fixed num (getFieldDottedOrArray obj path).1
        (getFieldDottedOrArray obj path).2 false := by
  obtain ⟨part, rest, rfl⟩ := exists_cons_of_ne_nil hp
  cases hf : getField obj part with
  | none =>
    have hx : extractNextElement obj (part :: rest) none =
        .ok ⟨none, part :: rest, false, by simp⟩ := by
      simp [extractNextElement, hf]
    rw [getKeysImplWithArray_of_extract hp hx]
    simp [getFieldDottedOrArray, hf, keysOfElement]
  | some v =>
    have hx : extractNextElement obj (part :: rest) none =
        .ok ⟨(BSONObj.getFieldDottedOrArray obj (part :: rest)).1,
          (BSONObj.getFieldDottedOrArray obj (part :: rest)).2, false,
          fun _ => length_rest_lt rfl⟩ := by
      simp [extractNextElement, hf]
    rw [getKeysImplWithArray_of_extract hp hx]
    simp only [getFieldDottedOrArray_eq]

/-- An element of the array that has the field itself makes the name ambiguous. -/
theorem keys_of_position {x : Value} (hx : getField arr part = some x) :
    getKeysImplWithArray false (part :: rest) fixed obj num
        (PositionalPathInfo.of arr (part :: rest)) =
      if (getField obj part).isSome then .error (.ambiguousFieldName part arr)
      else
        keysOfElement fixed num (getFieldDottedOrArray arr (part :: rest)).1
          (getFieldDottedOrArray arr (part :: rest)).2
          (isArray x) := by
  split
  next hf =>
    rw [getKeysImplWithArray, if_neg (by simp)]
    simp [of, hx, extractNextElement, hf]
  next hf =>
    have hnext : extractNextElement obj (part :: rest)
        (of arr (part :: rest)) =
        .ok ⟨(BSONObj.getFieldDottedOrArray arr (part :: rest)).1,
          (BSONObj.getFieldDottedOrArray arr (part :: rest)).2,
          isArray x, fun _ => length_rest_lt rfl⟩ := by
      have hf' : (getField obj part).isSome = false := by simpa using hf
      simp only [of, hx, Option.map_some, extractNextElement, hf']
    rw [getKeysImplWithArray_of_extract (by simp) hnext]
    simp only [getFieldDottedOrArray_eq]

theorem positional_of_none (h : getField arr part = none) :
    PositionalPathInfo.of arr (part :: rest) = none := by
  simp [of, h]

end

/-! Both walks find the same values, arrays and the stand-ins for missing fields apart. -/

section
variable {p : Value → Prop} {keys : List Value} {arr obj : Obj} {path rest : List Bytes}
  {fixed : Value} {num : Nat} {nested : Bool}

/-- A property that no array has, and none of the values that stand for a missing field. -/
structure Plain (p : Value → Prop) : Prop where
  null : ¬ p .null
  undefined : ¬ p .undefined
  array : ∀ a, ¬ p (.array a)

def Found (p : Value → Prop) (keys : List Value) : Prop := ∃ k ∈ keys, p k

def Seen (p : Value → Prop) (contexts : List Context) : Prop :=
  ∃ c ∈ contexts, ∃ v, c.element = some v ∧ p v

theorem exists_mem_append {α : Type} {q : α → Prop} {a b : List α} :
    (∃ x ∈ a ++ b, q x) ↔ (∃ x ∈ a, q x) ∨ ∃ x ∈ b, q x := by
  simp [or_and_right, exists_or]

@[simp] theorem seen_nil : ¬ Seen p [] := by simp [Seen]

@[simp] theorem seen_singleton {c : Context} : Seen p [c] ↔ ∃ v, c.element = some v ∧ p v := by
  simp [Seen]

@[simp] theorem seen_append {a b : List Context} : Seen p (a ++ b) ↔ Seen p a ∨ Seen p b :=
  exists_mem_append

theorem seen_flatMap {f : Bytes × Value → List Context} :
    Seen p (arr.flatMap f) ↔ ∃ e ∈ arr, Seen p (f e) := by
  simp only [Seen, mem_flatMap]
  constructor
  · rintro ⟨c, ⟨e, he, hc⟩, hv⟩
    exact ⟨e, he, c, hc, hv⟩
  · rintro ⟨e, he, c, hc, hv⟩
    exact ⟨c, ⟨e, he, hc⟩, hv⟩

theorem seen_leafArray (hp : Plain p) : Seen p (leafArray arr) ↔ ∃ e ∈ arr, p e.2 := by
  simp only [leafArray, seen_append, seen_singleton, Option.some.injEq, exists_eq_left', hp.array,
    or_false]
  simp [Seen]

@[simp] theorem found_singleton {v : Value} : Found p [v] ↔ p v := by simp [Found]

/-- The keys of an array are those of its elements. -/
theorem found_mapM {f : Bytes × Value → Except KeyError (List Value)}
    (h : (arr.mapM f).map List.flatten = .ok keys) :
    (∀ e ∈ arr, ∃ ks, f e = .ok ks) ∧
      (Found p keys ↔ ∃ e ∈ arr, ∃ ks, f e = .ok ks ∧ Found p ks) := by
  cases hm : arr.mapM f with
  | error err => simp [hm, Except.map] at h
  | ok kss =>
    simp only [hm, Except.map, Except.ok.injEq] at h
    subst h
    have hall := Outcome.forall₂_of_mapM_ok hm
    clear hm
    induction hall with
    | nil => simp [Found]
    | @cons e ks l kss he _ ih =>
      refine ⟨?_, ?_⟩
      · intro x hx
        rcases mem_cons.mp hx with rfl | hx
        · exact ⟨ks, he⟩
        · exact ih.1 x hx
      · have hsplit : Found p (ks :: kss).flatten ↔ Found p ks ∨ Found p kss.flatten := exists_mem_append
        rw [hsplit, ih.2]
        simp [he]

/-- An array at the end of the path. -/
theorem found_leaf (hp : Plain p) (h : keysOfElement fixed num (some (.array arr)) [] false = .ok keys) :
    Found p keys ↔ Seen p (leafArray arr) := by
  rw [seen_leafArray hp]
  simp only [keysOfElement, ite_true] at h
  split at h
  next he =>
    rw [getKeysImplWithArray, if_pos rfl] at h
    simp only [singleKey, Except.ok.injEq] at h
    simp [he, ← h, hp.undefined]
  next =>
    rw [(found_mapM h).2]
    simp [getKeysImplWithArray, singleKey]

/-- An array at the end of the path that stands directly in another one is not expanded. -/
theorem not_found_nested (hp : Plain p)
    (h : keysOfElement fixed num (some (.array arr)) [] true = .ok keys) : ¬ Found p keys := by
  simp only [keysOfElement, ite_true] at h
  split at h
  next =>
    rw [getKeysImplWithArray, if_pos rfl] at h
    simp only [singleKey, Except.ok.injEq] at h
    simp [← h, hp.undefined]
  next =>
    rw [(found_mapM h).2]
    simp [getKeysImplWithArray, singleKey, hp.array]

/-- What is to be shown of an array on the path, with parts left after it. -/
def ArrayAgrees (p : Value → Prop) (rest : List Bytes) : Prop :=
  ∀ (arr : Obj) (fixed : Value) (num : Nat) (nested : Bool) (keys : List Value),
    elementsPositional 0 arr → keysOfElement fixed num (some (.array arr)) rest nested = .ok keys →
      (Found p keys ↔ Seen p (inArray true arr rest))

/-- The walk from an object stops at an element after which fewer parts are left. -/
theorem found_object (hp : Plain p)
    (ih : ∀ rest, rest.length < path.length → rest ≠ [] → PartsNonempty rest → ArrayAgrees p rest)
    (hne : path ≠ []) (hparts : PartsNonempty path) (hobj : fieldsPositional obj)
    (h : getKeysImplWithArray false path fixed obj num none = .ok keys) :
    Found p keys ↔ Seen p (elements true obj path) := by
  rw [keys_of_object hne] at h
  cases hg : getFieldDottedOrArray obj path with
  | mk e rest =>
    have hrest := hparts.of_suffix (getFieldDottedOrArray_suffix hg)
    rw [hg] at h
    by_cases ha : ∃ arr, e = some (.array arr)
    · obtain ⟨arr, rfl⟩ := ha
      have harr := getFieldDottedOrArray_positional hobj hg _ rfl
      rw [elements_of_array hg]
      by_cases hr : rest = []
      · subst hr
        exact found_leaf hp h
      · rw [if_pos (hrest.hasMore_iff.mpr hr)]
        exact ih rest (length_getFieldDottedOrArray hg hr) hr hrest arr fixed num false keys harr h
    · have hno : ∀ arr, e ≠ some (.array arr) := fun arr he => ha ⟨arr, he⟩
      rw [elements_of_not_array hg hno]
      cases e with
      | none =>
        cases h
        simp [hp.null]
      | some v =>
        rw [keysOfElement_of_not_array fun a he => hno a (congrArg some he)] at h
        cases h
        simp

variable {part : Bytes}

theorem elements_of_missing {leaf : Bool} {tail : List Bytes}
    (h : getField obj part = none) : elements leaf obj (part :: tail) = [⟨none, false⟩] := by
  have hg : getFieldDottedOrArray obj (part :: tail) = (none, tail) := by
    simp [getFieldDottedOrArray, h]
  exact elements_of_not_array hg (by simp)

/-- Where the path goes on from an array's element that its next part names. -/
def positionContexts (x : Value) (tail : List Bytes) : List Context :=
  if tail = [] then [⟨some x, false⟩]
  else
    match x with
    | .object fields => elements true fields tail
    | .array nested => inArray true nested tail
    | _ => []

/-- An element of an array is looked into as a document, and taken for itself if the path names
its position. -/
theorem seen_inArray {tail : List Bytes} (hparts : PartsNonempty (part :: tail))
    (harr : elementsPositional 0 arr) : Seen p (inArray true arr (part :: tail)) ↔
      (∃ e ∈ arr, ∃ fields, e.2 = .object fields ∧ Seen p (elements true fields (part :: tail))) ∨
        ∃ e ∈ arr, e.1 = part ∧ Seen p (positionContexts e.2 tail) := by
  have htail : PartsNonempty tail := hparts.of_suffix (suffix_cons _ _)
  rw [inArray, dif_neg (by simp), seen_flatMap, ← exists_or]
  apply exists_congr
  intro e
  rw [← and_or_left]
  apply and_congr_right
  intro he
  obtain ⟨j, -, hname, -⟩ := exists_numStr_of_mem harr e he
  have hmatch : isArrayOffsetMatch (part :: tail) e.1 = decide (e.1 = part) := by
    by_cases hp : part = e.1
    · simp [isArrayOffsetMatch, hp, hname, isAllDigits_numStr]
    · simp [isArrayOffsetMatch, hp, Ne.symm hp]
  simp only [hmatch, tail_cons, htail.reparse_eq, decide_eq_true_eq]
  by_cases ht : tail = []
  · cases e.2 <;> by_cases hp : e.1 = part <;> simp [positionContexts, ht, hp]
  · cases e.2 <;> by_cases hp : e.1 = part <;>
      simp [positionContexts, ht, hp, htail.hasMore_iff.mpr ht]

/-- From a position in an array the walks go on with the parts after it. -/
theorem found_position (hp : Plain p) {tail : List Bytes} {x : Value}
    (ih : ∀ rest, rest.length ≤ tail.length → rest ≠ [] → PartsNonempty rest → ArrayAgrees p rest)
    (htail : PartsNonempty tail) (hx : getField arr part = some x) (hwf : x.positional)
    (h : keysOfElement fixed num (getFieldDottedOrArray arr (part :: tail)).1
      (getFieldDottedOrArray arr (part :: tail)).2 (isArray x) = .ok keys) :
    Found p keys ↔ Seen p (positionContexts x tail) := by
  simp only [getFieldDottedOrArray, hx] at h
  cases x with
  | object fields =>
    by_cases ht : tail = []
    · simp only [ht, ite_true, keysOfElement, Except.ok.injEq] at h
      simp [← h, ht, positionContexts]
    · simp only [if_neg ht, isArray] at h
      rw [← keys_of_object ht] at h
      rw [positionContexts, if_neg ht]
      exact found_object hp (fun rest hlt => ih rest hlt.le) ht htail hwf h
  | array nested =>
    by_cases ht : tail = []
    · subst ht
      simp [not_found_nested hp h, positionContexts, hp.array]
    · rw [positionContexts, if_neg ht]
      exact ih tail le_rfl ht htail nested fixed num true keys hwf h
  | _ =>
    by_cases ht : tail = []
    · simp only [ht, ite_true, keysOfElement, Except.ok.injEq] at h
      simp [← h, ht, positionContexts]
    · simp only [if_neg ht, keysOfElement, Except.ok.injEq] at h
      simp [← h, ht, positionContexts, hp.null]

theorem exists_ok_found {r : Except KeyError (List Value)} (h : r = .ok keys) :
    (∃ ks, r = .ok ks ∧ Found p ks) ↔ Found p keys := by
  simp [h]

theorem embeddedObject_of_not_object {v : Value} (h : ¬ ∃ fields, v = .object fields) :
    embeddedObject v = [] := by
  cases v <;> first | rfl | exact absurd ⟨_, rfl⟩ h

/-- What is to be shown of an object, with the whole path before it. -/
def ObjectAgrees (p : Value → Prop) (path : List Bytes) : Prop :=
  ∀ (obj : Obj) (fixed : Value) (num : Nat) (keys : List Value), fieldsPositional obj →
    getKeysImplWithArray false path fixed obj num none = .ok keys →
      (Found p keys ↔ Seen p (elements true obj path))

section Elements
variable {tail : List Bytes} (harr : elementsPositional 0 arr)
  (hok : ∀ e ∈ arr, ∃ ks, getKeysImplWithArray false (part :: tail) fixed (embeddedObject e.2) num
    (of arr (part :: tail)) = .ok ks)

theorem not_seen_missing (h : getField obj part = none) :
    ¬ Seen p (elements true obj (part :: tail)) := by
  rw [elements_of_missing h]
  simp

include harr hok

/-- If no position is named, each element is a document of its own, or has no such field. -/
theorem found_elements_of_none (hobject : ObjectAgrees p (part :: tail))
    (hx : getField arr part = none) :
    (∃ e ∈ arr, ∃ ks, getKeysImplWithArray false (part :: tail) fixed (embeddedObject e.2) num
        (of arr (part :: tail)) = .ok ks ∧ Found p ks) ↔
      (∃ e ∈ arr, ∃ fields, e.2 = .object fields ∧ Seen p (elements true fields (part :: tail))) ∨
        ∃ e ∈ arr, e.1 = part ∧ Seen p (positionContexts e.2 tail) := by
  have hposition : ¬ ∃ e ∈ arr, e.1 = part ∧ Seen p (positionContexts e.2 tail) := by
    rintro ⟨⟨name, v⟩, he, rfl, -⟩
    rw [(getField_eq_some_iff harr).mpr he] at hx
    cases hx
  rw [or_iff_left hposition]
  apply exists_congr
  intro e
  apply and_congr_right
  intro he
  obtain ⟨ks, hks⟩ := hok e he
  obtain ⟨-, -, -, hwf⟩ := exists_numStr_of_mem harr e he
  rw [positional_of_none hx] at hks ⊢
  rw [exists_ok_found hks]
  by_cases hv : ∃ fields, e.2 = .object fields
  · obtain ⟨fields, hv⟩ := hv
    rw [hv] at hks hwf
    rw [hobject _ _ _ _ hwf hks]
    simp [hv]
  · rw [embeddedObject_of_not_object hv] at hks
    rw [hobject _ _ _ _ rfl hks, iff_false_intro (@not_seen_missing p [] part tail rfl), false_iff]
    rintro ⟨fields, hfields, -⟩
    exact hv ⟨fields, hfields⟩

/-- If a position is named, every element leads to the keys of that position. -/
theorem found_elements_of_some (hp : Plain p) {x : Value} (hx : getField arr part = some x)
    (ih : ∀ rest, rest.length ≤ tail.length → rest ≠ [] → PartsNonempty rest → ArrayAgrees p rest)
    (htail : PartsNonempty tail) :
    (∃ e ∈ arr, ∃ ks, getKeysImplWithArray false (part :: tail) fixed (embeddedObject e.2) num
        (of arr (part :: tail)) = .ok ks ∧ Found p ks) ↔
      (∃ e ∈ arr, ∃ fields, e.2 = .object fields ∧ Seen p (elements true fields (part :: tail))) ∨
        ∃ e ∈ arr, e.1 = part ∧ Seen p (positionContexts e.2 tail) := by
  have hmem := (getField_eq_some_iff harr).mp hx
  obtain ⟨-, -, -, hwf⟩ := exists_numStr_of_mem harr _ hmem
  have hsame : ∀ e ∈ arr, getField (embeddedObject e.2) part = none ∧
      keysOfElement fixed num (getFieldDottedOrArray arr (part :: tail)).1
        (getFieldDottedOrArray arr (part :: tail)).2 (isArray x) =
        getKeysImplWithArray false (part :: tail) fixed (embeddedObject e.2) num
          (of arr (part :: tail)) := by
    intro e he
    obtain ⟨ks, hks⟩ := hok e he
    rw [keys_of_position hx] at hks
    rw [keys_of_position hx]
    split at hks
    · cases hks
    next hno => exact ⟨by simpa using hno, by rw [if_neg hno]⟩
  obtain ⟨ks, hks⟩ := hok _ hmem
  have hposition := found_position hp ih htail hx hwf ((hsame _ hmem).2.trans hks)
  have hdocuments : ¬ ∃ e ∈ arr, ∃ fields, e.2 = .object fields ∧
      Seen p (elements true fields (part :: tail)) := by
    rintro ⟨e, he, fields, hv, hseen⟩
    have hno := (hsame e he).1
    rw [hv] at hno
    exact not_seen_missing hno hseen
  rw [or_iff_right hdocuments]
  constructor
  · rintro ⟨e, he, ks', hks', hfound⟩
    rw [← (hsame e he).2, (hsame _ hmem).2, hks] at hks'
    cases hks'
    exact ⟨_, hmem, rfl, hposition.mp hfound⟩
  · rintro ⟨⟨name, v⟩, he, rfl, hseen⟩
    obtain rfl : v = x := Option.some.inj (((getField_eq_some_iff harr).mpr he).symm.trans hx)
    exact ⟨_, hmem, ks, hks, hposition.mpr hseen⟩

end Elements

/-- By induction on the number of parts left: from an array's elements, the walks go on with the
same parts or, past a position, with fewer. -/
theorem arrayAgrees (hp : Plain p) : ∀ (n : Nat) (rest : List Bytes), rest.length ≤ n →
    rest ≠ [] → PartsNonempty rest → ArrayAgrees p rest := by
  intro n
  induction n with
  | zero =>
    intro rest hlen hne
    exact absurd (length_eq_zero_iff.mp (Nat.le_zero.mp hlen)) hne
  | succ n ih =>
    intro rest hlen hne hparts arr fixed num nested keys harr hkeys
    obtain ⟨part, tail, rfl⟩ := exists_cons_of_ne_nil hne
    have hobject : ObjectAgrees p (part :: tail) := fun obj fixed num keys hobj h =>
      found_object hp (fun rest hlt => ih rest (by omega)) hne hparts hobj h
    rw [seen_inArray hparts harr]
    simp only [keysOfElement] at hkeys
    split at hkeys
    next hempty =>
      rw [hobject _ _ _ _ rfl hkeys, hempty]
      simp [@not_seen_missing p [] part tail rfl]
    next =>
      obtain ⟨hok, hfound⟩ := @found_mapM p keys arr _ hkeys
      rw [hfound]
      cases hx : getField arr part with
      | none => exact found_elements_of_none harr hok hobject hx
      | some x =>
        exact found_elements_of_some harr hok hp hx
          (fun rest hle => ih rest (by simp at hlen; omega)) (hparts.of_suffix (suffix_cons _ _))

end

section Equality
variable {v : Value} {keys : List Value}

/-- The set keeps one key of each class of equal ones. -/
theorem found_insertKey {p : Value → Prop} (hp : ∀ a b : Value, a.woCompare b = .eq → (p b ↔ p a))
    (seen keys : List Value) :
    Found p (keys.foldl insertKey seen) ↔ Found p seen ∨ Found p keys := by
  induction keys generalizing seen with
  | nil => simp [Found]
  | cons key keys ih =>
    have hcons : Found p (key :: keys) ↔ p key ∨ Found p keys := by simp [Found]
    rw [foldl_cons, ih, hcons, ← or_assoc]
    apply or_congr_left
    unfold insertKey
    split
    next hk =>
      simp only [any_eq_true, decide_eq_true_eq] at hk
      obtain ⟨k, hmem, hk⟩ := hk
      rw [iff_self_or, hp k key hk]
      exact fun hpk => ⟨k, hmem, hpk⟩
    next => exact exists_mem_append.trans (or_congr_right found_singleton)

/-- A path that `validateKeyPattern` lets an index have: neither it nor a part of it is empty. -/
structure IndexPath where
  path : Bytes
  nonempty : path ≠ []
  parts_nonempty : PartsNonempty (FieldRef.parse path)

theorem IndexPath.parse_ne_nil (P : IndexPath) : FieldRef.parse P.path ≠ [] := by
  unfold FieldRef.parse
  rw [if_neg P.nonempty]
  exact splitOn_ne_nil _ _

theorem IndexPath.eq_of_parse_singleton (P : IndexPath)
    (h : FieldRef.parse P.path = [part]) : P.path = part := by
  unfold FieldRef.parse at h
  rw [if_neg P.nonempty] at h
  have hjoin : [46].intercalate (P.path.splitOn 46) = P.path := intercalate_splitOn 46
  rw [h] at hjoin
  simpa using hjoin.symm

theorem plain_woCompare (hnull : v ≠ .null) (hundef : v ≠ .undefined) (harr : ∀ a, v ≠ .array a) :
    Plain fun k => k.woCompare v = .eq := by
  have hct : v.canonicalType ≠ 0 ∧ v.canonicalType ≠ 5 ∧ v.canonicalType ≠ 25 := by
    cases v <;> simp_all [Value.canonicalType]
  refine ⟨?_, ?_, ?_⟩
  · intro h
    exact hct.2.1 (canonicalType_of_woCompare_eq h).symm
  · intro h
    exact hct.1 (canonicalType_of_woCompare_eq h).symm
  · intro a h
    exact hct.2.2 (canonicalType_of_woCompare_eq h).symm

theorem leafMatches_equality {c : ComparisonMatchExpression} (hc : c.matchType = .eq)
    (hnull : c.rhs ≠ .null) (doc : Obj) :
    leafMatches c.path c.matchesSingleElement doc ↔
      Seen (fun k => k.woCompare c.rhs = .eq) (elements true doc (FieldRef.parse c.path)) := by
  simp only [leafMatches, any_eq_true, equality_matches_iff hc hnull, Seen]

/-- An equality with anything but null or an array matches a document exactly if one of the
document's keys compares equal to the operand. The key of the `_id` index is not expanded, but
an `_id` is never an array. -/
theorem equality_matches_iff_key (P : IndexPath) (doc : Obj) (c : ComparisonMatchExpression)
    (hwf : fieldsPositional doc) (hid : P.path = idField → ∀ a, getField doc idField ≠ some (.array a))
    (hc : c.matchType = .eq) (hpath : c.path = P.path) (hnull : c.rhs ≠ .null)
    (harr : ∀ a, c.rhs ≠ .array a) (hkeys : getKeys false (FieldRef.parse P.path) doc = .ok keys) :
    leafMatches c.path c.matchesSingleElement doc ↔ ∃ k ∈ keys, k.woCompare c.rhs = .eq := by
  have hp := plain_woCompare hnull (rhs_ne_undefined c) harr
  rw [leafMatches_equality hc hnull, hpath]
  change _ ↔ Found _ keys
  unfold getKeys at hkeys
  split at hkeys
  next hparse =>
    cases hkeys
    have hno := hid (P.eq_of_parse_singleton hparse)
    rw [hparse]
    cases hf : getField doc idField with
    | none =>
      rw [elements_of_missing hf]
      simp [hp.null]
    | some w =>
      have hg : getFieldDottedOrArray doc [idField] = (some w, []) := by
        cases w <;> simp [getFieldDottedOrArray, hf]
      rw [elements_of_not_array hg fun a ha => hno a (hf.trans ha)]
      simp
  next =>
    cases himpl : getKeysImplWithArray false (FieldRef.parse P.path) .null doc 0 none with
    | error err => simp [himpl, Except.map] at hkeys
    | ok ks =>
      have hagree := found_object hp (fun rest hlt hne hparts => arrayAgrees hp _ rest le_rfl hne hparts)
        P.parse_ne_nil P.parts_nonempty hwf himpl
      rw [← hagree]
      simp only [himpl, Except.map, Except.ok.injEq] at hkeys
      rw [← hkeys]
      split
      next hempty => simp [hempty.1, Found, hp.null]
      next =>
        rw [found_insertKey]
        · simp [Found]
        · intro a b hab
          rw [Std.TransCmp.congr_left hab]

/-- A document of two nested arrays, whose keys under `a.b` are 1, 2 and 3. -/
def nestedArrays : Obj :=
  [([97], .array [(numStr 0, .object [([98], .numberInt 1)]),
    (numStr 1, .object [([98], .array [(numStr 0, .numberInt 2), (numStr 1, .numberInt 3)])])])]

def dottedPath : IndexPath := ⟨[97, 46, 98], by decide, by unfold PartsNonempty; decide⟩

def equalsThree : ComparisonMatchExpression := ⟨.eq, [97, 46, 98], .numberInt 3, by decide⟩

theorem equality_matches_iff_key_nestedArrays :
    leafMatches equalsThree.path equalsThree.matchesSingleElement nestedArrays ↔
      ∃ k ∈ [Value.numberInt 1, .numberInt 2, .numberInt 3], k.woCompare (.numberInt 3) = .eq :=
  equality_matches_iff_key dottedPath nestedArrays equalsThree (by decide)
    (fun h => absurd h (by decide)) rfl rfl (by simp [equalsThree]) (by simp [equalsThree])
    (by with_unfolding_all rfl)

/-- A document that no collection stores: its `_id` is an array. -/
def arrayId : Obj := [(idField, .array [(numStr 0, .numberInt 5)])]

def idEqualsFive : ComparisonMatchExpression := ⟨.eq, idField, .numberInt 5, by decide⟩

/-- The array is the key of the `_id` index as it is, while the matcher looks into it. -/
theorem array_id_not_expanded :
    fieldsPositional arrayId ∧
      getKeys false (FieldRef.parse idField) arrayId =
        .ok [.array [(numStr 0, .numberInt 5)]] ∧
      leafMatches idEqualsFive.path idEqualsFive.matchesSingleElement arrayId ∧
      ¬ ∃ k ∈ [Value.array [(numStr 0, .numberInt 5)]], k.woCompare idEqualsFive.rhs = .eq := by
  refine ⟨by decide, by with_unfolding_all rfl, ?_, by decide⟩
  rw [leafMatches_equality rfl (by simp [idEqualsFive])]
  refine ⟨⟨some (.numberInt 5), false⟩, ?_, .numberInt 5, rfl, by decide⟩
  have hg : getFieldDottedOrArray arrayId (FieldRef.parse idField) =
      (some (.array [(numStr 0, .numberInt 5)]), []) := by with_unfolding_all rfl
  change _ ∈ elements true arrayId (FieldRef.parse idField)
  rw [elements_of_array hg]
  simp [hasMore, leafArray]

end Equality

end MongolDb.Index
