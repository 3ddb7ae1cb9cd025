import MongolDb.Query.ScanRuns
import MongolDb.Matcher.Leaf

/-! A scan that skips by the bounds returns exactly the keys within them. -/
namespace MongolDb.Query
open ByteOrder Bson Intervals IndexBoundsChecker IndexEntryComparison List

/-! Bounds that are valid for a key pattern. -/

/-- The value lies between the ends of the interval, which runs in this direction. -/
def liesAlong (d : Direction) (interval : Interval Value) (v : Value) : Bool :=
  (v.woCompare interval.start = d.sign ||
    (v.woCompare interval.start = .eq && interval.startInclusive)) &&
  (v.woCompare interval.stop = d.sign.swap ||
    (v.woCompare interval.stop = .eq && interval.stopInclusive))

/-- The value lies in the interval, whichever way it runs. -/
def lies (interval : Interval Value) (v : Value) : Bool :=
  liesAlong .forward interval v || liesAlong .backward interval v

/-- Each value of the key lies in an interval of its field. -/
def IndexBounds.admits (bounds : IndexBounds) (key : IndexKey) : Bool :=
  (bounds.fields.zip key).all fun fv => fv.1.intervals.any (lies · fv.2)

/-- The bounds of the fields as the checker takes them. -/
def boundsOf (direction : Direction) (fields : List OrderedIntervalList) (pattern : Obj) :
    List FieldBounds :=
  List.zipWith (fun oil elt => ⟨oil.intervals, (indexDirection elt).mul direction⟩) fields pattern

section Bounds
variable {d direction : Direction} {I : Interval Value} {v : Value}
  {fields : List OrderedIntervalList} {pattern : Obj} {order : KeyOrdering}

theorem liesAlong_iff : liesAlong d I v = true ↔ I.Contains (place d) v := by
  rw [liesAlong, Bool.and_eq_true, starts_iff, ends_iff]
  rfl

theorem place_lt_opposite {l r : Value} :
    place (Direction.backward.mul d) l < place (Direction.backward.mul d) r ↔
      place d r < place d l := by
  rw [← woCompare_eq_sign, ← woCompare_eq_swap_sign]
  cases d <;> rfl

theorem place_eq_opposite {l r : Value} :
    place (Direction.backward.mul d) l = place (Direction.backward.mul d) r ↔
      place d l = place d r := by
  rw [← woCompare_eq_eq, ← woCompare_eq_eq]

/-- An interval that runs in one direction contains nothing else in the other. -/
theorem contains_of_opposite (hI : I.Runs (place d))
    (h : I.Contains (place (Direction.backward.mul d)) v) : I.Contains (place d) v := by
  obtain ⟨hs, he⟩ := h
  rw [Interval.Starts, place_lt_opposite, place_eq_opposite] at hs
  rw [Interval.Ends, place_lt_opposite, place_eq_opposite] at he
  have hvs : place d v ≤ place d I.start := by
    rcases hs with hs | ⟨hs, -⟩
    · exact hs.le
    · exact hs.ge
  have hev : place d I.stop ≤ place d v := by
    rcases he with he | ⟨he, -⟩
    · exact he.le
    · exact he.ge
  rcases hI with hI | ⟨hI, hinc, hinc'⟩
  · exact absurd (hev.trans hvs) hI.not_ge
  · have hv : place d I.start = place d v := le_antisymm (hI.le.trans hev) hvs
    exact ⟨.inr ⟨hv, hinc⟩, .inr ⟨hv.symm.trans hI, hinc'⟩⟩

theorem lies_iff (hI : I.Runs (place d)) : lies I v = true ↔ I.Contains (place d) v := by
  simp only [lies, Bool.or_eq_true, liesAlong_iff]
  cases d with
  | forward => exact ⟨Or.rec id (contains_of_opposite hI), .inl⟩
  | backward => exact ⟨Or.rec (contains_of_opposite hI) id, .inr⟩

theorem any_lies_iff {l : List (Interval Value)} (hl : Ordered (place d) l) :
    l.any (lies · v) = true ↔ Covers (place d) l v := by
  rw [any_eq_true]
  exact exists_congr fun I => and_congr_right fun hI => lies_iff (hl.runs I hI)

theorem Direction.mul_comm (d e : Direction) : d.mul e = e.mul d := by
  cases d <;> cases e <;> rfl

section
variable (h : fieldsValidFor direction fields pattern)
include h

/-- The intervals of each field are in the order in which the scan meets its values. -/
theorem ordered_of_fieldsValidFor :
    List.Forall₂ (fun oil elt => Ordered (place ((indexDirection elt).mul direction)) oil.intervals)
      fields pattern := by
  fun_induction fieldsValidFor direction fields pattern with
  | case1 oil fields elt pattern ih =>
    rw [Bool.and_eq_true, Bool.and_eq_true, Direction.mul_comm] at h
    exact .cons (ordered_of_isValidFor h.1.2) (ih h.2)
  | case2 => exact .nil
  | case3 => cases h

theorem valid_boundsOf : ∀ b ∈ boundsOf direction fields pattern, b.Valid := by
  replace h := ordered_of_fieldsValidFor h
  induction h with
  | nil => exact forall_mem_nil _
  | cons hl _ ih => exact forall_mem_cons.mpr ⟨hl, ih⟩

theorem make_eq (hne : ∀ f ∈ fields, f.intervals ≠ []) :
    ∃ checked, make direction fields pattern = some checked ∧
      checked.map CheckedField.bounds = boundsOf direction fields pattern := by
  replace h := ordered_of_fieldsValidFor h
  induction h with
  | nil => exact ⟨[], rfl, rfl⟩
  | @cons oil elt _ _ _ _ ih =>
    obtain ⟨hpos, hne⟩ := forall_mem_cons.mp hne
    obtain ⟨checked, hmake, hbounds⟩ := ih hne
    rw [← length_pos_iff] at hpos
    refine ⟨⟨oil.intervals, (indexDirection elt).mul direction, ⟨0, hpos⟩⟩ :: checked, ?_, ?_⟩
    · rw [make, dif_pos hpos, hmake]
      rfl
    · rw [map_cons, hbounds]
      rfl

end

theorem admits_iff {bounds : IndexBounds} {key : IndexKey}
    (h : bounds.isValidFor pattern direction)
    (hkey : key.length = (boundsOf direction bounds.fields pattern).length) :
    bounds.admits key = true ↔ InBounds (boundsOf direction bounds.fields pattern) key := by
  obtain ⟨fields⟩ := bounds
  simp only [IndexBounds.admits] at hkey ⊢
  replace h : List.Forall₂ _ fields pattern := ordered_of_fieldsValidFor h
  induction h generalizing key with
  | nil =>
    obtain rfl : key = [] := length_eq_zero_iff.mp hkey
    exact ⟨fun _ => .nil, fun _ => rfl⟩
  | @cons oil _ _ _ hl _ ih =>
    cases key with
    | nil => cases hkey
    | cons v key =>
      rw [zip_cons_cons, all_cons, Bool.and_eq_true, any_lies_iff hl]
      refine (and_congr_right' (ih (Nat.succ.inj hkey))).trans ?_
      exact (@forall₂_cons _ _ FieldBounds.Holds ⟨oil.intervals, _⟩ v _ key).symm

/-- The order made from a pattern descends where the value of a field is negative. -/
theorem descending_makeFrom {n : Nat} {b : BitVec 32}
    (h : KeyOrdering.makeFrom n b pattern = some order)
    (hb : ∀ i, n ≤ i → b.getLsbD i = false) :
    (∀ i, i < n → order.descending i = b.getLsbD i) ∧
      ∀ before elt after, pattern = before ++ elt :: after →
        order.descending (n + before.length) = elt.2.numberIsNegative := by
  induction pattern generalizing n b with
  | nil =>
    obtain rfl : (⟨b⟩ : KeyOrdering) = order := Option.some.inj h
    exact ⟨fun _ _ => rfl, fun before elt after h => by simp at h⟩
  | cons f rest ih =>
    rw [KeyOrdering.makeFrom] at h
    by_cases hle : n ≤ 31
    · rw [if_pos hle] at h
      have hbit : ∀ i, (if f.2.numberIsNegative then b ||| (1#32 <<< n) else b).getLsbD i =
          (b.getLsbD i || (f.2.numberIsNegative && decide (i = n))) := by
        intro i
        cases f.2.numberIsNegative with
        | false => simp
        | true =>
          by_cases hi : i = n
          · simp [hi, show n < 32 by omega]
          · rcases Nat.lt_or_gt_of_ne hi with hlt | hgt
            · simp [BitVec.getLsbD_shiftLeft, hlt, hi]
            · simp [BitVec.getLsbD_shiftLeft, BitVec.getLsbD_one, hi, show i - n ≠ 0 by omega]
      obtain ⟨hlow, hhigh⟩ := ih h fun i hi => by
        rw [hbit, hb i (by omega), decide_eq_false (by omega), Bool.and_false, Bool.or_false]
      refine ⟨fun i hi => ?_, fun before elt after hsplit => ?_⟩
      · rw [hlow i (by omega), hbit, decide_eq_false (by omega), Bool.and_false, Bool.or_false]
      · cases before with
        | nil =>
          obtain ⟨rfl, -⟩ := cons.inj hsplit
          rw [length_nil, Nat.add_zero, hlow n (by omega), hbit, hb n le_rfl,
            decide_eq_true rfl, Bool.and_true, Bool.false_or]
        | cons g before =>
          have hlast := hhigh before elt after (cons.inj hsplit).2
          rw [length_cons, ← hlast]
          congr 1
          omega
    · rw [if_neg hle] at h
      cases h

theorem numberIsNegative_eq (h : v.isNaN = false) :
    v.numberIsNegative = !numberIsNonNegative v := by
  cases v with
  | numberInt n =>
    rw [Value.numberIsNegative, numberIsNonNegative, ← decide_not]
    exact decide_eq_decide.mpr Int32.not_le.symm
  | numberLong n =>
    rw [Value.numberIsNegative, numberIsNonNegative, ← decide_not]
    exact decide_eq_decide.mpr Int64.not_le.symm
  | numberDouble x =>
    have hx : x.isNaN = false := h
    simp [Value.numberIsNegative, numberIsNonNegative, hx]
  | _ => rfl

/-- Without NaN the checker takes the fields as the index has them. -/
theorem agrees_boundsOf (hmake : KeyOrdering.make pattern = some order)
    (hnan : ∀ elt ∈ pattern, elt.2.isNaN = false) :
    Agrees order direction 0 (boundsOf direction fields pattern) := by
  have hdescending := (descending_makeFrom hmake (by simp)).2
  -- from any field on
  have hfrom : ∀ before rest (fields : List OrderedIntervalList), pattern = before ++ rest →
      Agrees order direction before.length (boundsOf direction fields rest) := by
    intro before rest
    induction rest generalizing before with
    | nil =>
      intro fields _
      rw [boundsOf, zipWith_nil_right]
      trivial
    | cons elt rest ih =>
      intro fields hsplit
      cases fields with
      | nil => trivial
      | cons oil fields =>
        refine ⟨?_, ?_⟩
        · have hsign := hdescending before elt rest hsplit
          rw [Nat.zero_add, numberIsNegative_eq (hnan elt (by simp [hsplit]))] at hsign
          simp only [orderedDirection, hsign, indexDirection]
          cases numberIsNonNegative elt.2 <;> rfl
        · have hrest := ih (before ++ [elt]) fields (by simp [hsplit])
          rwa [length_append] at hrest
  exact hfrom [] pattern fields rfl

end Bounds

/-- Each seek that the checker asks for lands behind the key that the scan is on. -/
def SeeksForward (order : KeyOrdering) (direction : Direction) (keys : List IndexKey)
    (checker : List CheckedField) : Prop :=
  ∀ key rest fields out fields', Visits order direction keys checker (key :: rest, fields) →
    checkKey fields key = some (.mustAdvance out, fields') →
    ∀ key' rest', seek order direction keys out = key' :: rest' →
      IndexEntryComparison.compare order 0 (stored key) (stored key') = direction.sign.swap

/-- With an index in this order, each scan by valid bounds returns exactly the keys within them, in
the order of the scan, and goes forward with each seek. One round for each key, and a last one, are
enough. -/
def ScansExactly (order : KeyOrdering) (keyPattern : Obj) (direction : Direction) : Prop :=
  ∀ (bounds : IndexBounds) (keys : List IndexKey), bounds.fields ≠ [] →
    (∀ f ∈ bounds.fields, f.intervals ≠ []) → bounds.isValidFor keyPattern direction = true →
    SortedKeys order keyPattern.length keys →
    (∀ fuel, keys.length < fuel → scan fuel bounds keyPattern direction keys =
      some ((scanOrder direction keys).filter bounds.admits)) ∧
    ∀ checker, make direction bounds.fields keyPattern = some checker →
      SeeksForward order direction keys checker

section
variable {order : KeyOrdering} {pattern : Obj} {direction : Direction}

theorem scansExactly_of_no_nan (hmake : KeyOrdering.make pattern = some order)
    (hnan : ∀ elt ∈ pattern, elt.2.isNaN = false) : ScansExactly order pattern direction := by
  intro bounds keys hfields hne hvalid hkeys
  have hlen := (ordered_of_fieldsValidFor hvalid).length_eq
  have hscan : Scannable order direction (boundsOf direction bounds.fields pattern) keys := by
    have hbounds : (boundsOf direction bounds.fields pattern).length = pattern.length := by
      rw [boundsOf, length_zipWith, hlen, Nat.min_self]
    refine ⟨?_, valid_boundsOf hvalid, agrees_boundsOf hmake hnan, hbounds ▸ hkeys⟩
    intro hnil
    rw [hnil, ← hlen] at hbounds
    exact hfields (length_eq_zero_iff.mp hbounds.symm)
  obtain ⟨checker, hchecker, hbounds⟩ := make_eq hvalid hne
  refine ⟨fun fuel hfuel => ?_, ?_⟩
  · have hadmits : ∀ k, k.length = (boundsOf direction bounds.fields pattern).length →
        (bounds.admits k = true ↔ InBounds (boundsOf direction bounds.fields pattern) k) :=
      fun k hk => admits_iff hvalid hk
    obtain ⟨skipped, hkeysEq, hskipped⟩ := hscan.start_eq hbounds
    have hcount : (scanOrder direction keys).length = keys.length := by
      cases direction <;> simp [scanOrder]
    have hrun := @Scannable.scanFrom_eq _ _ _ _ _ skipped _ fuel hscan hbounds bounds.admits hadmits
      hkeysEq (by
        rw [← hcount, hkeysEq, length_append] at hfuel
        omega)
    have hout : skipped.filter bounds.admits = [] := by
      rw [filter_eq_nil_iff]
      intro k hk
      rw [hadmits k (hscan.length_eq (hkeysEq ▸ mem_append_left _ hk))]
      exact hskipped k hk
    simp only [scan, hmake, hchecker, hrun]
    conv_rhs => rw [hkeysEq, filter_append, hout, nil_append]
  · intro checker' hchecker' key rest fields out fields' hvisits hcheck key' rest' hlands
    obtain rfl : checker = checker' := Option.some.inj (hchecker.symm.trans hchecker')
    obtain ⟨hsame, hsubset⟩ := hscan.visits hbounds hvisits
    have hkey := hscan.length_eq (hsubset (mem_cons_self))
    obtain ⟨state, fields'', hcheck', -, hsound⟩ := hscan.checkKey_spec hsame hkey
    obtain ⟨rfl, rfl⟩ := Prod.mk.inj (Option.some.inj (hcheck'.symm.trans hcheck))
    exact hscan.lands_later hkey hsound hlands

end

/-! A field whose value is NaN is in ascending order in the index, and descending for the checker. -/

def point (v : Value) : Interval Value := ⟨v, true, v, true⟩

/-- Bounds of points, for the fields of a pattern. -/
def pointBounds (l : List ((Bytes × Value) × List Value)) : IndexBounds :=
  ⟨l.map fun x => ⟨x.1.1, x.2.map point⟩⟩

section NaN
variable {order : KeyOrdering} {direction : Direction}
  {l before after : List ((Bytes × Value) × List Value)} {x : (Bytes × Value) × List Value}

theorem pointBounds_isValidFor
    (h : ∀ x ∈ l, OrderedIntervalList.isValidFor ⟨x.1.1, x.2.map point⟩
      (direction.mul (indexDirection x.1)) = true) :
    (pointBounds l).isValidFor (l.map Prod.fst) direction = true := by
  simp only [IndexBounds.isValidFor, pointBounds]
  induction l with
  | nil => rfl
  | cons x l ih =>
    have hrest := ih (forall_mem_cons.mp h).2
    simp [fieldsValidFor, h x (by simp), hrest]

theorem lies_point (v : Value) : lies (point v) v = true := by
  have hself : v.woCompare v = .eq := Std.ReflCmp.compare_self
  simp [lies, liesAlong, point, hself]

theorem pointBounds_admits {pick : (Bytes × Value) × List Value → Value}
    (h : ∀ x ∈ l, pick x ∈ x.2) : (pointBounds l).admits (l.map pick) = true := by
  simp only [IndexBounds.admits, pointBounds, zip_map', all_map, all_eq_true]
  intro x hx
  simp only [Function.comp, any_map, any_eq_true]
  exact ⟨pick x, h x hx, lies_point _⟩

/-- The key of the first points. -/
def firstPoints (l : List ((Bytes × Value) × List Value)) : IndexKey :=
  l.map fun x => x.2.headD .null

def lastPoints (l : List ((Bytes × Value) × List Value)) : IndexKey :=
  l.map fun x => x.2.getLastD .null

theorem target_start_pointBounds {checker : List CheckedField} (h : ∀ x ∈ l, x.2 ≠ [])
    (hchecker : checker.map CheckedField.bounds =
      boundsOf direction (pointBounds l).fields (l.map Prod.fst)) :
    (getStartSeekPoint checker).target = (firstPoints l).map (·, true) := by
  induction l generalizing checker with
  | nil =>
    obtain rfl : checker = [] := map_eq_nil_iff.mp hchecker
    rfl
  | cons x l ih =>
    obtain ⟨f, fields, rfl, hf, hfields⟩ := map_eq_cons_iff.mp hchecker
    have hrest := ih (forall_mem_cons.mp h).2 hfields
    obtain ⟨intervals, d, i⟩ := f
    obtain ⟨elt, points⟩ := x
    obtain ⟨rfl, -⟩ : intervals = points.map point ∧ _ := FieldBounds.mk.inj hf
    cases points with
    | nil => exact absurd rfl (h _ mem_cons_self)
    | cons v points => exact congrArg ((v, true) :: ·) hrest

theorem compare_append (key : IndexKey) (i : Nat) (a b : QueryObject) :
    IndexEntryComparison.compare order i (stored key ++ a) (stored key ++ b) =
      IndexEntryComparison.compare order (i + key.length) a b := by
  induction key generalizing i with
  | nil => rfl
  | cons v key ih =>
    have hself : v.woCompare v = .eq := Std.ReflCmp.compare_self
    refine (compare_cons_of_eq hself).trans ((ih (i + 1)).trans ?_)
    rw [length_cons, Nat.add_right_comm, Nat.add_assoc]

theorem pointBounds_nonempty
    (h : ∀ x ∈ l, x.2.headD .null ∈ x.2 ∧ x.2.getLastD .null ∈ x.2) :
    ∀ f ∈ (pointBounds l).fields, f.intervals ≠ [] := by
  intro f hf
  obtain ⟨x, hx, rfl⟩ := mem_map.mp hf
  simpa using ne_nil_of_mem (h x hx).1

theorem scanOrder_scanOrder (direction : Direction) (keys : List IndexKey) :
    scanOrder direction (scanOrder direction keys) = keys := by
  cases direction
  · rfl
  · exact reverse_reverse keys

theorem sortedKeys_points (h : IndexEntryComparison.compare order 0 (stored (lastPoints l))
      (stored (firstPoints l)) = direction.sign.swap) :
    SortedKeys order (l.map Prod.fst).length
      (scanOrder direction [lastPoints l, firstPoints l]) := by
  have hlen : ∀ key ∈ [lastPoints l, firstPoints l], key.length = (l.map Prod.fst).length := by
    simp [firstPoints, lastPoints]
  cases direction with
  | forward =>
    refine ⟨hlen, pairwise_pair.mpr ?_⟩
    rw [h]
    decide
  | backward =>
    refine ⟨fun key hkey => hlen key (mem_reverse.mp hkey), ?_⟩
    rw [scanOrder, pairwise_reverse, pairwise_pair,
      compare_stored_swap (by simp [firstPoints, lastPoints]), h]
    decide

/-- A key within the bounds is valid, whatever the order of the index. -/
theorem checkKey_of_inBounds {bs : List FieldBounds} {fields : List CheckedField} {key : IndexKey}
    (hfields : fields.map CheckedField.bounds = bs) (hvalid : ∀ b ∈ bs, b.Valid) (hne : bs ≠ [])
    (hin : InBounds bs key) : ∃ fields', checkKey fields key = some (.valid, fields') := by
  subst hfields
  have hlen : fields.length = key.length := by simpa using hin.length_eq
  obtain ⟨state, fields', hcheck, -, hsound⟩ :=
    checkKey_answers hvalid (fun h => hne (by rw [h]; rfl)) hlen
  cases state with
  | valid => exact ⟨fields', hcheck⟩
  | mustAdvance p => exact absurd hsound.2.1 (hsound.2.2 key (.refl _ key) hin)
  | done => exact absurd hin (hsound key (.refl _ key))

/-- If the index has the last points before the first, the scan returns the first points only. -/
theorem scan_pointBounds (hmake : KeyOrdering.make (l.map Prod.fst) = some order)
    (hvalid : (pointBounds l).isValidFor (l.map Prod.fst) direction = true) (hne : l ≠ [])
    (hpoints : ∀ x ∈ l, x.2.headD .null ∈ x.2 ∧ x.2.getLastD .null ∈ x.2)
    (hcompare : IndexEntryComparison.compare order 0 (stored (lastPoints l))
      (stored (firstPoints l)) = direction.sign.swap) :
    scan 3 (pointBounds l) (l.map Prod.fst) direction
      (scanOrder direction [lastPoints l, firstPoints l]) = some [firstPoints l] := by
  obtain ⟨checker, hchecker, hbounds⟩ := make_eq hvalid (pointBounds_nonempty hpoints)
  have hquery : makeQueryObject (getStartSeekPoint checker) direction = stored (firstPoints l) := by
    rw [makeQueryObject_eq, target_start_pointBounds
      (fun x hx => ne_nil_of_mem (hpoints x hx).1) hbounds, stored_eq]
  have hself : IndexEntryComparison.compare order 0 (stored (firstPoints l))
      (stored (firstPoints l)) = .eq := by
    have := @compare_append order (firstPoints l) 0 [] []
    rwa [append_nil] at this
  have hlast : passes order direction (getStartSeekPoint checker) (lastPoints l) = true := by
    rw [passes, hquery, hcompare, decide_eq_true rfl]
  have hfirst : passes order direction (getStartSeekPoint checker) (firstPoints l) = false := by
    rw [passes, hquery, hself]
    cases direction <;> rfl
  have hseek : seek order direction (scanOrder direction [lastPoints l, firstPoints l])
      (getStartSeekPoint checker) = [firstPoints l] := by
    rw [seek, scanOrder_scanOrder, dropWhile_cons_of_pos hlast,
      dropWhile_cons_of_neg (by simp [hfirst])]
  have hlen : (boundsOf direction (pointBounds l).fields (l.map Prod.fst)).length = l.length := by
    simp [boundsOf, pointBounds]
  have hin : InBounds (boundsOf direction (pointBounds l).fields (l.map Prod.fst))
      (firstPoints l) := by
    rw [← admits_iff hvalid (by rw [hlen, firstPoints, length_map])]
    exact pointBounds_admits fun x hx => (hpoints x hx).1
  obtain ⟨checker', hcheck⟩ := checkKey_of_inBounds hbounds (valid_boundsOf hvalid)
    (fun h => hne (length_eq_zero_iff.mp (by rw [← hlen, h]; rfl))) hin
  simp [scan, hmake, hchecker, hseek, scanFrom, hcheck]

theorem signs_of_isNaN {v : Value} (h : v.isNaN = true) :
    numberIsNonNegative v = false ∧ v.numberIsNegative = false := by
  cases v with
  | numberDouble d =>
    have hd : d.isNaN = true := h
    simp [numberIsNonNegative, Value.numberIsNegative, Binary64.lt, hd]
  | _ => cases h

/-- Two points that the checker meets in this order on a field that descends for it. -/
def trapPoints (direction : Direction) : List Value :=
  match direction with
  | .forward => [.numberInt 2, .numberInt 1]
  | .backward => [.numberInt 1, .numberInt 2]

/-- Bounds with two points on the field `elt` and one on the others. -/
def trap (direction : Direction) (before : Obj) (elt : Bytes × Value) (after : Obj) :
    List ((Bytes × Value) × List Value) :=
  before.map (·, [.null]) ++ (elt, trapPoints direction) :: after.map (·, [.null])

section Trap
variable {before after : Obj} {elt : Bytes × Value}

theorem trap_pattern : (trap direction before elt after).map Prod.fst = before ++ elt :: after := by
  simp [trap, Function.comp_def]

/-- The key of the last points is met before the key of the first. -/
theorem compare_lastPoints (horder : order.descending before.length = false) :
    IndexEntryComparison.compare order 0 (stored (lastPoints (trap direction before elt after)))
      (stored (firstPoints (trap direction before elt after))) = direction.sign.swap := by
  have hsplit : ∀ pick : List Value → Value, pick [.null] = .null →
      stored ((trap direction before elt after).map fun x => pick x.2) =
        stored (before.map fun _ => .null) ++
          (pick (trapPoints direction), .normal) :: stored (after.map fun _ => .null) := by
    intro pick hnull
    simp [trap, stored, Function.comp_def, hnull]
  have hcmp : ((trapPoints direction).getLastD .null).woCompare ((trapPoints direction).headD .null) =
      direction.sign.swap := by
    cases direction <;> decide +kernel
  rw [lastPoints, firstPoints, hsplit (·.getLastD _) rfl, hsplit (·.headD _) rfl,
    compare_append, compare_cons_of_ne]
  · rw [Nat.zero_add, length_map, horder]
    simpa using hcmp
  · rw [hcmp]
    cases direction <;> decide

theorem forall_mem_trap {p : (Bytes × Value) × List Value → Prop} (hnull : ∀ e, p (e, [.null]))
    (helt : p (elt, trapPoints direction)) : ∀ x ∈ trap direction before elt after, p x := by
  simp only [trap, forall_mem_append, forall_mem_cons, forall_mem_map]
  exact ⟨fun e _ => hnull e, helt, fun e _ => hnull e⟩

theorem trap_isValidFor (hnan : elt.2.isNaN = true) :
    (pointBounds (trap direction before elt after)).isValidFor (before ++ elt :: after) direction =
      true := by
  rw [← @trap_pattern direction]
  apply pointBounds_isValidFor
  apply forall_mem_trap
  · intro e
    cases direction.mul (indexDirection e) <;> rfl
  · rw [indexDirection, (signs_of_isNaN hnan).1]
    simp only [OrderedIntervalList.isValidFor]
    cases direction <;> decide +kernel

theorem trap_points :
    ∀ x ∈ trap direction before elt after, x.2.headD .null ∈ x.2 ∧ x.2.getLastD .null ∈ x.2 := by
  apply forall_mem_trap
  · simp
  · cases direction <;> simp [trapPoints]

/-- The scan starts at the first points, and does not meet the last ones. -/
theorem not_scansExactly_of_nan (hmake : KeyOrdering.make (before ++ elt :: after) = some order)
    (hnan : elt.2.isNaN = true) : ¬ ScansExactly order (before ++ elt :: after) direction := by
  intro h
  have horder : order.descending before.length = false := by
    have hsign := (descending_makeFrom hmake (by simp)).2 before elt after rfl
    rwa [Nat.zero_add, (signs_of_isNaN hnan).2] at hsign
  have hpoints := @trap_points direction before after elt
  have hvalid := @trap_isValidFor direction before after elt hnan
  have hcompare := @compare_lastPoints order direction before after elt horder
  rw [← @trap_pattern direction before after elt] at h hmake hvalid
  have hne : trap direction before elt after ≠ [] := by simp [trap]
  have hfields : (pointBounds (trap direction before elt after)).fields ≠ [] :=
    mt map_eq_nil_iff.mp hne
  have hscan := scan_pointBounds hmake hvalid hne hpoints hcompare
  have hexact := (h _ _ hfields (pointBounds_nonempty hpoints) hvalid
    (sortedKeys_points hcompare)).1 3 (by cases direction <;> exact Nat.lt_succ_self 2)
  have hfirst : (pointBounds (trap direction before elt after)).admits (firstPoints _) = true :=
    pointBounds_admits fun x hx => (hpoints x hx).1
  have hlast : (pointBounds (trap direction before elt after)).admits (lastPoints _) = true :=
    pointBounds_admits fun x hx => (hpoints x hx).2
  rw [scanOrder_scanOrder, filter_cons_of_pos hlast, filter_cons_of_pos hfirst,
    hscan] at hexact
  exact absurd (congrArg length (Option.some.inj hexact)) (by simp)

end Trap

end NaN

/-- A scan that skips by valid bounds returns exactly the keys within them, each once and in the
order of the scan, and each of its seeks goes forward, if and only if no field of the key pattern
is NaN. -/
theorem scansExactly_iff {keyPattern : Obj} {order : KeyOrdering}
    (hmake : KeyOrdering.make keyPattern = some order) (direction : Direction) :
    ScansExactly order keyPattern direction ↔ ∀ elt ∈ keyPattern, elt.2.isNaN = false := by
  refine ⟨fun h elt helt => ?_, scansExactly_of_no_nan hmake⟩
  by_contra hnan
  obtain ⟨before, after, rfl⟩ := append_of_mem helt
  exact not_scansExactly_of_nan hmake (Bool.not_eq_false _ ▸ hnan) h

/-- On an index with an ascending and a descending field. -/
theorem scansExactly_iff_mixed :
    KeyOrdering.make [([97], .numberInt 1), ([98], .numberInt (-1))] = some ⟨2#32⟩ ∧
    ScansExactly ⟨2#32⟩ [([97], .numberInt 1), ([98], .numberInt (-1))] .backward := by
  have hmake : KeyOrdering.make [([97], .numberInt 1), ([98], .numberInt (-1))] = some ⟨2#32⟩ := by
    decide
  exact ⟨hmake, (scansExactly_iff hmake .backward).mpr (by decide)⟩

/-- An index on one field whose value is NaN, with the keys 1 and 2 in this order, as the index has
them. The bounds [2, 2] and [1, 1] are valid for it, and the scan finds the key 2 only. -/
theorem nan_pattern_loses_key :
    let pattern : Obj := [([97], .numberDouble (.ofWord 0x7ff8000000000000))]
    let bounds : IndexBounds := ⟨[⟨[97], [point (.numberInt 2), point (.numberInt 1)]⟩]⟩
    let keys : List IndexKey := [[.numberInt 1], [.numberInt 2]]
    KeyOrdering.make pattern = some ⟨0#32⟩ ∧ bounds.isValidFor pattern .forward = true ∧
    IndexEntryComparison.compare ⟨0#32⟩ 0 (stored [.numberInt 1]) (stored [.numberInt 2]) = .lt ∧
    keys.all bounds.admits = true ∧
    (scan 3 bounds pattern .forward keys).map List.length = some 1 := by
  decide +kernel

end MongolDb.Query
