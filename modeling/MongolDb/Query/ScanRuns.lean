import MongolDb.Query.CheckedKeys
import MongolDb.Lib.Reach

/-! A scan by the answers of the bounds checker, on an index whose order is that of the checker. -/
namespace MongolDb.Query
open Bson Transition IndexBoundsChecker IndexEntryComparison List

/-! Query objects and the positions they stand for. -/

section
variable {order : KeyOrdering} {direction : Direction} {bs : List FieldBounds} {i : Nat}
  {key key' : IndexKey} {target : List (Value × Bool)}

theorem querySuffix_exclusiveTarget (direction : Direction) (key : IndexKey) :
    querySuffix direction (exclusiveTarget key) = exclusivePrefix direction key := by
  induction key with
  | nil => rfl
  | cons v key ih =>
    cases key with
    | nil => rfl
    | cons w key => exact congrArg ((v, .normal) :: ·) ih

theorem querySuffix_append (direction : Direction) (key : IndexKey) (q : List (Value × Bool)) :
    querySuffix direction (key.map (·, true) ++ q) = stored key ++ querySuffix direction q := by
  induction key with
  | nil => rfl
  | cons v key ih => exact congrArg ((v, .normal) :: ·) ih

theorem stored_eq (direction : Direction) (key : IndexKey) :
    querySuffix direction (key.map (·, true)) = stored key := by
  have h := querySuffix_append direction key []
  rwa [append_nil, querySuffix, append_nil] at h

theorem makeQueryObject_eq (p : IndexSeekPoint) (direction : Direction) :
    makeQueryObject p direction = querySuffix direction p.target := by
  unfold makeQueryObject IndexSeekPoint.target
  split
  · exact (querySuffix_exclusiveTarget _ _).symm
  · exact (querySuffix_append _ _ _).symm

/-- The direction of a field in the order of the index. -/
def orderedDirection (order : KeyOrdering) (i : Nat) : Direction :=
  if order.descending i then .backward else .forward

/-- The directions that the checker goes by, from field `i` on, are those of the index. -/
def Agrees (order : KeyOrdering) (direction : Direction) : Nat → List FieldBounds → Prop
  | i, b :: bs =>
    b.direction = (orderedDirection order i).mul direction ∧ Agrees order direction (i + 1) bs
  | _, [] => True

/-- One field of a comparison in the order of the index. -/
theorem oriented_eq_swap_sign (order : KeyOrdering) (direction : Direction) (i : Nat)
    (cmp : Ordering) :
    (if order.descending i then cmp.swap else cmp) = direction.sign.swap ↔
      cmp = ((orderedDirection order i).mul direction).sign.swap := by
  rw [orderedDirection]
  cases order.descending i <;> cases direction <;> cases cmp <;> decide

section
variable {v w : Value} {l r : QueryObject} {lEq rEq : BehaviorIfFieldIsEqual}

theorem compare_cons_of_ne (h : v.woCompare w ≠ .eq) :
    IndexEntryComparison.compare order i ((v, lEq) :: l) ((w, rEq) :: r) =
      if order.descending i then (v.woCompare w).swap else v.woCompare w := by
  unfold IndexEntryComparison.compare
  split
  · contradiction
  · rfl

theorem compare_cons_of_eq (h : v.woCompare w = .eq) :
    IndexEntryComparison.compare order i ((v, .normal) :: l) ((w, .normal) :: r) =
      IndexEntryComparison.compare order (i + 1) l r := by
  rw [IndexEntryComparison.compare, h]

theorem compare_cons_exclusive (h : v.woCompare w = .eq) :
    IndexEntryComparison.compare order i ((v, .normal) :: l) [(w, exclusive direction)] =
      direction.sign.swap := by
  cases direction <;> simp [IndexEntryComparison.compare, exclusive, h, Direction.sign]

end

/-- A key that compares as before the query object is one that the scan meets before the target. -/
theorem compare_querySuffix_iff (hagrees : Agrees order direction i bs)
    (hlen : key.length = bs.length) (hc : Complete bs.length target) :
    IndexEntryComparison.compare order i (stored key) (querySuffix direction target) =
      direction.sign.swap ↔ Passed bs key target := by
  induction bs generalizing i key target with
  | nil =>
    obtain rfl : key = [] := length_eq_zero_iff.mp hlen
    obtain rfl : target = [] := length_eq_zero_iff.mp (Nat.le_zero.mp hc.1)
    cases direction <;> exact ⟨nofun, False.elim⟩
  | cons b bs ih =>
    obtain ⟨hb, hagrees⟩ := hagrees
    cases key with
    | nil => cases hlen
    | cons v key =>
      match target, hc with
      | [], hc => simp [Complete] at hc
      | (w, inclusive) :: target, hc =>
        have hplace : v.woCompare w = .eq ↔ place b.direction v = place b.direction w :=
          woCompare_eq_eq
        by_cases heq : v.woCompare w = .eq
        · cases inclusive with
          | false =>
            refine ⟨fun _ => .inr ⟨hplace.mp heq, nofun⟩, fun _ => ?_⟩
            exact compare_cons_exclusive heq
          | true =>
            have hc' : Complete bs.length target := by
              simpa [Complete] using hc
            refine (Iff.of_eq (congrArg (· = _) (compare_cons_of_eq heq))).trans
              ((ih hagrees (Nat.succ.inj hlen) hc').trans ?_)
            refine ⟨fun h => .inr ⟨hplace.mp heq, fun _ => h⟩, ?_⟩
            rintro (hlt | ⟨-, h⟩)
            · exact absurd (hplace.mp heq) hlt.ne
            · exact h rfl
        · have hcompare : IndexEntryComparison.compare order i (stored (v :: key))
              (querySuffix direction ((w, inclusive) :: target)) =
              if order.descending i then (v.woCompare w).swap else v.woCompare w := by
            cases inclusive <;> exact compare_cons_of_ne heq
          rw [hcompare, oriented_eq_swap_sign, ← hb, woCompare_eq_swap_sign]
          refine ⟨.inl, ?_⟩
          rintro (hlt | ⟨h, -⟩)
          · exact hlt
          · exact absurd (hplace.mpr h) heq

theorem complete_map (key : IndexKey) : Complete key.length (key.map (·, true)) := by
  simp [Complete]

theorem compare_stored_iff (hagrees : Agrees order direction i bs) (hlen : key.length = bs.length)
    (hlen' : key'.length = bs.length) :
    IndexEntryComparison.compare order i (stored key) (stored key') = direction.sign.swap ↔
      Passed bs key (key'.map (·, true)) := by
  rw [← stored_eq direction key', compare_querySuffix_iff hagrees hlen (hlen' ▸ complete_map key')]

theorem noLater_iff (hlen : key.length = bs.length) (hlen' : key'.length = bs.length) :
    NoLater bs key key' ↔ ¬ Passed bs key' (key.map (·, true)) := by
  induction bs generalizing key key' with
  | nil => exact ⟨fun _ => id, fun _ => trivial⟩
  | cons b bs ih =>
    match key, key', hlen, hlen' with
    | v :: key, w :: key', hlen, hlen' =>
      have ih := ih (Nat.succ.inj hlen) (Nat.succ.inj hlen')
      simp only [NoLater, map_cons, Passed, ih, true_implies]
      rcases lt_trichotomy (place b.direction v) (place b.direction w) with hlt | heq | hgt
      · simp [hlt, hlt.not_gt, hlt.ne']
      · simp [heq]
      · simp [hgt, hgt.not_gt, hgt.ne']

theorem compare_stored_swap (hlen : key.length = key'.length) :
    IndexEntryComparison.compare order i (stored key) (stored key') =
      (IndexEntryComparison.compare order i (stored key') (stored key)).swap := by
  induction key generalizing i key' with
  | nil =>
    obtain rfl : key' = [] := length_eq_zero_iff.mp hlen.symm
    rfl
  | cons v key ih =>
    cases key' with
    | nil => cases hlen
    | cons w key' =>
      have hswap : w.woCompare v = (v.woCompare w).swap := Std.OrientedCmp.eq_swap
      by_cases heq : v.woCompare w = .eq
      · have heq' : w.woCompare v = .eq := by rw [hswap, heq]; rfl
        exact (compare_cons_of_eq heq).trans
          ((ih (Nat.succ.inj hlen)).trans (congrArg _ (compare_cons_of_eq heq').symm))
      · have heq' : w.woCompare v ≠ .eq := by
          rw [hswap]
          intro h
          exact heq (Ordering.swap_eq_eq.mp h)
        refine (compare_cons_of_ne heq).trans ?_
        refine Eq.trans ?_ (congrArg _ (compare_cons_of_ne heq').symm)
        rw [hswap]
        split <;> simp

end

/-- The keys of an index, no key being less than one before it. -/
structure SortedKeys (order : KeyOrdering) (n : Nat) (keys : List IndexKey) : Prop where
  fields : ∀ key ∈ keys, key.length = n
  sorted : keys.Pairwise fun a b => IndexEntryComparison.compare order 0 (stored a) (stored b) ≠ .gt

/-- One round of the scan: the keys from the cursor on, and the checker. -/
def scanStep (order : KeyOrdering) (direction : Direction) (keys : List IndexKey) (_ : Unit) :
    List IndexKey × List CheckedField → Option (List IndexKey × List CheckedField)
  | ([], _) => none
  | (key :: rest, fields) =>
    match checkKey fields key with
    | some (.valid, fields) => some (rest, fields)
    | some (.mustAdvance out, fields) => some (seek order direction keys out, fields)
    | _ => none

/-- The states of a scan that starts with this checker. -/
abbrev Visits (order : KeyOrdering) (direction : Direction) (keys : List IndexKey)
    (fields : List CheckedField) : List IndexKey × List CheckedField → Prop :=
  Reach (scanStep order direction keys) (fun _ _ => True)
    (seek order direction keys (getStartSeekPoint fields), fields)

section Scan
variable {order : KeyOrdering} {direction : Direction} {bs : List FieldBounds}
  {keys cursor pre rest : List IndexKey} {key key' : IndexKey} {fields : List CheckedField}
  {p : IndexSeekPoint} {fuel : Nat}

variable (order direction bs keys) in
/-- The assumptions under which a scan runs. -/
structure Scannable : Prop where
  nonempty : bs ≠ []
  valid : ∀ b ∈ bs, b.Valid
  agrees : Agrees order direction 0 bs
  inOrder : SortedKeys order bs.length keys

namespace Scannable
variable (h : Scannable order direction bs keys)
include h

theorem length_eq (hkey : key ∈ scanOrder direction keys) : key.length = bs.length := by
  apply h.inOrder.fields
  cases direction
  · exact hkey
  · exact mem_reverse.mp hkey

/-- The scan meets the keys in order. -/
theorem pairwise :
    (scanOrder direction keys).Pairwise (NoLater bs) := by
  have hlen := h.inOrder.fields
  cases direction with
  | forward =>
    refine h.inOrder.sorted.imp_of_mem ?_
    intro a b ha hb hab
    rw [noLater_iff (hlen a ha) (hlen b hb), ← compare_stored_iff h.agrees (hlen b hb) (hlen a ha)]
    intro hlt
    rw [compare_stored_swap ((hlen a ha).trans (hlen b hb).symm), hlt] at hab
    exact hab rfl
  | backward =>
    rw [scanOrder, pairwise_reverse]
    refine h.inOrder.sorted.imp_of_mem ?_
    intro a b ha hb hab
    rw [noLater_iff (hlen b hb) (hlen a ha), ← compare_stored_iff h.agrees (hlen a ha) (hlen b hb)]
    exact hab

theorem passes_iff (hkey : key.length = bs.length) (hc : Complete bs.length p.target) :
    passes order direction p key = true ↔ Passed bs key p.target := by
  rw [passes, decide_eq_true_eq, makeQueryObject_eq, compare_querySuffix_iff h.agrees hkey hc]

/-- A seek from a key that it passes drops some of the keys behind it, none of them within the
bounds. -/
theorem seek_eq (hkeys : scanOrder direction keys = pre ++ key :: rest)
    (hsound : Sound bs key (.mustAdvance p)) :
    ∃ skipped, rest = skipped ++ seek order direction keys p ∧ ∀ k ∈ skipped, ¬ InBounds bs k := by
  obtain ⟨hc, hpassed, hlater⟩ := hsound
  have hsorted := h.pairwise
  rw [hkeys] at hsorted
  have hlen : ∀ k ∈ pre ++ key :: rest, k.length = bs.length := fun k hk =>
    h.length_eq (hkeys ▸ hk)
  have hpre : ∀ k ∈ pre ++ [key], passes order direction p k = true := by
    intro k hk
    have hk' : k ∈ pre ++ key :: rest := by
      rw [append_cons]
      exact mem_append_left _ hk
    rw [h.passes_iff (hlen k hk') hc]
    rcases mem_append.mp hk with hk | hk
    · refine hpassed.of_noLater ?_ ((pairwise_append.mp hsorted).2.2 k hk key (by simp))
      rw [hlen k hk', hlen key (by simp)]
    · rw [mem_singleton.mp hk]
      exact hpassed
  have hseek : seek order direction keys p = rest.dropWhile (passes order direction p) := by
    rw [seek, hkeys, append_cons, dropWhile_append_of_pos hpre]
  refine ⟨rest.takeWhile (passes order direction p), ?_, ?_⟩
  · rw [hseek, takeWhile_append_dropWhile]
  · intro k hk hin
    have hk' : k ∈ rest := (takeWhile_subset _) hk
    have hkeyk := (pairwise_cons.mp (pairwise_append.mp hsorted).2.1).1 k hk'
    refine hlater k hkeyk hin ?_
    rw [← h.passes_iff (hlen k (by simp [hk'])) hc]
    exact all_eq_true.mp all_takeWhile k hk

/-- Where a seek lands is behind the key that it started from. -/
theorem lands_later (hkey : key.length = bs.length) (hsound : Sound bs key (.mustAdvance p))
    (hlands : seek order direction keys p = key' :: rest) :
    IndexEntryComparison.compare order 0 (stored key) (stored key') = direction.sign.swap := by
  obtain ⟨hc, hpassed, -⟩ := hsound
  rw [seek] at hlands
  have hmem : key' ∈ scanOrder direction keys := by
    apply dropWhile_subset (passes order direction p)
    rw [hlands]
    exact mem_cons_self
  have hkey' := h.length_eq hmem
  have hnot : ¬ Passed bs key' p.target := by
    rw [← h.passes_iff hkey' hc, Bool.not_eq_true]
    have hne : (scanOrder direction keys).dropWhile (passes order direction p) ≠ [] := by simp [hlands]
    have hhead := head_dropWhile_not (passes order direction p) hne
    simpa only [hlands, head_cons] using hhead
  rw [compare_stored_iff h.agrees hkey hkey']
  by_contra hlater
  have hle : NoLater bs key' key := (noLater_iff hkey' hkey).mpr hlater
  exact hnot (hpassed.of_noLater (hkey'.trans hkey.symm) hle)

section
variable (hfields : fields.map CheckedField.bounds = bs)
include hfields

/-- The answer to a key that the scan is on. -/
theorem checkKey_spec (hkey : key.length = bs.length) :
    ∃ state fields', checkKey fields key = some (state, fields') ∧
      fields'.map CheckedField.bounds = bs ∧ Sound bs key state := by
  have hlen : fields.length = key.length := by rw [hkey, ← hfields, length_map]
  have hne : fields ≠ [] := by
    rintro rfl
    exact h.nonempty hfields.symm
  have hanswers := checkKey_answers (hfields ▸ h.valid) hne hlen
  rw [Answers, hfields] at hanswers
  exact hanswers

/-- From any state of the checker, the scan returns the keys within the bounds that it has not met
yet. -/
theorem scanFrom_eq {admits : IndexKey → Bool}
    (hadmits : ∀ k, k.length = bs.length → (admits k = true ↔ InBounds bs k))
    (hkeys : scanOrder direction keys = pre ++ cursor) (hfuel : cursor.length < fuel) :
    scanFrom order direction keys fuel cursor fields = some (cursor.filter admits) := by
  induction fuel generalizing pre cursor fields with
  | zero => cases hfuel
  | succ fuel ih =>
    cases cursor with
    | nil => rfl
    | cons key rest =>
      have hlen : ∀ k ∈ key :: rest, k.length = bs.length := fun k hk =>
        h.length_eq (hkeys ▸ mem_append_right _ hk)
      obtain ⟨state, fields', hcheck, hsame, hsound⟩ :=
        h.checkKey_spec hfields (hlen key (by simp))
      rw [length_cons] at hfuel
      rw [scanFrom, hcheck]
      cases state with
      | valid =>
        have hin : admits key = true := (hadmits key (hlen key (by simp))).mpr hsound
        have hrest := @ih rest (pre ++ [key]) fields' hsame (by simp [hkeys]) (by omega)
        simp only [hrest, Option.map_some, filter_cons_of_pos hin]
      | mustAdvance p =>
        obtain ⟨skipped, hrest, hskipped⟩ := h.seek_eq hkeys hsound
        have hkeyOut : ¬ admits key = true := by
          rw [hadmits key (hlen key (by simp))]
          exact fun hin => hsound.2.2 key (.refl bs key) hin hsound.2.1
        have hskippedOut : skipped.filter admits = [] := by
          rw [filter_eq_nil_iff]
          intro k hk
          rw [hadmits k (hlen k (by simp [hrest, hk]))]
          exact hskipped k hk
        have hafter := @ih (seek order direction keys p) (pre ++ key :: skipped) fields' hsame
          (by rw [hkeys, hrest]; simp) (by have := congrArg length hrest; simp at this; omega)
        rw [filter_cons_of_neg hkeyOut]
        simp only [hafter]
        conv_rhs => rw [hrest, filter_append, hskippedOut, nil_append]
      | done =>
        have hout : (key :: rest).filter admits = [] := by
          rw [filter_eq_nil_iff]
          intro k hk
          rw [hadmits k (hlen k hk)]
          refine hsound k ?_
          have hsorted := h.pairwise
          rw [hkeys] at hsorted
          rcases mem_cons.mp hk with rfl | hk
          · exact .refl bs k
          · exact (pairwise_cons.mp (pairwise_append.mp hsorted).2.1).1 k hk
        rw [hout]

/-- What the start of the scan drops is not within the bounds. -/
theorem start_eq : ∃ skipped, scanOrder direction keys =
        skipped ++ seek order direction keys (getStartSeekPoint fields) ∧
      ∀ k ∈ skipped, ¬ InBounds bs k := by
  refine ⟨_, takeWhile_append_dropWhile.symm, fun k hk hin => ?_⟩
  have htarget : (getStartSeekPoint fields).target = starts (fields.map CheckedField.reset) := rfl
  have hc : Complete bs.length (getStartSeekPoint fields).target := by
    rw [htarget, Complete, length_starts, length_map, ← hfields, length_map]
    exact ⟨le_rfl, .inl rfl⟩
  have hpassed := all_eq_true.mp all_takeWhile k hk
  rw [h.passes_iff (h.length_eq (takeWhile_subset _ hk)) hc, htarget, ← hfields] at hpassed
  exact not_passed_starts (forall_mem_map.mp (hfields ▸ h.valid)) (hfields ▸ hin) hpassed

/-- Along the scan the bounds stay, and the cursor is at one of the keys. -/
theorem visits {s : List IndexKey × List CheckedField} (hs : Visits order direction keys fields s) :
    s.2.map CheckedField.bounds = bs ∧ s.1 ⊆ scanOrder direction keys := by
  induction hs with
  | init => exact ⟨hfields, dropWhile_subset _⟩
  | @step s t _ _ _ ht ih =>
    obtain ⟨cursor, fields⟩ := s
    obtain ⟨hsame, hsubset⟩ := ih
    cases cursor with
    | nil => cases ht
    | cons key rest =>
      obtain ⟨hkey, hrest⟩ := cons_subset.mp hsubset
      obtain ⟨state, fields', hcheck, hsame', -⟩ := h.checkKey_spec hsame (h.length_eq hkey)
      simp only [scanStep, hcheck] at ht
      cases state with
      | valid =>
        cases ht
        exact ⟨hsame', hrest⟩
      | mustAdvance p =>
        cases ht
        exact ⟨hsame', dropWhile_subset _⟩
      | done => cases ht

end

end Scannable

end Scan

end MongolDb.Query
