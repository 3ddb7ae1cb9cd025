import MongolDb.Query.BoundsChecker

/-! What the answers of the bounds checker mean for the keys that the scan has not met yet. -/
namespace MongolDb.Query
open Bson Intervals IndexBoundsChecker List CheckedField

section Field
variable {d : Direction} {I : Interval Value} {l : List (Interval Value)} {v : Value}

theorem starts_iff : (decide (v.woCompare I.start = d.sign) ||
    (decide (v.woCompare I.start = .eq) && I.startInclusive)) = true ↔ I.Starts (place d) v := by
  simp only [Bool.or_eq_true, Bool.and_eq_true, decide_eq_true_eq, woCompare_eq_sign,
    @woCompare_eq_eq d, Interval.Starts]
  rw [@eq_comm _ (place d v)]

theorem ends_iff : (decide (v.woCompare I.stop = d.sign.swap) ||
    (decide (v.woCompare I.stop = .eq) && I.stopInclusive)) = true ↔ I.Ends (place d) v := by
  simp [woCompare_eq_swap_sign, @woCompare_eq_eq d, Interval.Ends]

theorem intervalCmp_spec (I : Interval Value) (v : Value) (d : Direction) :
    (intervalCmp I v d = .behind ∧ ¬ I.Starts (place d) v) ∨
    (intervalCmp I v d = .ahead ∧ I.Starts (place d) v ∧ ¬ I.Ends (place d) v) ∨
    (intervalCmp I v d = .within ∧ I.Contains (place d) v) := by
  simp only [intervalCmp]
  by_cases hs : I.Starts (place d) v
  · rw [starts_iff.mpr hs]
    by_cases he : I.Ends (place d) v
    · rw [ends_iff.mpr he]
      exact .inr (.inr ⟨rfl, hs, he⟩)
    · rw [Bool.eq_false_iff.mpr (mt ends_iff.mp he)]
      exact .inr (.inl ⟨rfl, hs, he⟩)
  · rw [Bool.eq_false_iff.mpr (mt starts_iff.mp hs)]
    exact .inl ⟨rfl, hs⟩

theorem intervalCmp_eq_ahead_iff (hI : I.Runs (place d)) :
    intervalCmp I v d = .ahead ↔ ¬ I.Ends (place d) v := by
  obtain ⟨h, hs⟩ | ⟨h, -, he⟩ | ⟨h, hc⟩ := intervalCmp_spec I v d
  · rw [h]
    exact ⟨nofun, fun he => absurd (hI.starts_of_not_ends he) hs⟩
  · exact ⟨fun _ => he, fun _ => h⟩
  · rw [h]
    exact ⟨nofun, fun he => absurd hc.2 he⟩

/-- What the search in the list of a field finds: the value is behind the intervals before the one
found. -/
theorem findIntervalForField_cases (hl : Ordered (place d) l) (v : Value) :
    (∃ before I after, ∃ i : Fin l.length, l = before ++ I :: after ∧ l.get i = I ∧
      (∀ J ∈ before, ¬ J.Ends (place d) v) ∧
      ((findIntervalForField v l d = .within i ∧ I.Contains (place d) v) ∨
        (findIntervalForField v l d = .behind i ∧ ¬ I.Starts (place d) v))) ∨
    (findIntervalForField v l d = .ahead ∧ ∀ I ∈ l, ¬ I.Ends (place d) v) := by
  obtain ⟨before, after, rfl, hbefore, hafter⟩ := hl.exists_split v
  have hlower : lowerBound (fun J => decide (intervalCmp J v d = .ahead)) (before ++ after) =
      before.length := by
    apply lowerBound_eq
    · intro J hJ
      exact decide_eq_true ((intervalCmp_eq_ahead_iff (hl.runs J (by simp [hJ]))).mpr (hbefore J hJ))
    · intro J hJ
      have hJ' := mt (intervalCmp_eq_ahead_iff (hl.runs J (by simp [hJ]))).mp (not_not.mpr (hafter J hJ))
      exact decide_eq_false hJ'
  cases after with
  | nil =>
    refine .inr ⟨?_, by simpa using hbefore⟩
    simp only [findIntervalForField, hlower]
    simp
  | cons I after =>
    have hlt : before.length < (before ++ I :: after).length := by simp
    have hget : (before ++ I :: after).get ⟨before.length, hlt⟩ = I := by simp
    refine .inl ⟨before, I, after, ⟨before.length, hlt⟩, rfl, hget, hbefore, ?_⟩
    simp only [findIntervalForField, hlower, dif_pos hlt, hget]
    obtain ⟨h, hs⟩ | ⟨-, -, he⟩ | ⟨h, hc⟩ := intervalCmp_spec I v d
    · rw [h]
      exact .inr ⟨rfl, hs⟩
    · exact absurd (hafter I (by simp)) he
    · rw [h]
      exact .inl ⟨rfl, hc⟩

end Field

/-! Keys of several fields. -/

/-- The bounds of one field, without the state of the checker. -/
structure FieldBounds where
  intervals : List (Interval Value)
  direction : Direction

namespace FieldBounds

/-- The value lies in one of the intervals. -/
def Holds (b : FieldBounds) (v : Value) : Prop := Covers (place b.direction) b.intervals v

/-- The intervals are in the order of the scan. -/
def Valid (b : FieldBounds) : Prop := Ordered (place b.direction) b.intervals

end FieldBounds

def CheckedField.bounds (f : CheckedField) : FieldBounds := ⟨f.intervals, f.expectedDirection⟩

/-- Each value of the key lies in the bounds of its field. -/
def InBounds (bs : List FieldBounds) (key : IndexKey) : Prop :=
  List.Forall₂ FieldBounds.Holds bs key

/-- The scan meets the first key no later than the second. -/
def NoLater : List FieldBounds → IndexKey → IndexKey → Prop
  | b :: bs, v :: key, w :: key' =>
    place b.direction v < place b.direction w ∨
      (place b.direction v = place b.direction w ∧ NoLater bs key key')
  | _, _, _ => True

/-- The scan meets the key before it reaches the target, whose values come with whether they are
inclusive. -/
def Passed : List FieldBounds → IndexKey → List (Value × Bool) → Prop
  | b :: bs, v :: key, (w, inclusive) :: target =>
    place b.direction v < place b.direction w ∨
      (place b.direction v = place b.direction w ∧ (inclusive = true → Passed bs key target))
  | _, _, _ => False

section Keys
variable {bs cs : List FieldBounds} {b : FieldBounds} {v : Value} {key key' rest : IndexKey}
  {target : List (Value × Bool)}

theorem NoLater.refl (bs : List FieldBounds) (key : IndexKey) : NoLater bs key key := by
  induction bs generalizing key with
  | nil => trivial
  | cons b bs ih =>
    cases key with
    | nil => trivial
    | cons v key => exact .inr ⟨rfl, ih key⟩

/-- With a later key, each earlier one is passed. -/
theorem Passed.of_noLater (hlen : key'.length = key.length) (h : NoLater bs key' key)
    (hp : Passed bs key target) : Passed bs key' target := by
  induction bs generalizing key key' target with
  | nil => exact hp.elim
  | cons b bs ih =>
    match key, key', target, hlen, h, hp with
    | v :: key, w :: key', (t, inclusive) :: target, hlen, h, hp =>
      rcases h with hlt | ⟨heq, h⟩
      · rcases hp with hp | ⟨hp, -⟩
        · exact .inl (hlt.trans hp)
        · exact .inl (hlt.trans_eq hp)
      · rcases hp with hp | ⟨hp, hrest⟩
        · exact .inl (heq.trans_lt hp)
        · exact .inr ⟨heq.trans hp, fun hinc => ih (Nat.succ.inj hlen) h (hrest hinc)⟩

/-- A prefix of the target that repeats the key changes nothing for the key itself. -/
theorem Passed.prepend (hlen : bs.length = key.length) (h : Passed cs rest target) :
    Passed (bs ++ cs) (key ++ rest) (key.map (·, true) ++ target) := by
  induction bs generalizing key with
  | nil =>
    obtain rfl : key = [] := length_eq_zero_iff.mp hlen.symm
    exact h
  | cons b bs ih =>
    cases key with
    | nil => cases hlen
    | cons v key => exact .inr ⟨rfl, fun _ => ih (Nat.succ.inj hlen)⟩

/-- If no later key within the bounds is passed, this remains so with a prefix that repeats the
key. -/
theorem not_passed_prepend (hlen : bs.length = key.length)
    (h : ∀ k, NoLater cs rest k → InBounds cs k → ¬ Passed cs k target) :
    ∀ k, NoLater (bs ++ cs) (key ++ rest) k → InBounds (bs ++ cs) k →
      ¬ Passed (bs ++ cs) k (key.map (·, true) ++ target) := by
  induction bs generalizing key with
  | nil =>
    obtain rfl : key = [] := length_eq_zero_iff.mp hlen.symm
    exact h
  | cons b bs ih =>
    cases key with
    | nil => cases hlen
    | cons v key =>
      intro k hk hin hp
      cases hin with
      | @cons _ w _ k _ hin =>
        rcases hk with hlt | ⟨heq, hk⟩
        · rcases hp with hp | ⟨hp, -⟩
          · exact lt_asymm hlt hp
          · exact hlt.ne' hp
        · rcases hp with hp | ⟨-, hp⟩
          · exact hp.ne' heq
          · exact ih (Nat.succ.inj hlen) k hk hin (hp rfl)

/-- If nothing beyond the key is within the bounds of the fields that follow, an exclusive target
loses nothing. -/
theorem not_passed_exclusive (h : ∀ k, NoLater cs rest k → ¬ InBounds cs k) :
    ∀ k, NoLater (b :: cs) (v :: rest) k → InBounds (b :: cs) k →
      ¬ Passed (b :: cs) k [(v, false)] := by
  intro k hk hin hp
  cases hin with
  | @cons _ w _ k _ hin =>
    rcases hk with hlt | ⟨-, hk⟩
    · rcases hp with hp | ⟨hp, -⟩
      · exact lt_asymm hlt hp
      · exact hlt.ne' hp
    · exact h k hk hin

end Keys

/-! Where the seek points lead. -/

/-- The values of a prefix, of which the last is exclusive. -/
def exclusiveTarget : IndexKey → List (Value × Bool)
  | [] => []
  | [v] => [(v, false)]
  | v :: rest => (v, true) :: exclusiveTarget rest

def IndexSeekPoint.target (p : IndexSeekPoint) : List (Value × Bool) :=
  if p.prefixExclusive then exclusiveTarget (p.keyPrefix.take p.prefixLen)
  else (p.keyPrefix.take p.prefixLen).map (·, true) ++ p.keySuffix

theorem exclusiveTarget_concat (key : IndexKey) (v : Value) :
    exclusiveTarget (key ++ [v]) = key.map (·, true) ++ [(v, false)] := by
  induction key with
  | nil => rfl
  | cons w key ih =>
    cases key with
    | nil => rfl
    | cons u key =>
      change (w, true) :: exclusiveTarget (u :: key ++ [v]) = _
      rw [ih]
      rfl

/-- The target gives a value to each of `n` fields, or ends with an exclusive one. -/
def Complete (n : Nat) (target : List (Value × Bool)) : Prop :=
  target.length ≤ n ∧ (target.length = n ∨ ∃ p ∈ target, p.2 = false)

/-- What each answer about a key has to mean. -/
def Sound (bs : List FieldBounds) (key : IndexKey) : KeyState → Prop
  | .valid => InBounds bs key
  | .mustAdvance p => Complete bs.length p.target ∧ Passed bs key p.target ∧
      ∀ k, NoLater bs key k → InBounds bs k → ¬ Passed bs k p.target
  | .done => ∀ k, NoLater bs key k → ¬ InBounds bs k

section Checker
variable {fields left right : List CheckedField} {f : CheckedField} {key : IndexKey} {v : Value}

/-- The value lies in the interval that the field is in. -/
def CheckedField.Within (f : CheckedField) (v : Value) : Prop :=
  f.current.Contains (place f.expectedDirection) v

theorem CheckedField.Within.holds (h : f.Within v) : f.bounds.Holds v :=
  ⟨f.current, get_mem _ _, h⟩

theorem inBounds_of_within (h : List.Forall₂ CheckedField.Within fields key) :
    InBounds (fields.map CheckedField.bounds) key := by
  rw [InBounds, forall₂_map_left_iff]
  exact h.imp fun _ _ => CheckedField.Within.holds

@[simp] theorem bounds_moveTo (f : CheckedField) (i : Fin f.intervals.length) :
    (f.moveTo i).bounds = f.bounds := rfl

@[simp] theorem bounds_reset (f : CheckedField) : f.reset.bounds = f.bounds := rfl

@[simp] theorem map_bounds_reset (fields : List CheckedField) :
    (fields.map CheckedField.reset).map CheckedField.bounds = fields.map CheckedField.bounds := by
  rw [map_map]
  rfl

/-- What a field in its first interval starts with is reached by all that its bounds hold. -/
theorem starts_of_holds_reset (hf : f.bounds.Valid) (hv : f.bounds.Holds v) :
    f.reset.current.Starts (place f.expectedDirection) v := by
  obtain ⟨l, d, i⟩ := f
  cases l with
  | nil => exact i.elim0
  | cons I l => exact Ordered.starts_head hf hv

/-- A key within the bounds is not before the starts of the first intervals. -/
theorem not_passed_starts (hvalid : ∀ f ∈ fields, f.bounds.Valid)
    (hin : InBounds (fields.map CheckedField.bounds) key) :
    ¬ Passed (fields.map CheckedField.bounds) key (starts (fields.map CheckedField.reset)) := by
  induction fields generalizing key with
  | nil => exact id
  | cons f fields ih =>
    cases hin with
    | @cons _ v _ key hv hin =>
      rintro (hlt | ⟨heq, hp⟩)
      · rcases starts_of_holds_reset (hvalid f (by simp)) hv with hs | ⟨hs, -⟩
        · exact lt_asymm hlt hs
        · exact hlt.ne' hs
      · rcases starts_of_holds_reset (hvalid f (by simp)) hv with hs | ⟨-, hinc⟩
        · exact hs.ne' heq
        · exact ih (forall_mem_cons.mp hvalid).2 hin (hp hinc)

theorem length_starts (fields : List CheckedField) : (starts fields).length = fields.length :=
  length_map _

/-- The last interval. -/
theorem exists_append_current (h : f.curInterval.val = f.intervals.length - 1) :
    ∃ l, f.intervals = l ++ [f.current] := by
  have hne : f.intervals ≠ [] := length_pos_iff.mp f.curInterval.pos
  refine ⟨f.intervals.dropLast, ?_⟩
  have hcurrent : f.current = f.intervals.getLast hne := by
    rw [getLast_eq_getElem]
    simp [current, h]
  rw [hcurrent, dropLast_append_getLast]

/-- What the search for the value of a field finds. -/
theorem find_cases (hf : f.bounds.Valid) (v : Value) :
    (∃ i, findIntervalForField v f.intervals f.expectedDirection = .within i ∧
      (f.moveTo i).Within v) ∨
    (∃ i, findIntervalForField v f.intervals f.expectedDirection = .behind i ∧
      ¬ (f.moveTo i).current.Starts (place f.expectedDirection) v ∧
      ∀ w, place f.expectedDirection v ≤ place f.expectedDirection w → f.bounds.Holds w →
        (f.moveTo i).current.Starts (place f.expectedDirection) w) ∨
    (findIntervalForField v f.intervals f.expectedDirection = .ahead ∧
      ∀ w, place f.expectedDirection v ≤ place f.expectedDirection w → ¬ f.bounds.Holds w) := by
  obtain ⟨before, I, after, i, hl, rfl, hbefore, ⟨hfind, hI⟩ | ⟨hfind, hI⟩⟩ | ⟨hfind, hall⟩ :=
    findIntervalForField_cases hf v
  · exact .inl ⟨i, hfind, hI⟩
  · refine .inr (.inl ⟨i, hfind, hI, fun w hvw hw => ?_⟩)
    simp only [FieldBounds.Valid, FieldBounds.Holds] at hf hw
    rw [hl] at hf hw
    exact hf.starts_of_covers hbefore hvw hw
  · exact .inr (.inr ⟨hfind, fun w hvw => not_covers_of_not_ends hall hvw⟩)

section Split
variable {pre values : IndexKey}

/-- The value of `f` is before the interval that `f` has been moved to, and all that the scan meets
from there on and `f` admits has reached it: go on at its start. -/
theorem sound_behind (hvalid : ∀ g ∈ right, g.bounds.Valid) (hpre : left.length = pre.length)
    (hv : ¬ f.current.Starts (place f.expectedDirection) v)
    (hlater : ∀ w, place f.expectedDirection v ≤ place f.expectedDirection w → f.bounds.Holds w →
      f.current.Starts (place f.expectedDirection) w) :
    Sound ((left ++ f :: right).map CheckedField.bounds) (pre ++ v :: values)
      (.mustAdvance ⟨pre ++ v :: values, left.length, false,
        starts (f :: right.map CheckedField.reset)⟩) := by
  have htarget : IndexSeekPoint.target ⟨pre ++ v :: values, left.length, false,
      starts (f :: right.map reset)⟩ =
      pre.map (·, true) ++ starts (f :: right.map reset) := by
    simp [IndexSeekPoint.target, hpre]
  have hlen : (left.map bounds).length = pre.length := by rw [length_map, hpre]
  rw [Sound, htarget, map_append]
  refine ⟨⟨?_, .inl ?_⟩, Passed.prepend hlen ?_, not_passed_prepend hlen ?_⟩
  · simp [length_starts, hpre]
  · simp [length_starts, hpre]
  · -- the key itself is before the start
    rcases lt_or_ge (place f.expectedDirection v) (place f.expectedDirection f.current.start)
      with hlt | hge
    · exact .inl hlt
    · rcases hge.lt_or_eq with hlt | heq
      · exact absurd (.inl hlt) hv
      · exact .inr ⟨heq.symm, fun hinc => absurd (.inr ⟨heq, hinc⟩) hv⟩
  · intro k hk hin hp
    cases hin with
    | @cons _ w _ k hw hin =>
      have hvw : place f.expectedDirection v ≤ place f.expectedDirection w := by
        rcases hk with hlt | ⟨heq, -⟩
        · exact hlt.le
        · exact heq.le
      rcases hlater w hvw hw with hs | ⟨hs, hinc⟩
      · rcases hp with hp | ⟨hp, -⟩
        · exact lt_asymm hs hp
        · exact hs.ne' hp
      · rcases hp with hp | ⟨-, hp⟩
        · exact hp.ne' hs
        · exact not_passed_starts hvalid hin (hp hinc)

/-- If `f` admits nothing from its value on, no key that the scan meets with the same values before
`f` is within the bounds. -/
theorem not_inBounds_ahead
    (hlater : ∀ w, place f.expectedDirection v ≤ place f.expectedDirection w → ¬ f.bounds.Holds w) :
    Sound ((f :: right).map CheckedField.bounds) (v :: values) .done := by
  intro k hk hin
  cases hin with
  | @cons _ w _ k hw hin =>
    refine hlater w ?_ hw
    rcases hk with hlt | ⟨heq, -⟩
    · exact hlt.le
    · exact heq.le

/-- Skip all keys that agree with this one on the fields before `f`. -/
theorem sound_exclusive (hpre : left.length = pre.length) (hleft : left ≠ [])
    (hlater : Sound ((f :: right).map CheckedField.bounds) (v :: values) .done) :
    Sound ((left ++ f :: right).map CheckedField.bounds) (pre ++ v :: values)
      (.mustAdvance ⟨pre ++ v :: values, left.length, true, []⟩) := by
  obtain ⟨front, g, rfl⟩ := (eq_nil_or_concat' left).resolve_left hleft
  obtain ⟨start, u, rfl⟩ : ∃ start u, pre = start ++ [u] := by
    refine (eq_nil_or_concat' pre).resolve_left ?_
    rintro rfl
    simp at hpre
  have hlen : (front.map bounds).length = start.length := by simpa using hpre
  have htarget : IndexSeekPoint.target
      ⟨start ++ [u] ++ v :: values, (front ++ [g]).length, true, []⟩ =
      start.map (·, true) ++ [(u, false)] := by
    simp only [IndexSeekPoint.target, if_true]
    rw [hpre, take_left, exclusiveTarget_concat]
  rw [Sound, htarget, append_assoc, append_assoc, map_append]
  refine ⟨⟨?_, .inr ⟨(u, false), by simp, rfl⟩⟩, Passed.prepend hlen ?_, not_passed_prepend hlen ?_⟩
  · have := hpre
    simp only [length_append, length_cons, length_nil, length_map] at this ⊢
    omega
  · exact .inr ⟨rfl, nofun⟩
  · exact not_passed_exclusive hlater

/-- Where every field before `f` is at the end of its last interval, nothing more is within the
bounds. -/
theorem not_inBounds_done (hvalid : ∀ g ∈ left, g.bounds.Valid) (hpre : left.length = pre.length)
    (hspace : spaceLeftToAdvance left.length (left ++ f :: right) (pre ++ v :: values) = false)
    (hlater : Sound ((f :: right).map CheckedField.bounds) (v :: values) .done) :
    Sound ((left ++ f :: right).map CheckedField.bounds) (pre ++ v :: values) .done := by
  induction left generalizing pre with
  | nil =>
    obtain rfl : pre = [] := length_eq_zero_iff.mp hpre.symm
    exact hlater
  | cons g left ih =>
    cases pre with
    | nil => cases hpre
    | cons u pre =>
      simp only [spaceLeftToAdvance, cons_append, zip_cons_cons, length_cons,
        take_succ_cons, any_cons, Bool.or_eq_false_iff] at hspace
      obtain ⟨⟨⟨hlast, hinc⟩, hend⟩, hspace⟩ := hspace
      intro k hk hin
      cases hin with
      | @cons _ w _ k hw hin =>
        rcases hk with hlt | ⟨-, hk⟩
        · -- the value of this field has grown beyond its last interval
          have hu : place g.expectedDirection g.current.stop ≤ place g.expectedDirection u := by
            rw [← not_lt, ← woCompare_eq_swap_sign]
            exact of_decide_eq_false hend
          obtain ⟨l, hl⟩ := exists_append_current (not_not.mp (of_decide_eq_false hlast))
          have hg := hvalid g (by simp)
          simp only [FieldBounds.Valid, FieldBounds.Holds, bounds, hl] at hg hw
          exact hg.not_covers_after_last hu hlt hw
        · exact ih (forall_mem_cons.mp hvalid).2 (Nat.succ.inj hpre) hspace k hk hin

/-- An answer that is sound, with the bounds left as they are. -/
def Answers (fields : List CheckedField) (key : IndexKey)
    (answer : Option (KeyState × List CheckedField)) : Prop :=
  ∃ state fields', answer = some (state, fields') ∧
    fields'.map CheckedField.bounds = fields.map CheckedField.bounds ∧
    Sound (fields.map CheckedField.bounds) key state

theorem Answers.congr {fields fields' : List CheckedField}
    {answer : Option (KeyState × List CheckedField)}
    (hsame : fields'.map CheckedField.bounds = fields.map CheckedField.bounds)
    (h : Answers fields' key answer) : Answers fields key answer := by
  rw [Answers, hsame] at h
  exact h

theorem placeFrom_answers (hvalid : ∀ b ∈ (left ++ right).map CheckedField.bounds, b.Valid)
    (hleft : List.Forall₂ CheckedField.Within left pre) (hlen : right.length = values.length) :
    Answers (left ++ right) (pre ++ values) (placeFrom (pre ++ values) left right values) := by
  induction right generalizing left pre values with
  | nil =>
    obtain rfl : values = [] := length_eq_zero_iff.mp hlen.symm
    refine ⟨.valid, left ++ [], rfl, rfl, ?_⟩
    rw [append_nil, append_nil]
    exact inBounds_of_within hleft
  | cons f right ih =>
    cases values with
    | nil => cases hlen
    | cons v values =>
      have hpre := hleft.length_eq
      have hmem : ∀ g ∈ left ++ f :: right, g.bounds.Valid := forall_mem_map.mp hvalid
      rw [placeFrom]
      obtain ⟨i, hfind, hwithin⟩ | ⟨i, hfind, hv, hlater⟩ | ⟨hfind, hlater⟩ :=
        find_cases (hmem f (by simp)) v
      · -- on to the next field
        rw [hfind]
        have hsame : (left ++ [f.moveTo i] ++ right).map bounds =
            (left ++ f :: right).map bounds := by simp
        have hrest := @ih (left ++ [f.moveTo i]) (pre ++ [v]) values (hsame ▸ hvalid)
          (rel_append hleft (.cons hwithin .nil)) (Nat.succ.inj hlen)
        rw [append_assoc pre, singleton_append] at hrest
        exact hrest.congr hsame
      · rw [hfind]
        refine ⟨_, _, rfl, by simp, ?_⟩
        have hright : ∀ g ∈ right, g.bounds.Valid := fun g hg => hmem g (by simp [hg])
        have hsound := @sound_behind left right (f.moveTo i) v pre values hright hpre hv hlater
        simpa using hsound
      · rw [hfind]
        have hnone := @not_inBounds_ahead right f v values hlater
        by_cases hspace : spaceLeftToAdvance left.length (left ++ f :: right) (pre ++ v :: values)
        · refine ⟨_, _, if_neg (by simp [hspace]), by simp, ?_⟩
          refine sound_exclusive hpre ?_ hnone
          rintro rfl
          cases hspace
        · refine ⟨_, _, if_pos (by simp [hspace]), rfl, ?_⟩
          exact not_inBounds_done (fun g hg => hmem g (by simp [hg])) hpre
            (Bool.eq_false_iff.mpr hspace) hnone

end Split

theorem findLeftmostProblem_cases (hlen : fields.length = key.length) :
    (findLeftmostProblem fields key = none ∧ List.Forall₂ CheckedField.Within fields key) ∨
    ∃ left f right pre v values what, fields = left ++ f :: right ∧ key = pre ++ v :: values ∧
      List.Forall₂ CheckedField.Within left pre ∧ right.length = values.length ∧
      findLeftmostProblem fields key = some (left.length, what) ∧
      (what = .behind → ¬ f.current.Starts (place f.expectedDirection) v) := by
  induction fields generalizing key with
  | nil =>
    obtain rfl : key = [] := length_eq_zero_iff.mp hlen.symm
    exact .inl ⟨rfl, .nil⟩
  | cons f fields ih =>
    cases key with
    | nil => cases hlen
    | cons v key =>
      rw [findLeftmostProblem]
      obtain ⟨h, hv⟩ | ⟨h, -⟩ | ⟨h, hv⟩ := intervalCmp_spec f.current v f.expectedDirection
      · exact .inr ⟨[], f, fields, [], v, key, .behind, rfl, rfl, .nil, Nat.succ.inj hlen,
          by simp [h], fun _ => hv⟩
      · exact .inr ⟨[], f, fields, [], v, key, .ahead, rfl, rfl, .nil, Nat.succ.inj hlen,
          by simp [h], nofun⟩
      · rw [h]
        rcases ih (Nat.succ.inj hlen) with ⟨hnone, hall⟩ |
          ⟨left, g, right, pre, w, values, what, rfl, rfl, hleft, hright, hsome, hwhat⟩
        · exact .inl ⟨by rw [hnone]; rfl, .cons hv hall⟩
        · exact .inr ⟨f :: left, g, right, v :: pre, w, values, what, rfl, rfl, .cons hv hleft,
            hright, by rw [hsome]; rfl, hwhat⟩

theorem findLeftmostProblem_append {pre values : IndexKey}
    (h : List.Forall₂ CheckedField.Within left pre) :
    findLeftmostProblem (left ++ right) (pre ++ values) =
      (findLeftmostProblem right values).map fun p => (left.length + p.1, p.2) := by
  induction h with
  | nil => simp
  | @cons f v left pre hv _ ih =>
    obtain ⟨-, hn⟩ | ⟨-, -, hn⟩ | ⟨h, -⟩ := intervalCmp_spec f.current v f.expectedDirection
    · exact absurd hv.1 hn
    · exact absurd hv.2 hn
    · rw [cons_append, cons_append, findLeftmostProblem, h]
      simp only [ih, Option.map_map, length_cons]
      congr 1
      funext p
      simp only [Function.comp, Nat.add_right_comm]

/-- Every answer of the checker is sound, in whatever intervals it has been before. -/
theorem checkKey_answers (hvalid : ∀ b ∈ fields.map CheckedField.bounds, b.Valid)
    (hne : fields ≠ []) (hlen : fields.length = key.length) :
    Answers fields key (checkKey fields key) := by
  have hcond : ¬ (decide (fields.length = 0) || decide (key.length ≠ fields.length)) = true := by
    simp [hne, ← hlen]
  rw [checkKey, if_neg hcond]
  rcases findLeftmostProblem_cases hlen with ⟨hfind, hall⟩ |
    ⟨left, f, right, pre, v, values, what, rfl, rfl, hleft, hright, hfind, -⟩
  · rw [hfind]
    exact ⟨.valid, fields, rfl, rfl, inBounds_of_within hall⟩
  rw [hfind]
  have hpre := hleft.length_eq
  have hplace := @placeFrom_answers left (f :: right) pre (v :: values) hvalid hleft
    (congrArg Nat.succ hright)
  cases what with
  | behind =>
    have hreset : resetFrom left.length (left ++ f :: right) =
        left ++ (f :: right).map reset := by simp [resetFrom]
    have hsame : (left ++ (f :: right).map reset).map bounds =
        (left ++ f :: right).map bounds := by simp
    simp only [hreset]
    refine Answers.congr hsame ?_
    rw [← hsame] at hvalid
    rw [findLeftmostProblem_append hleft]
    have hlen' : ((f :: right).map reset).length = (v :: values).length := by
      simp [hright]
    rcases findLeftmostProblem_cases hlen' with ⟨hfind, hall⟩ |
      ⟨left', g, right', pre', w, values', what, hsplit, hkey, hleft', hright', hfind, hbehind⟩
    · rw [hfind]
      exact ⟨.valid, _, rfl, rfl, inBounds_of_within (rel_append hleft hall)⟩
    · rw [hfind, hkey]
      have hboth : List.Forall₂ CheckedField.Within (left ++ left') (pre ++ pre') :=
        rel_append hleft hleft'
      rw [hsplit, ← append_assoc] at hvalid ⊢
      rw [← append_assoc, Option.map_some, ← length_append]
      have hplace := @placeFrom_answers _ _ _ (w :: values') hvalid hboth (congrArg Nat.succ hright')
      have hpre := hboth.length_eq
      have hdrop : (pre ++ pre' ++ w :: values').drop (left ++ left').length = w :: values' := by
        rw [hpre, drop_left]
      cases what with
      | behind =>
        refine ⟨_, _, rfl, rfl, ?_⟩
        rw [drop_left]
        -- this field and those to the right are in their first intervals
        obtain ⟨l, l', -, -, hrest⟩ := map_eq_append_iff.mp hsplit
        obtain ⟨g, r, -, rfl, rfl⟩ := map_eq_cons_iff.mp hrest
        have hmem := forall_mem_map.mp hvalid
        have hg : g.bounds.Valid := hmem g.reset (by simp)
        have hr : ∀ h ∈ r, h.bounds.Valid := fun h hh =>
          hmem h.reset (by simp [mem_map_of_mem hh])
        have hsound := @sound_behind (left ++ left') r g.reset w (pre ++ pre') values' hr hpre
          (hbehind rfl) fun u _ hu => starts_of_holds_reset hg hu
        simpa only [map_append, map_cons, map_bounds_reset] using hsound
      | ahead | within => simpa only [take_left, drop_left, hdrop] using hplace
  | ahead | within => simpa [hpre] using hplace

end Checker

end MongolDb.Query
