import MongolDb.Query.ScanRuns
import MongolDb.WiredTiger.CursorScan

/-! Seek points, which the query system encodes as query objects: where the key strings built from
them lie among the stored ones, and where the comparator of BSON keys puts them. -/
namespace MongolDb.WiredTiger
open ByteOrder Bson KeyString Query Query.IndexEntryComparison List

/-- The field name that tells how an equal value is to be taken. -/
def behaviorName : BehaviorIfFieldIsEqual → Bytes
  | .normal => []
  | .less => [108]
  | .greater => [103]

/-- The query object as `makeQueryObject` builds it. -/
def queryObj (query : QueryObject) : Obj := query.map fun f => (behaviorName f.2, f.1)

/-- The discriminator with which `seek(seekPoint)` resets its key string. -/
def seekDiscriminator : Direction → Discriminator
  | .forward => .exclusiveBefore
  | .backward => .exclusiveAfter

/-- The prefix and the suffix describe the fields of a key of `n` fields. -/
def Describes (n : Nat) (p : IndexSeekPoint) : Prop :=
  p.prefixLen ≤ p.keyPrefix.length ∧
    if p.prefixExclusive then 0 < p.prefixLen ∧ p.prefixLen ≤ n
    else p.prefixLen + p.keySuffix.length = n

def keyValues (key : KeyObject) : Query.IndexKey := key.fields.map Prod.snd

section Bytes
variable {ord : KeyOrdering} {direction : Direction} {target : List (Value × Bool)}
  {fields : Obj} {i : Nat}

/-- What follows the last field that counts. -/
def seekEnd : Direction → UInt8
  | .forward => kGreater
  | .backward => kLess

def exclusiveEnd (direction : Direction) : Bytes := [seekEnd direction, kEnd]

def inclusiveEnd (direction : Direction) : Bytes :=
  discriminatorByte (seekDiscriminator direction) ++ [kEnd]

/-- The bytes of a query object from field `i` on. -/
def seekBytes (ord : KeyOrdering) (direction : Direction) : Nat → List (Value × Bool) → Bytes
  | _, [] => inclusiveEnd direction
  | i, (v, true) :: rest =>
    flipIf (ord.inverts i) (valueBytes v) ++ seekBytes ord direction (i + 1) rest
  | i, (v, false) :: _ => flipIf (ord.inverts i) (valueBytes v) ++ exclusiveEnd direction

theorem bytes_queryObj (i : Nat) (target : List (Value × Bool)) :
    ∃ bits, appendAllElementsForIndexing ord (seekDiscriminator direction) i
      (queryObj (querySuffix direction target)) =
        some ⟨seekBytes ord direction i target, bits⟩ := by
  induction target generalizing i with
  | nil => exact ⟨_, rfl⟩
  | cons f rest ih =>
    obtain ⟨v, inclusive⟩ := f
    have hvalue := (inverts_appendBsonValue v (ord.inverts i)).1
    cases inclusive with
    | true =>
      obtain ⟨bits, hrest⟩ := ih (i + 1)
      refine ⟨(appendBsonValue v (ord.inverts i)).bits ++ bits, ?_⟩
      change (appendAllElementsForIndexing ord _ (i + 1)
        (queryObj (querySuffix direction rest))).map _ = _
      rw [hrest, seekBytes, valueBytes, ← hvalue]
      rfl
    | false =>
      refine ⟨(appendBsonValue v (ord.inverts i)).bits, ?_⟩
      rw [seekBytes, valueBytes, ← hvalue]
      cases direction with
      | forward | backward =>
        exact congrArg some (congrArg₂ Output.mk (append_assoc _ _ _) (by simp))

theorem stops_seekBytes (i : Nat) (target : List (Value × Bool)) :
    Stops (seekBytes ord direction i target) ∧ Stops (flip (seekBytes ord direction i target)) := by
  have hvalue : ∀ (v : Value) (x : Bytes),
      Stops (flipIf (ord.inverts i) (valueBytes v) ++ x) ∧
        Stops (flip (flipIf (ord.inverts i) (valueBytes v) ++ x)) := by
    intro v x
    obtain ⟨h1, h2⟩ := stops_value v []
    rw [append_nil] at h1 h2
    cases ord.inverts i with
    | false => exact ⟨h1.append _, by simpa using h2.append _⟩
    | true => exact ⟨h2.append _, by simpa using h1.append _⟩
  match target with
  | [] =>
    cases direction with
    | forward | backward => exact ⟨stops_cons (by decide) _, stops_cons (by decide) _⟩
  | (v, true) :: rest | (v, false) :: rest => exact hvalue v _

/-- Every key starts between the two bytes that stand for before and after. -/
theorem head_keyBytes (i : Nat) (fields : Obj) :
    ∃ a t, keyBytes ord i fields = a :: t ∧ kLess.toNat < a.toNat ∧ a.toNat < kGreater.toNat := by
  cases fields with
  | nil => exact ⟨kEnd, [], rfl, by decide, by decide⟩
  | cons f rest =>
    obtain ⟨a, t, h, ha⟩ := head_value f.2
    have hb := ctypeRange_bounds f.2
    have hless : kLess.toNat = 1 := rfl
    have hgreater : kGreater.toNat = 254 := rfl
    have hc := toNat_complement a
    simp only [keyBytes, h]
    cases ord.inverts i with
    | false => exact ⟨a, t ++ keyBytes ord (i + 1) rest, rfl, by omega, by omega⟩
    | true => exact ⟨~~~a, flip t ++ keyBytes ord (i + 1) rest, rfl, by omega, by omega⟩

/-- After an exclusive field, the query lies beyond all keys with that field, in the direction of
the scan. -/
theorem ordered_exclusiveEnd (i : Nat) (fields : Obj) (rid : Bytes) :
    Ordered direction.sign (exclusiveEnd direction) (keyBytes ord i fields ++ rid) := by
  obtain ⟨a, t, h, hlow, hhigh⟩ := @head_keyBytes ord i fields
  rw [h]
  cases direction with
  | forward => exact below_cons hhigh
  | backward => exact below_cons hlow

end Bytes

section Orders
variable {ord : KeyOrdering} {direction : Direction} {target : List (Value × Bool)}
  {fields : Obj} {i : Nat}

/-- Where the query lies, seen from the key: field by field, and where the fields that count are
equal, before the key or beyond it in the direction of the scan. -/
def seekOrder (timestamps : UInt64 → UInt64 → Ordering) (ord : KeyOrdering)
    (direction : Direction) : Nat → List (Value × Bool) → Obj → Ordering
  | _, [], _ => direction.sign.swap
  | _, _ :: _, [] => .gt
  | i, (v, inclusive) :: rest, (_, w) :: fields =>
    (if ord.descending i then (woCompareElement timestamps v w).swap
      else woCompareElement timestamps v w).then
        (if inclusive then seekOrder timestamps ord direction (i + 1) rest fields
        else direction.sign)

/-- The target has a value for each field, or ends with an exclusive one before that. -/
def Fits : List (Value × Bool) → Obj → Prop
  | [], fields => fields = []
  | _ :: _, [] => False
  | (_, true) :: rest, _ :: fields => Fits rest fields
  | (_, false) :: _, _ :: _ => True

/-- The values of a target as key strings keep them. -/
def keptTarget (target : List (Value × Bool)) : List (Value × Bool) :=
  target.map fun f => (kept f.1, f.2)

theorem ordered_seekBytes (rid : Bytes) (hfits : Fits target fields) (hlen : i + fields.length ≤ 32)
    (htarget : ∀ f ∈ target, f.1.storable) (hfields : fieldsStorable fields) :
    Ordered (seekOrder compareAsUnsigned ord direction i (keptTarget target) (keptFields fields))
      (seekBytes ord direction i target) (keyBytes ord i fields ++ rid) := by
  induction target generalizing i fields with
  | nil =>
    obtain rfl : fields = [] := hfits
    cases direction with
    | forward | backward => exact below_cons (by decide)
  | cons f rest ih =>
    obtain ⟨v, inclusive⟩ := f
    cases fields with
    | nil => exact hfits.elim
    | cons g fields =>
      simp only [length_cons, fieldsStorable, Bool.and_eq_true] at hlen hfields
      have hcode : Codes (woCompareElement compareAsUnsigned (kept v) (kept g.2)) (valueBytes v)
          (valueBytes g.2) :=
        codes_element (codes_value v g.2 (htarget (v, inclusive) (by simp)) hfields.1.2)
      have hd : ord.inverts i = ord.descending i := by
        rw [KeyOrdering.inverts, Nat.mod_eq_of_lt (by omega)]
        rfl
      have hkey : Stops (keyBytes ord (i + 1) fields ++ rid) ∧
          Stops (flip (keyBytes ord (i + 1) fields ++ rid)) := by
        obtain ⟨h1, h2⟩ := @stops_keyBytes ord (i + 1) fields
        exact ⟨h1.append _, by simpa using h2.append _⟩
      -- the field, and behind it whatever follows on either side
      have hfield : ∀ {q : Ordering} {x : Bytes}, Stops x → Stops (flip x) →
          Ordered q x (keyBytes ord (i + 1) fields ++ rid) →
          Ordered ((if ord.descending i then (woCompareElement compareAsUnsigned (kept v) (kept g.2)).swap
            else woCompareElement compareAsUnsigned (kept v) (kept g.2)).then q)
            (flipIf (ord.inverts i) (valueBytes v) ++ x) (keyBytes ord i (g :: fields) ++ rid) := by
        intro q x hx hx' hq
        rw [keyBytes, append_assoc, hd]
        cases ord.descending i with
        | false => exact hcode.ordered_append hx hkey.1 fun _ => hq
        | true => exact hcode.ordered_flip_append hx' hkey.2 fun _ => hq
      cases inclusive with
      | true =>
        obtain ⟨h1, h2⟩ := @stops_seekBytes ord direction (i + 1) rest
        exact hfield h1 h2 (ih hfits (by omega) (forall_mem_cons.mp htarget).2
          hfields.2)
      | false =>
        apply hfield
        · cases direction <;> exact stops_cons (by decide) _
        · cases direction <;> exact stops_cons (by decide) _
        · exact ordered_exclusiveEnd (i + 1) fields rid

/-- The comparator of BSON keys, with ties before the key in the direction of the scan. -/
theorem compare_querySuffix (hfits : Fits target fields) :
    (IndexEntryComparison.compare ord i (querySuffix direction target)
      (stored (fields.map Prod.snd))).then direction.sign.swap =
        seekOrder compareAsDates ord direction i target fields := by
  induction target generalizing i fields with
  | nil =>
    obtain rfl : fields = [] := hfits
    rfl
  | cons f rest ih =>
    obtain ⟨v, inclusive⟩ := f
    cases fields with
    | nil => exact hfits.elim
    | cons g fields =>
      have hcompare : woCompareElement compareAsDates v g.2 = v.woCompare g.2 := rfl
      cases inclusive with
      | true =>
        have hrest := @ih fields (i + 1) hfits
        simp only [querySuffix, map_cons, stored, IndexEntryComparison.compare, seekOrder,
          hcompare, if_true]
        cases v.woCompare g.2 with
        | lt => cases ord.descending i <;> rfl
        | eq => simpa [stored] using hrest
        | gt => cases ord.descending i <;> rfl
      | false =>
        simp only [querySuffix, map_cons, stored, IndexEntryComparison.compare, seekOrder,
          hcompare, Bool.false_eq_true, if_false, IndexEntryComparison.exclusive]
        cases v.woCompare g.2 with
        | lt => cases ord.descending i <;> rfl
        | eq => cases direction <;> cases ord.descending i <;> rfl
        | gt => cases ord.descending i <;> rfl

theorem seekOrder_ne_eq (timestamps : UInt64 → UInt64 → Ordering) :
    seekOrder timestamps ord direction i target fields ≠ .eq := by
  have hsign : direction.sign ≠ .eq ∧ direction.sign.swap ≠ .eq := by
    cases direction <;> decide
  have hthen : ∀ a b : Ordering, b ≠ .eq → a.then b ≠ .eq := by decide
  induction target generalizing i fields with
  | nil => exact hsign.2
  | cons f rest ih =>
    obtain ⟨v, inclusive⟩ := f
    cases fields with
    | nil => simp [seekOrder]
    | cons g fields =>
      rw [seekOrder]
      apply hthen
      cases inclusive with
      | true => exact ih
      | false => exact hsign.1

/-- Inclusive values and then a suffix, or an exclusive value at last. -/
theorem fits_append (pre : Query.IndexKey) (suffix : List (Value × Bool))
    (hlen : pre.length ≤ fields.length) (hfits : Fits suffix (fields.drop pre.length)) :
    Fits (pre.map (·, true) ++ suffix) fields := by
  induction pre generalizing fields with
  | nil => exact hfits
  | cons v pre ih =>
    cases fields with
    | nil => simp at hlen
    | cons g fields => exact ih (by simpa using hlen) (by simpa using hfits)

theorem fits_of_length_eq (suffix : List (Value × Bool)) (h : suffix.length = fields.length) :
    Fits suffix fields := by
  induction suffix generalizing fields with
  | nil => exact eq_nil_of_length_eq_zero h.symm
  | cons f suffix ih =>
    obtain ⟨v, inclusive⟩ := f
    cases fields with
    | nil => cases h
    | cons g fields =>
      cases inclusive with
      | true => exact ih (by simpa using h)
      | false => trivial

theorem Describes.fits {p : IndexSeekPoint} (h : Describes fields.length p) :
    Fits p.target fields := by
  obtain ⟨hpre, hrest⟩ := h
  have hlen : (p.keyPrefix.take p.prefixLen).length = p.prefixLen := by simpa using hpre
  unfold IndexSeekPoint.target
  split at hrest
  · rename_i hexcl
    rw [if_pos hexcl]
    generalize p.keyPrefix.take p.prefixLen = pre at hlen
    obtain ⟨init, last, rfl⟩ := (eq_nil_or_concat' pre).resolve_left (by
      rintro rfl
      simp at hlen
      omega)
    rw [exclusiveTarget_concat]
    rw [length_append, length_singleton] at hlen
    refine fits_append init _ (by omega) ?_
    obtain ⟨g, tail, hdrop⟩ := exists_cons_of_length_pos
      (show 0 < (fields.drop init.length).length by simp; omega)
    rw [hdrop]
    trivial
  · rename_i hincl
    rw [if_neg hincl]
    refine fits_append _ _ (by omega) (fits_of_length_eq _ ?_)
    rw [length_drop]
    omega

end Orders

/-- The values of a target are among those of the seek point. -/
theorem forall_mem_target {P : Value → Prop} {p : IndexSeekPoint} (hvalues : ∀ v ∈ p.keyPrefix, P v)
    (hsuffix : ∀ f ∈ p.keySuffix, P f.1) : ∀ f ∈ p.target, P f.1 := by
  have htake : ∀ v ∈ p.keyPrefix.take p.prefixLen, P v :=
    fun v hv => hvalues v (mem_of_mem_take hv)
  unfold IndexSeekPoint.target
  split
  · generalize p.keyPrefix.take p.prefixLen = pre at htake
    rcases eq_nil_or_concat' pre with rfl | ⟨init, last, rfl⟩
    · simp [exclusiveTarget]
    · rw [exclusiveTarget_concat]
      intro f hf
      rcases mem_append.mp hf with hf | hf
      · obtain ⟨v, hv, rfl⟩ := mem_map.mp hf
        exact htake v (by simp [hv])
      · rw [mem_singleton.mp hf]
        exact htake last (by simp)
  · intro f hf
    rcases mem_append.mp hf with hf | hf
    · obtain ⟨v, hv, rfl⟩ := mem_map.mp hf
      exact htake v hv
    · exact hsuffix f hf

/-- The query and the key lie the same way as they are and as key strings keep them. -/
def SameSide (ord : KeyOrdering) (direction : Direction) (p : IndexSeekPoint) (fields : Obj) : Prop :=
  seekOrder compareAsDates ord direction 0 p.target fields =
    seekOrder compareAsUnsigned ord direction 0 (keptTarget p.target) (keptFields fields)

instance (ord : KeyOrdering) (direction : Direction) (p : IndexSeekPoint) (fields : Obj) :
    Decidable (SameSide ord direction p fields) := by
  unfold SameSide
  infer_instance

theorem seekOrder_datable (ord : KeyOrdering) (direction : Direction) :
    ∀ (i : Nat) (target : List (Value × Bool)) (fields : Obj),
      (∀ f ∈ target, datable f.1 = true) → fieldsDatable fields = true →
      seekOrder compareAsDates ord direction i target fields =
        seekOrder compareAsUnsigned ord direction i target fields
  | _, [], _, _, _ | _, _ :: _, [], _, _ => rfl
  | i, (v, inclusive) :: rest, (_, w) :: fields, htarget, hfields => by
    obtain ⟨hv, hrest⟩ := forall_mem_cons.mp htarget
    obtain ⟨hw, hfields⟩ := Bool.and_eq_true_iff.mp hfields
    rw [seekOrder, seekOrder, woCompareElement_datable hv hw,
      seekOrder_datable ord direction (i + 1) rest fields hrest hfields]

/-- It is the same side if the key strings lose nothing and no timestamp is negative as a date. -/
theorem sameSide_of_datable (ord : KeyOrdering) (direction : Direction) {p : IndexSeekPoint}
    {fields : Obj} (hvalues : ∀ v ∈ p.keyPrefix, kept v = v ∧ datable v = true)
    (hsuffix : ∀ f ∈ p.keySuffix, kept f.1 = f.1 ∧ datable f.1 = true)
    (hkept : keptFields fields = fields) (hfields : fieldsDatable fields = true) :
    SameSide ord direction p fields := by
  have htarget := @forall_mem_target (fun v => kept v = v ∧ datable v = true) p hvalues hsuffix
  have hwhole : keptTarget p.target = p.target := by
    refine (map_congr_left fun f hf => ?_).trans (map_id _)
    exact Prod.ext (htarget f hf).1 rfl
  rw [SameSide, hwhole, hkept]
  exact seekOrder_datable ord direction 0 _ _ (fun f hf => (htarget f hf).2) hfields

end MongolDb.WiredTiger
