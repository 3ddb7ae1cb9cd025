import MongolDb.Lib.ByteOrder

/-! Finite maps as lists in the order of their keys, and stepping through them both ways. -/

/-- The entries stand in strictly increasing order of their keys. -/
structure SortedMap (κ ν : Type*) [LinearOrder κ] where
  entries : List (κ × ν)
  sorted : entries.Pairwise fun a b => a.1 < b.1

namespace SortedMap
open List

variable {κ ν : Type*} [LinearOrder κ] {m : SortedMap κ ν} {k k' : κ} {v : ν} {e : κ × ν}

def empty : SortedMap κ ν := ⟨[], .nil⟩

section
variable (m k v)

def find : Option ν :=
  (m.entries.find? fun e => decide (e.1 = k)).map Prod.snd

theorem sorted_put :
    (m.entries.filter (fun e => decide (e.1 < k)) ++
      (k, v) :: m.entries.filter fun e => decide (k < e.1)).Pairwise fun a b => a.1 < b.1 := by
  rw [pairwise_append, pairwise_cons]
  refine ⟨m.sorted.filter _, ⟨?_, m.sorted.filter _⟩, ?_⟩
  · intro e he
    simpa using (mem_filter.mp he).2
  · intro a ha b hb
    have hak : a.1 < k := by simpa using (mem_filter.mp ha).2
    rcases mem_cons.mp hb with rfl | hb
    · exact hak
    · have hkb : k < b.1 := by simpa using (mem_filter.mp hb).2
      exact hak.trans hkb

/-- Adds an entry, in place of one with the same key. -/
def put : SortedMap κ ν := ⟨_, m.sorted_put k v⟩

def erase : SortedMap κ ν :=
  ⟨m.entries.filter fun e => decide (e.1 ≠ k), m.sorted.filter _⟩

end

theorem eq_of_key_eq {l : List (κ × ν)} (hl : l.Pairwise fun a b => a.1 < b.1) {a b : κ × ν}
    (ha : a ∈ l) (hb : b ∈ l) (h : a.1 = b.1) : a = b :=
  inj_on_of_nodup_map (pairwise_map.mpr (hl.imp ne_of_lt)) ha hb h

theorem find_eq_some_iff : m.find k = some v ↔ (k, v) ∈ m.entries := by
  constructor
  · intro h
    obtain ⟨e, he, rfl⟩ := Option.map_eq_some_iff.mp h
    have hk : e.1 = k := by simpa using find?_some he
    rw [← hk]
    exact mem_of_find?_eq_some he
  · intro h
    obtain ⟨e, he⟩ := Option.isSome_iff_exists.mp
      (find?_isSome.mpr ⟨(k, v), h, by simp⟩ :
        (m.entries.find? fun e => decide (e.1 = k)).isSome = true)
    have hk : e.1 = k := by simpa using find?_some he
    have heq := eq_of_key_eq m.sorted (mem_of_find?_eq_some he) h hk
    rw [find, he, heq]
    rfl

theorem mem_put : e ∈ (m.put k v).entries ↔ e = (k, v) ∨ e.1 ≠ k ∧ e ∈ m.entries := by
  simp only [put, mem_append, mem_cons, mem_filter, decide_eq_true_eq]
  constructor
  · rintro (⟨he, hlt⟩ | rfl | ⟨he, hlt⟩)
    · exact .inr ⟨hlt.ne, he⟩
    · exact .inl rfl
    · exact .inr ⟨hlt.ne', he⟩
  · rintro (rfl | ⟨hne, he⟩)
    · exact .inr (.inl rfl)
    · rcases lt_or_gt_of_ne hne with hlt | hlt
      · exact .inl ⟨he, hlt⟩
      · exact .inr (.inr ⟨he, hlt⟩)

theorem mem_erase : e ∈ (m.erase k).entries ↔ e.1 ≠ k ∧ e ∈ m.entries := by
  simp [erase, and_comm]

theorem find_eq_none_iff : m.find k = none ↔ ∀ e ∈ m.entries, e.1 ≠ k := by
  simp [find]

theorem find_put_self : (m.put k v).find k = some v :=
  find_eq_some_iff.mpr (mem_put.mpr (.inl rfl))

theorem find_put_ne (h : k' ≠ k) : (m.put k v).find k' = m.find k' := by
  apply Option.ext
  intro w
  simp only [find_eq_some_iff, mem_put]
  simp [h]

theorem find_erase_self : (m.erase k).find k = none :=
  find_eq_none_iff.mpr fun _ he => (mem_erase.mp he).1

theorem find_erase_ne (h : k' ≠ k) : (m.erase k).find k' = m.find k' := by
  apply Option.ext
  intro w
  simp only [find_eq_some_iff, mem_erase]
  simp [h]

/-- `b` comes strictly after `a` in the direction of the scan. -/
def Beyond {α : Type*} [LT α] (forward : Bool) (a b : α) : Prop :=
  if forward then a < b else b < a

def first (m : SortedMap κ ν) (forward : Bool) : Option κ :=
  if forward then m.entries.head?.map Prod.fst else m.entries.getLast?.map Prod.fst

/-- The key next to `k` in the given direction, whether `k` is there or not. -/
def after (m : SortedMap κ ν) (forward : Bool) (k : κ) : Option κ :=
  if forward then (m.entries.filter fun e => decide (k < e.1)).head?.map Prod.fst
  else (m.entries.filter fun e => decide (e.1 < k)).getLast?.map Prod.fst

section Stepping
variable {α : Type*} [LinearOrder α] {forward : Bool} {a b c : α}

theorem beyond_irrefl (forward : Bool) (a : α) : ¬ Beyond forward a a := by
  cases forward <;> exact lt_irrefl a

theorem Beyond.trans (h : Beyond forward a b) (h' : Beyond forward b c) : Beyond forward a c := by
  cases forward with
  | false => exact lt_trans (show c < b from h') h
  | true => exact lt_trans (show a < b from h) h'

theorem beyond_trichotomy (forward : Bool) (a b : α) :
    Beyond forward a b ∨ a = b ∨ Beyond forward b a := by
  cases forward with
  | false =>
    rcases lt_trichotomy a b with h | h | h
    · exact .inr (.inr h)
    · exact .inr (.inl h)
    · exact .inl h
  | true => exact lt_trichotomy a b

theorem beyond_not (forward : Bool) (a b : α) : Beyond (!forward) a b ↔ Beyond forward b a := by
  cases forward <;> exact Iff.rfl

instance (forward : Bool) : IsStrictTotalOrder α (Beyond forward) where
  irrefl := beyond_irrefl forward
  trans _ _ _ := Beyond.trans
  trichotomous a b h h' := by
    rcases beyond_trichotomy forward a b with hc | hc | hc
    · exact absurd hc h
    · exact hc
    · exact absurd hc h'

theorem head_least {l : List (κ × ν)} (hl : l.Pairwise fun a b => a.1 < b.1)
    (h : l.head? = some e) : e ∈ l ∧ ∀ f ∈ l, f = e ∨ e.1 < f.1 := by
  cases l with
  | nil => cases h
  | cons g l =>
    obtain rfl : g = e := Option.some.inj h
    refine ⟨mem_cons_self, fun f hf => ?_⟩
    rcases mem_cons.mp hf with rfl | hf
    · exact .inl rfl
    · exact .inr ((pairwise_cons.mp hl).1 f hf)

theorem getLast_greatest {l : List (κ × ν)} (hl : l.Pairwise fun a b => a.1 < b.1)
    (h : l.getLast? = some e) : e ∈ l ∧ ∀ f ∈ l, f = e ∨ f.1 < e.1 := by
  obtain ⟨l', rfl⟩ := getLast?_eq_some_iff.mp h
  refine ⟨by simp, fun f hf => ?_⟩
  rcases mem_append.mp hf with hf | hf
  · exact .inr ((pairwise_append.mp hl).2.2 f hf e (by simp))
  · exact .inl (by simpa using hf)

/-- `after` finds the nearest key on its side. -/
theorem after_eq_some (h : m.after forward k = some k') :
    (∃ v, (k', v) ∈ m.entries) ∧ Beyond forward k k' ∧
      ∀ e ∈ m.entries, Beyond forward k e.1 → e.1 = k' ∨ Beyond forward k' e.1 := by
  cases forward with
  | false =>
    obtain ⟨e, he, rfl⟩ := Option.map_eq_some_iff.mp h
    obtain ⟨hmem, hmax⟩ := getLast_greatest (m.sorted.filter _) he
    obtain ⟨hin, hlt⟩ := mem_filter.mp hmem
    have hlt' : e.1 < k := of_decide_eq_true hlt
    refine ⟨⟨e.2, hin⟩, hlt', fun f hf (hbeyond : f.1 < k) => ?_⟩
    exact (hmax f (mem_filter.mpr ⟨hf, decide_eq_true hbeyond⟩)).imp (congrArg Prod.fst) id
  | true =>
    obtain ⟨e, he, rfl⟩ := Option.map_eq_some_iff.mp h
    obtain ⟨hmem, hmin⟩ := head_least (m.sorted.filter _) he
    obtain ⟨hin, hlt⟩ := mem_filter.mp hmem
    have hlt' : k < e.1 := of_decide_eq_true hlt
    refine ⟨⟨e.2, hin⟩, hlt', fun f hf (hbeyond : k < f.1) => ?_⟩
    exact (hmin f (mem_filter.mpr ⟨hf, decide_eq_true hbeyond⟩)).imp (congrArg Prod.fst) id

theorem after_eq_none (h : m.after forward k = none) :
    ∀ e ∈ m.entries, ¬ Beyond forward k e.1 := by
  intro e he hbeyond
  cases forward with
  | false =>
    have hlt : e.1 < k := hbeyond
    have hnil := getLast?_eq_none_iff.mp (Option.map_eq_none_iff.mp h)
    exact not_mem_nil (hnil ▸ mem_filter.mpr ⟨he, decide_eq_true hlt⟩)
  | true =>
    have hlt : k < e.1 := hbeyond
    have hnil := head?_eq_none_iff.mp (Option.map_eq_none_iff.mp h)
    exact not_mem_nil (hnil ▸ mem_filter.mpr ⟨he, decide_eq_true hlt⟩)

end Stepping

end SortedMap

/-! Byte strings are such keys. -/

namespace ByteOrder

instance linearOrderUInt8 : LinearOrder UInt8 where
  le_refl := UInt8.le_refl
  le_trans _ _ _ := UInt8.le_trans
  le_antisymm _ _ := UInt8.le_antisymm
  lt_iff_le_not_ge a b := by
    simp only [UInt8.lt_iff_toNat_lt, UInt8.le_iff_toNat_le]
    omega
  le_total := UInt8.le_total
  toDecidableLE := inferInstance
  toDecidableLT := inferInstance
  toDecidableEq := inferInstance

theorem lex_eq_lt_iff {u v : Bytes} : lex u v = .lt ↔ u < v := by
  induction u generalizing v with
  | nil =>
    cases v with
    | nil | cons => simp [lex]
  | cons a u ih =>
    cases v with
    | nil => simp [lex]
    | cons b v =>
      rw [List.cons_lt_cons_iff, ← ih, lex]
      rcases lt_trichotomy a b with h | rfl | h
      · simp [h]
      · simp
      · simp [h, h.not_gt, h.ne']

end ByteOrder
