import Mathlib.Data.List.Nodup

/-! Lists of records with a key, where a record is found, changed or taken out by its key. -/
namespace Keyed
open List

variable {α κ : Type*} [DecidableEq κ] {key : α → κ} {k : κ} {f : α → α} {l : List α} {a b : α}

def lookup (key : α → κ) (k : κ) (l : List α) : Option α :=
  l.find? fun a => decide (key a = k)

def modify (key : α → κ) (k : κ) (f : α → α) (l : List α) : List α :=
  l.map fun a => if key a = k then f a else a

def erase (key : α → κ) (k : κ) (l : List α) : List α :=
  l.filter fun a => decide (key a ≠ k)

theorem of_lookup (h : lookup key k l = some a) : a ∈ l ∧ key a = k :=
  ⟨mem_of_find?_eq_some h, by simpa using find?_some h⟩

theorem lookup_ne_none (ha : a ∈ l) (hk : key a = k) : lookup key k l ≠ none := by
  intro h
  have := find?_eq_none.mp h a ha
  simp [hk] at this

theorem lookup_modify (hf : ∀ a, key (f a) = key a) :
    lookup key k (modify key k f l) = (lookup key k l).map f := by
  induction l with
  | nil => rfl
  | cons a l ih =>
    by_cases hk : key a = k
    · simp [lookup, modify, hk, hf]
    · simpa [lookup, modify, hk] using ih

theorem modify_append (l l' : List α) :
    modify key k f (l ++ l') = modify key k f l ++ modify key k f l' :=
  map_append

theorem mem_erase : b ∈ erase key k l ↔ b ∈ l ∧ key b ≠ k := by
  simp [erase]

theorem mem_modify :
    b ∈ modify key k f l ↔ (b ∈ l ∧ key b ≠ k) ∨ ∃ a ∈ l, key a = k ∧ f a = b := by
  simp only [modify, mem_map]
  constructor
  · rintro ⟨a, ha, rfl⟩
    by_cases hk : key a = k
    · exact .inr ⟨a, ha, hk, by simp [hk]⟩
    · exact .inl (by simp [hk, ha])
  · rintro (⟨hb, hk⟩ | ⟨a, ha, hk, rfl⟩)
    · exact ⟨b, hb, by simp [hk]⟩
    · exact ⟨a, ha, by simp [hk]⟩

theorem map_key_modify (hf : ∀ a, key (f a) = key a) :
    (modify key k f l).map key = l.map key := by
  simp only [modify, map_map]
  refine map_congr_left fun a _ => ?_
  by_cases hk : key a = k <;> simp [hk, hf]

theorem modify_of_forall_ne (h : ∀ a ∈ l, key a ≠ k) : modify key k f l = l := by
  simp only [modify]
  conv_rhs => rw [← map_id l]
  exact map_congr_left fun a ha => by simp [h a ha]

theorem erase_of_forall_ne (h : ∀ a ∈ l, key a ≠ k) : erase key k l = l :=
  filter_eq_self.mpr fun a ha => by simpa using h a ha

theorem nodup_erase (h : (l.map key).Nodup) : ((erase key k l).map key).Nodup :=
  h.sublist (filter_sublist.map key)

omit [DecidableEq κ] in
/-- Keys tell the records apart. -/
theorem eq_of_key_eq (h : (l.map key).Nodup) (ha : a ∈ l) (hb : b ∈ l) (hk : key a = key b) :
    a = b :=
  inj_on_of_nodup_map h ha hb hk

omit [DecidableEq κ] in
/-- The record under a key, and the records before and after it, none of which has the key. -/
theorem exists_split (h : (l.map key).Nodup) (ha : a ∈ l) (hk : key a = k) :
    ∃ before after, l = before ++ a :: after ∧ (∀ y ∈ before, key y ≠ k) ∧
      ∀ y ∈ after, key y ≠ k := by
  obtain ⟨before, after, rfl⟩ := append_of_mem ha
  rw [map_append, map_cons, nodup_middle, nodup_cons, hk] at h
  refine ⟨before, after, rfl, ?_, ?_⟩
  · intro y hy he
    exact h.1 (mem_append_left _ (mem_map.mpr ⟨y, hy, he⟩))
  · intro y hy he
    exact h.1 (mem_append_right _ (mem_map.mpr ⟨y, hy, he⟩))

theorem countP_erase (p : α → Bool) (h : (l.map key).Nodup) (ha : a ∈ l) (hk : key a = k) :
    (erase key k l).countP p + (if p a then 1 else 0) = l.countP p := by
  obtain ⟨before, after, rfl, hbefore, hafter⟩ := exists_split h ha hk
  have herase : erase key k (before ++ a :: after) = before ++ after := by
    rw [erase, filter_append, filter_cons_of_neg (by simp [hk])]
    exact congrArg₂ (· ++ ·) (erase_of_forall_ne hbefore) (erase_of_forall_ne hafter)
  simp only [herase, countP_append, countP_cons, Nat.add_assoc]

theorem countP_modify (p : α → Bool) (h : (l.map key).Nodup) (ha : a ∈ l) (hk : key a = k) :
    (modify key k f l).countP p + (if p a then 1 else 0)
      = l.countP p + (if p (f a) then 1 else 0) := by
  obtain ⟨before, after, rfl, hbefore, hafter⟩ := exists_split h ha hk
  have hmodify : modify key k f (before ++ a :: after) = before ++ f a :: after := by
    have h₁ := modify_of_forall_ne (f := f) hbefore
    have h₂ := modify_of_forall_ne (f := f) hafter
    simp_all [modify]
  simp only [hmodify, countP_append, countP_cons]
  omega

end Keyed
