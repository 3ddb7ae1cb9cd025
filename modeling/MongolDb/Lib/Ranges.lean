import MongolDb.Lib.SortedMap

/-! Sets of keys given by disjoint ranges: maps from the start of each range to its end, which the
range does not include. -/
namespace Ranges

variable {κ : Type*} [LinearOrder κ]

/-- The key lies in the range. -/
def InRange (e : κ × κ) (k : κ) : Prop := e.1 ≤ k ∧ k < e.2

instance (e : κ × κ) (k : κ) : Decidable (InRange e k) := inferInstanceAs (Decidable (_ ∧ _))

/-- The key lies in some range of the list. -/
def Owns (l : List (κ × κ)) (k : κ) : Prop := ∃ e ∈ l, InRange e k

theorem owns_cons {e : κ × κ} {l : List (κ × κ)} {k : κ} :
    Owns (e :: l) k ↔ InRange e k ∨ Owns l k := by
  simp [Owns]

theorem owns_append {l l' : List (κ × κ)} {k : κ} : Owns (l ++ l') k ↔ Owns l k ∨ Owns l' k := by
  simp [Owns, or_and_right, exists_or]

/-- The ranges are not empty and do not overlap. -/
structure Apart (l : List (κ × κ)) : Prop where
  nonempty : ∀ e ∈ l, e.1 < e.2
  apart : ∀ a ∈ l, ∀ b ∈ l, a.1 < b.1 → a.2 ≤ b.1

section Apart
variable {l l' : List (κ × κ)} {e e' : κ × κ} {k : κ}

theorem Apart.mono (h : Apart l) (hsub : ∀ e ∈ l', e ∈ l) : Apart l' :=
  ⟨fun e he => h.nonempty e (hsub e he),
    fun a ha b hb => h.apart a (hsub a ha) b (hsub b hb)⟩

/-- Ranges that share a key start at the same key. -/
theorem Apart.start_eq (h : Apart l) (he : e ∈ l) (he' : e' ∈ l) (hk : InRange e k)
    (hk' : InRange e' k) : e.1 = e'.1 := by
  rcases lt_trichotomy e.1 e'.1 with hlt | heq | hlt
  · exact absurd ((h.apart e he e' he' hlt).trans hk'.1) (not_le.mpr hk.2)
  · exact heq
  · exact absurd ((h.apart e' he' e he hlt).trans hk.1) (not_le.mpr hk'.2)

/-- The range meets none of the list. -/
def Free (l : List (κ × κ)) (e : κ × κ) : Prop := ∀ a ∈ l, a.2 ≤ e.1 ∨ e.2 ≤ a.1

theorem Apart.insert (h : Apart l) (he : e.1 < e.2) (hfree : Free l e)
    (hmem : ∀ a ∈ l', a = e ∨ a ∈ l) : Apart l' := by
  refine ⟨?_, ?_⟩
  · intro a ha
    rcases hmem a ha with rfl | ha
    · exact he
    · exact h.nonempty a ha
  · intro a ha b hb hlt
    rcases hmem a ha with rfl | ha
    · rcases hmem b hb with rfl | hb
      · exact absurd hlt (lt_irrefl _)
      · rcases hfree b hb with hle | hle
        · exact absurd ((h.nonempty b hb).le.trans hle) (not_le.mpr hlt)
        · exact hle
    · rcases hmem b hb with rfl | hb
      · rcases hfree a ha with hle | hle
        · exact hle
        · exact absurd (he.le.trans hle) (not_le.mpr hlt)
      · exact h.apart a ha b hb hlt

theorem owns_of_mem_iff (hmem : ∀ a, a ∈ l' ↔ a = e ∨ a ∈ l) :
    Owns l' k ↔ InRange e k ∨ Owns l k := by
  constructor
  · rintro ⟨a, ha, hak⟩
    rcases (hmem a).mp ha with rfl | ha
    · exact .inl hak
    · exact .inr ⟨a, ha, hak⟩
  · rintro (hek | ⟨a, ha, hak⟩)
    · exact ⟨e, (hmem e).mpr (.inl rfl), hek⟩
    · exact ⟨a, (hmem a).mpr (.inr ha), hak⟩

/-- A range cut in two owns the same keys. -/
theorem Apart.cut {a b c : κ} (h : Apart l) (hab : (a, b) ∈ l) (hac : a < c) (hcb : c < b)
    (huniq : ∀ e ∈ l, e.1 = a → e = (a, b))
    (hmem : ∀ e, e ∈ l' ↔ e = (a, c) ∨ e = (c, b) ∨ e.1 ≠ a ∧ e ∈ l) :
    Apart l' ∧ ∀ k, Owns l' k ↔ Owns l k := by
  have hrest : ∀ e ∈ l, e.1 ≠ a → e.2 ≤ a ∨ b ≤ e.1 := by
    intro e he hne
    rcases lt_or_gt_of_ne hne with hlt | hlt
    · exact .inl (h.apart e he (a, b) hab hlt)
    · exact .inr (h.apart (a, b) hab e he hlt)
  refine ⟨⟨?_, ?_⟩, ?_⟩
  · intro e he
    rcases (hmem e).mp he with rfl | rfl | ⟨-, he⟩
    · exact hac
    · exact hcb
    · exact h.nonempty e he
  · intro x hx y hy hxy
    rcases (hmem x).mp hx with rfl | rfl | ⟨hxa, hx⟩
    · rcases (hmem y).mp hy with rfl | rfl | ⟨hya, hy⟩
      · exact absurd hxy (lt_irrefl _)
      · exact le_rfl
      · exact hcb.le.trans (h.apart (a, b) hab y hy hxy)
    · rcases (hmem y).mp hy with rfl | rfl | ⟨hya, hy⟩
      · exact absurd (hac.trans hxy) (lt_irrefl _)
      · exact absurd hxy (lt_irrefl _)
      · exact h.apart (a, b) hab y hy (hac.trans hxy)
    · rcases (hmem y).mp hy with rfl | rfl | ⟨hya, hy⟩
      · exact h.apart x hx (a, b) hab hxy
      · rcases hrest x hx hxa with hle | hle
        · exact hle.trans hac.le
        · exact absurd (hcb.trans_le hle) (lt_asymm hxy)
      · exact h.apart x hx y hy hxy
  · intro k
    constructor
    · rintro ⟨e, he, hek⟩
      rcases (hmem e).mp he with rfl | rfl | ⟨-, he⟩
      · exact ⟨(a, b), hab, hek.1, hek.2.trans hcb⟩
      · exact ⟨(a, b), hab, hac.le.trans hek.1, hek.2⟩
      · exact ⟨e, he, hek⟩
    · rintro ⟨e, he, hek⟩
      by_cases hea : e.1 = a
      · obtain rfl := huniq e he hea
        rcases lt_or_ge k c with hkc | hck
        · exact ⟨(a, c), (hmem _).mpr (.inl rfl), hek.1, hkc⟩
        · exact ⟨(c, b), (hmem _).mpr (.inr (.inl rfl)), hck, hek.2⟩
      · exact ⟨e, (hmem e).mpr (.inr (.inr ⟨hea, he⟩)), hek⟩

end Apart

end Ranges

namespace Ranges
open List

section
variable {α : Type*} {p : α → Bool} {l : List α}

section
variable (h : l.Pairwise fun a b => p b = true → p a = true)
include h

/-- Where the entries with a property come first, they are the ones before the others. -/
theorem split_eq_filter : l.takeWhile p = l.filter p ∧ l.dropWhile p = l.filter fun e => !p e := by
  induction l with
  | nil => exact ⟨rfl, rfl⟩
  | cons a l ih =>
    obtain ⟨hhead, htail⟩ := List.pairwise_cons.mp h
    obtain ⟨htake, hdrop⟩ := ih htail
    cases hp : p a with
    | true => simp [hp, htake, hdrop]
    | false =>
      have hnone : ∀ b ∈ l, p b = false := by simpa [hp] using hhead
      have hall : (l.filter fun e => !p e) = l := by simpa [List.filter_eq_self] using hnone
      simpa [hp, hall, filter_eq_nil_iff] using hnone

theorem takeWhile_eq_filter : l.takeWhile p = l.filter p := (split_eq_filter h).1

theorem filter_append_filter : l.filter p ++ l.filter (fun e => !p e) = l := by
  rw [← (split_eq_filter h).1, ← (split_eq_filter h).2]
  exact takeWhile_append_dropWhile

theorem take_takeWhile : l.take (l.takeWhile p).length = l.filter p := by
  rw [← prefix_iff_eq_take.mp ( takeWhile_prefix p), takeWhile_eq_filter h]

theorem drop_takeWhile : l.drop (l.takeWhile p).length = l.filter fun e => !p e := by
  have happend := take_append_drop (l.takeWhile p).length l
  rw [take_takeWhile h] at happend
  have hsplit := filter_append_filter h
  exact append_cancel_left (happend.trans hsplit.symm)

end

end

section Gaps
variable {κ : Type*} [LinearOrder κ] {l l' : List (κ × κ)} {lo hi k a b : κ} {gap gap' : κ × κ}

/-- A range between the bounds that meets none of the others and cannot grow. -/
structure Gap (l : List (κ × κ)) (lo hi : κ) (gap : κ × κ) : Prop where
  nonempty : gap.1 < gap.2
  inside : lo ≤ gap.1 ∧ gap.2 ≤ hi
  free : Free l gap
  left : ∀ a, lo ≤ a → a < gap.1 → ¬ Free l (a, gap.2)
  right : ∀ b, b ≤ hi → gap.2 < b → ¬ Free l (gap.1, b)

/-- Where the ranges that start up to the key end. -/
def stops (l : List (κ × κ)) (k : κ) : Set κ := {x | ∃ e ∈ l, e.1 ≤ k ∧ e.2 = x}

/-- Where the other ranges start. -/
def starts (l : List (κ × κ)) (k : κ) : Set κ := {x | ∃ e ∈ l, k < e.1 ∧ e.1 = x}

theorem stops_append : stops (l ++ l') k = stops l k ∪ stops l' k := by
  ext x
  simp [stops, or_and_right, exists_or]

theorem starts_append : starts (l ++ l') k = starts l k ∪ starts l' k := by
  ext x
  simp [starts, or_and_right, exists_or]

/-- Around a key in no range there is a gap, between the closest bounds. -/
theorem gap_of_closest (hl : ∀ e ∈ l, e.1 < e.2) (hk : ¬ Owns l k) (hlo : lo ≤ k) (hhi : k < hi)
    (ha : IsGreatest (stops l k ∪ {lo}) a) (hb : IsLeast (starts l k ∪ {hi}) b) :
    Gap l lo hi (a, b) ∧ InRange (a, b) k := by
  have hak : a ≤ k := by
    rcases ha.1 with ⟨e, he, hek, rfl⟩ | rfl
    · exact not_lt.mp fun hlt => hk ⟨e, he, hek, hlt⟩
    · exact hlo
  have hkb : k < b := by
    rcases hb.1 with ⟨e, -, hek, rfl⟩ | rfl
    · exact hek
    · exact hhi
  refine ⟨⟨hak.trans_lt hkb, ⟨ha.2 (.inr rfl), hb.2 (.inr rfl)⟩, ?_, ?_, ?_⟩, hak, hkb⟩
  · intro e he
    rcases le_or_gt e.1 k with hek | hek
    · exact .inl (ha.2 (.inl ⟨e, he, hek, rfl⟩))
    · exact .inr (hb.2 (.inl ⟨e, he, hek, rfl⟩))
  · intro c hc hca hfree
    rcases ha.1 with ⟨e, he, hek, rfl⟩ | rfl
    · rcases hfree e he with hle | hle
      · exact absurd hca (not_lt.mpr hle)
      · exact absurd (hek.trans_lt hkb) (not_lt.mpr hle)
    · exact absurd hca (not_lt.mpr hc)
  · intro c hc hbc hfree
    rcases hb.1 with ⟨e, he, hek, rfl⟩ | rfl
    · rcases hfree e he with hle | hle
      · exact absurd (hak.trans_lt hek) (not_lt.mpr ((hl e he).le.trans hle))
      · exact absurd hbc (not_lt.mpr hle)
    · exact absurd hbc (not_lt.mpr hc)

/-- No gap goes on behind the end of another. -/
theorem Gap.stop_le (hl : ∀ e ∈ l, e.1 < e.2) (h : Gap l lo hi gap) (h' : Gap l lo hi gap')
    (hlt : gap'.1 < gap.2) : gap'.2 ≤ gap.2 := by
  by_contra hgt
  refine h.right gap'.2 h'.inside.2 (not_le.mp hgt) ?_
  intro e he
  rcases h.free e he with hle | hle
  · exact .inl hle
  · rcases h'.free e he with hle' | hle'
    · exact absurd (hle'.trans_lt (hlt.trans_le hle)) (hl e he).not_gt
    · exact .inr hle'

theorem not_owns_of_free (h : Free l gap) (hk : InRange gap k) : ¬ Owns l k := by
  rintro ⟨e, he, hek⟩
  rcases h e he with hle | hle
  · exact absurd (hek.2.trans_le hle) hk.1.not_gt
  · exact absurd (hk.2.trans_le hle) hek.1.not_gt

end Gaps

/-! Items whose ranges fill the keys from `lo` to `hi` without overlaps. -/

section
variable {κ α : Type*} [LinearOrder κ]

structure Tiles (range : α → κ × κ) (lo hi : κ) (l : List α) : Prop where
  nonempty : ∀ a ∈ l, (range a).1 < (range a).2
  inside : ∀ a ∈ l, lo ≤ (range a).1 ∧ (range a).2 ≤ hi
  apart : l.Pairwise fun a b => (range a).2 ≤ (range b).1 ∨ (range b).2 ≤ (range a).1
  cover : ∀ k, lo ≤ k → k < hi → ∃ a ∈ l, InRange (range a) k

variable {range : α → κ × κ} {lo hi k : κ} {l : List α} {a b : α}

theorem Tiles.disjoint (h : Tiles range lo hi l) (ha : a ∈ l) (hb : b ∈ l) (hne : a ≠ b) :
    (range a).2 ≤ (range b).1 ∨ (range b).2 ≤ (range a).1 := by
  have hsymm : Std.Symm fun a b => (range a).2 ≤ (range b).1 ∨ (range b).2 ≤ (range a).1 :=
    ⟨fun _ _ hab => hab.symm⟩
  exact h.apart.forall ha hb hne

theorem Tiles.nodup (h : Tiles range lo hi l) : l.Nodup := by
  have hmem : ∀ a ∈ l, (range a).1 < (range a).2 := h.nonempty
  refine List.Pairwise.imp_of_mem ?_ h.apart
  rintro a b ha - hab rfl
  rcases hab with hle | hle
  · exact absurd (hmem a ha) (not_lt.mpr hle)
  · exact absurd (hmem a ha) (not_lt.mpr hle)

/-- Some item ends at the key or behind it and starts before it. -/
theorem Tiles.exists_stop (h : Tiles range lo hi l) (hlo : lo < k) (hhi : k ≤ hi) :
    ∃ a ∈ l, (range a).1 < k ∧ k ≤ (range a).2 := by
  obtain ⟨first, hfirst, hin⟩ := h.cover lo le_rfl (hlo.trans_le hhi)
  have hmem : first ∈ l.filter fun a => decide ((range a).1 < k) :=
    mem_filter.mpr ⟨hfirst, decide_eq_true (hin.1.trans_lt hlo)⟩
  -- of the items that start before the key, one that ends last
  obtain ⟨a, ha⟩ : ∃ a, a ∈ argmax (fun a => (range a).2)
      (l.filter fun a => decide ((range a).1 < k)) := by
    apply Option.ne_none_iff_exists'.mp
    rw [ne_eq, argmax_eq_none]
    exact ne_nil_of_mem hmem
  obtain ⟨hal, hak⟩ := mem_filter.mp (argmax_mem ha)
  refine ⟨a, hal, of_decide_eq_true hak, ?_⟩
  by_contra hlt
  have hlt := not_le.mp hlt
  have hlo' : lo ≤ (range a).2 := (h.inside a hal).1.trans (h.nonempty a hal).le
  obtain ⟨b, hb, hbin⟩ := h.cover (range a).2 hlo' (hlt.trans_le hhi)
  have hbk : b ∈ l.filter fun a => decide ((range a).1 < k) :=
    mem_filter.mpr ⟨hb, decide_eq_true (hbin.1.trans_lt hlt)⟩
  have hle : (range b).2 ≤ (range a).2 :=
    @le_of_mem_argmax _ _ _ (fun a => (range a).2) _ _ _ hbk ha
  exact absurd hbin.2 (not_lt.mpr hle)

end

end Ranges

namespace SortedMap

variable {κ ν : Type*} [LinearOrder κ] {m : SortedMap κ ν} {k : κ} {v : ν} {e : κ × ν}

/-- `std::map::insert`: an entry with the same key stays. -/
def insert (m : SortedMap κ ν) (k : κ) (v : ν) : SortedMap κ ν :=
  if (m.find k).isSome then m else m.put k v

theorem mem_insert (h : ∀ e ∈ m.entries, e.1 ≠ k) :
    e ∈ (m.insert k v).entries ↔ e = (k, v) ∨ e ∈ m.entries := by
  rw [insert, find_eq_none_iff.mpr h]
  simp only [Option.isSome_none, Bool.false_eq_true, if_false, mem_put]
  constructor
  · rintro (rfl | ⟨-, he⟩)
    · exact .inl rfl
    · exact .inr he
  · rintro (rfl | he)
    · exact .inl rfl
    · exact .inr ⟨h e he, he⟩

theorem ext_mem {m' : SortedMap κ ν} (h : ∀ e, e ∈ m.entries ↔ e ∈ m'.entries) : m = m' := by
  have hirrefl : ∀ {l : List (κ × ν)}, l.Pairwise (fun a b => a.1 < b.1) → l.Nodup := by
    intro l hl
    refine hl.imp ?_
    rintro a b hlt rfl
    exact lt_irrefl _ hlt
  have hperm := (List.perm_ext_iff_of_nodup (hirrefl m.sorted) (hirrefl m'.sorted)).mpr h
  have hentries : m.entries = m'.entries := by
    refine hperm.eq_of_pairwise ?_ m.sorted m'.sorted
    intro a b _ _ hab hba
    exact absurd (hab.trans hba) (lt_irrefl _)
  obtain ⟨entries, sorted⟩ := m
  obtain rfl : entries = m'.entries := hentries
  rfl

/-- Without one of its ranges a map owns the other keys. -/
theorem owns_erase {m : SortedMap κ κ} {a b x : κ} (h : Ranges.Apart m.entries)
    (hab : (a, b) ∈ m.entries) : Ranges.Owns (m.erase a).entries x ↔
      Ranges.Owns m.entries x ∧ ¬ Ranges.InRange (a, b) x := by
  constructor
  · rintro ⟨e, he, hex⟩
    obtain ⟨hne, he⟩ := mem_erase.mp he
    refine ⟨⟨e, he, hex⟩, ?_⟩
    intro hx
    exact hne (h.start_eq he hab hex hx)
  · rintro ⟨⟨e, he, hex⟩, hx⟩
    refine ⟨e, mem_erase.mpr ⟨?_, he⟩, hex⟩
    intro hea
    obtain rfl : e = (a, b) := eq_of_key_eq m.sorted he hab hea
    exact hx hex

theorem length_erase (he : e ∈ m.entries) :
    (m.erase e.1).entries.length + 1 = m.entries.length := by
  obtain ⟨l, l', hl⟩ := List.append_of_mem he
  have hsorted := m.sorted
  rw [hl, List.pairwise_append, List.pairwise_cons] at hsorted
  obtain ⟨-, ⟨hafter, -⟩, hbefore⟩ := hsorted
  have hkeep : l.filter (fun f => decide (f.1 ≠ e.1)) = l := List.filter_eq_self.mpr fun f hf =>
    decide_eq_true (hbefore f hf e List.mem_cons_self).ne
  have hkeep' : l'.filter (fun f => decide (f.1 ≠ e.1)) = l' := List.filter_eq_self.mpr fun f hf =>
    decide_eq_true (hafter f hf).ne'
  change (m.entries.filter _).length + 1 = _
  rw [hl, List.filter_append, List.filter_cons_of_neg (by simp), hkeep, hkeep']
  simp [Nat.add_assoc]

theorem sorted_lt (m : SortedMap κ ν) (k : κ) :
    m.entries.Pairwise fun a b => decide (b.1 < k) = true → decide (a.1 < k) = true := by
  refine m.sorted.imp ?_
  intro a b hab hb
  exact decide_eq_true (hab.trans (of_decide_eq_true hb))

theorem sorted_le (m : SortedMap κ ν) (k : κ) :
    m.entries.Pairwise fun a b => decide (b.1 ≤ k) = true → decide (a.1 ≤ k) = true := by
  refine m.sorted.imp ?_
  intro a b hab hb
  exact decide_eq_true (hab.le.trans (of_decide_eq_true hb))

end SortedMap
