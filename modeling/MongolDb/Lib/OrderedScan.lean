import Mathlib.Data.Set.Basic

/-! Scanning in order through a set that changes between the moves of the scan. -/
namespace OrderedScan

variable {P : Type*}

/-- `p` comes first in `S`. -/
structure IsFirst (r : P → P → Prop) (S : Set P) (p : P) : Prop where
  mem : p ∈ S
  least : ∀ q ∈ S, q = p ∨ r p q

/-- A move over the candidates `S` returns the first one, or nothing if none is within bounds. -/
def Answers (r : P → P → Prop) (S within : Set P) : Option P → Prop
  | some p => IsFirst r S p ∧ p ∈ within
  | none => ∀ p ∈ S, p ∉ within

/-- A scan from `start` on: the points there now, those there ever since it began, the points it
has returned, and whether it has ended. Each move looks for the first point beyond the last. -/
inductive Scan (r : P → P → Prop) (start within : Set P) :
    Set P → Set P → List P → Bool → Prop where
  | seek {S : Set P} {a : Option P} (h : Answers r (S ∩ start) within a) :
      Scan r start within S S a.toList a.isNone
  | next {S K : Set P} {out : List P} {last : P} {a : Option P}
      (hs : Scan r start within S K out false) (hlast : out.getLast? = some last)
      (h : Answers r {p ∈ S | r last p} within a) :
      Scan r start within S K (out ++ a.toList) a.isNone
  | change {S K : Set P} {out : List P} {done : Bool} (S' : Set P)
      (hs : Scan r start within S K out done) : Scan r start within S' (K ∩ S') out done

namespace Scan
variable {r : P → P → Prop} {start within S K : Set P} {out : List P} {last p : P} {done : Bool}

section
variable (h : Scan r start within S K out done)
include h

theorem kept_subset : K ⊆ S := by
  induction h with
  | seek _ => exact subset_rfl
  | next _ _ _ ih => exact ih
  | change S' _ _ => exact Set.inter_subset_right

theorem within_of_mem : ∀ p ∈ out, p ∈ within := by
  induction h with
  | @seek S a ha =>
    cases a with
    | none => simp
    | some p => simpa using ha.2
  | @next S K out last a _ _ ha ih =>
    cases a with
    | none => simpa using ih
    | some p =>
      intro q hq
      rcases List.mem_append.mp hq with hq | hq
      · exact ih q hq
      · obtain rfl : q = p := by simpa using hq
        exact ha.2
  | change _ _ ih => exact ih

omit h in
theorem rel_last {l : List P} (hl : l.Pairwise r) (hlast : l.getLast? = some last) :
    ∀ q ∈ l, q = last ∨ r q last := by
  obtain ⟨l', rfl⟩ := List.getLast?_eq_some_iff.mp hlast
  intro q hq
  rcases List.mem_append.mp hq with hq | hq
  · exact .inr ((List.pairwise_append.mp hl).2.2 q hq last (by simp))
  · exact .inl (by simpa using hq)

/-- The points returned stand in order. -/
theorem pairwise [IsTrans P r] : out.Pairwise r := by
  induction h with
  | @seek S a _ => cases a <;> simp
  | @next S K out last a _ hlast ha ih =>
    cases a with
    | none => simpa using ih
    | some p =>
      refine List.pairwise_append.mpr ⟨ih, by simp, fun q hq q' hq' => ?_⟩
      obtain rfl : q' = p := by simpa using hq'
      have hlt : r last q' := ha.1.mem.2
      rcases rel_last ih hlast q hq with rfl | hql
      · exact hlt
      · exact trans_of r hql hlt
  | change _ _ ih => exact ih

/-- Every point in bounds that was there all the time has been returned, or is still ahead. -/
theorem complete (hp : p ∈ K) (hstart : p ∈ start) (hwithin : p ∈ within) :
    p ∈ out ∨ done = false ∧ ∀ last, out.getLast? = some last → r last p := by
  induction h with
  | @seek S a ha =>
    cases a with
    | none => exact absurd hwithin (ha p ⟨hp, hstart⟩)
    | some q =>
      rcases ha.1.least p ⟨hp, hstart⟩ with rfl | hlt
      · exact .inl (by simp)
      · exact .inr ⟨rfl, fun last hl => by cases hl; exact hlt⟩
  | @next S K out last a hs hlast ha ih =>
    rcases ih hp with hmem | ⟨-, hahead⟩
    · exact .inl (List.mem_append_left _ hmem)
    · have hcand : p ∈ {p ∈ S | r last p} := ⟨hs.kept_subset hp, hahead last hlast⟩
      cases a with
      | none => exact absurd hwithin (ha p hcand)
      | some q =>
        rcases ha.1.least p hcand with rfl | hlt
        · exact .inl (by simp)
        · refine .inr ⟨rfl, fun last' hl => ?_⟩
          obtain rfl : q = last' := by simpa using hl
          exact hlt
  | change S' _ ih => exact ih hp.1

end

end Scan

end OrderedScan
