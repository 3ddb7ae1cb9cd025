import Mathlib.Data.Finset.Card

/-! Votes in numbered terms: voters that vote at most once a term, and majorities, any two of
which share a voter. -/
namespace Ballots

variable {τ γ ν : Type*} [LinearOrder τ] {B : Set (τ × γ)} {last t : τ} {c c' : γ}

/-- The ballots of one voter: none of a term after `last`, and no two of one term. -/
structure OnePerTerm (B : Set (τ × γ)) (last : τ) : Prop where
  le_last : ∀ {t c}, (t, c) ∈ B → t ≤ last
  unique : ∀ {t c c'}, (t, c) ∈ B → (t, c') ∈ B → c = c'

theorem onePerTerm_empty : OnePerTerm (∅ : Set (τ × γ)) last :=
  ⟨fun h => h.elim, fun h => h.elim⟩

/-- A voter may always vote in a term after all its ballots. -/
theorem OnePerTerm.cast (h : OnePerTerm B last) (ht : last < t) :
    OnePerTerm (insert (t, c) B) t := by
  constructor
  · rintro u d (he | hb)
    · cases he
      exact le_rfl
    · exact (h.le_last hb).trans ht.le
  · rintro u d d' (he | hb) (he' | hb')
    · cases he
      cases he'
      rfl
    · cases he
      exact absurd (h.le_last hb') ht.not_ge
    · cases he'
      exact absurd (h.le_last hb) ht.not_ge
    · exact h.unique hb hb'

variable {voters : Finset ν} {ballots ballots' : ν → Set (τ × γ)}

/-- A majority of the voters has voted for `c` in term `t`. -/
def Elected (voters : Finset ν) (ballots : ν → Set (τ × γ)) (t : τ) (c : γ) : Prop :=
  ∃ Q ⊆ voters, voters.card / 2 + 1 ≤ Q.card ∧ ∀ v ∈ Q, (t, c) ∈ ballots v

omit [LinearOrder τ] in
theorem Elected.mono (h : Elected voters ballots t c) (hb : ∀ v, ballots v ⊆ ballots' v) :
    Elected voters ballots' t c := by
  obtain ⟨Q, hQ, hcard, hvote⟩ := h
  exact ⟨Q, hQ, hcard, fun v hv => hb v (hvote v hv)⟩

/-- Two majorities share a voter, who has voted for one candidate only. -/
theorem Elected.unique [DecidableEq ν] (h : Elected voters ballots t c)
    (h' : Elected voters ballots t c')
    (hone : ∀ v ∈ voters, ∃ last, OnePerTerm (ballots v) last) : c = c' := by
  obtain ⟨Q, hQ, hcard, hvote⟩ := h
  obtain ⟨Q', hQ', hcard', hvote'⟩ := h'
  obtain ⟨v, hv⟩ := Finset.inter_nonempty_of_card_lt_card_add_card hQ hQ' (by omega)
  obtain ⟨hv, hv'⟩ := Finset.mem_inter.mp hv
  obtain ⟨last, hlast⟩ := hone v (hQ hv)
  exact hlast.unique (hvote v hv) (hvote' v hv')

end Ballots
