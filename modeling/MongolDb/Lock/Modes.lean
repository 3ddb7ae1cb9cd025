import Mathlib.Algebra.Ring.Nat
import Mathlib.Data.Fintype.Basic

/-! The lock modes and the table of their conflicts. -/
namespace MongolDb.Lock

inductive LockMode where
  | modeNone
  | modeIS
  | modeIX
  | modeS
  | modeX
  deriving DecidableEq

open LockMode

instance : Fintype LockMode where
  elems := {modeNone, modeIS, modeIX, modeS, modeX}
  complete := by
    intro m
    cases m <;> simp

/-- A bit mask of modes, as the set of the modes whose bit is on. -/
abbrev ModeMask := Finset LockMode

def LockConflictsTable : LockMode → ModeMask
  | modeNone => ∅
  | modeIS => {modeX}
  | modeIX => {modeS, modeX}
  | modeS => {modeIX, modeX}
  | modeX => {modeS, modeX, modeIS, modeIX}

def intentModes : ModeMask := {modeIS, modeIX}

def conflicts (newMode : LockMode) (existingModesMask : ModeMask) : Prop :=
  LockConflictsTable newMode ∩ existingModesMask ≠ ∅

instance (newMode : LockMode) (mask : ModeMask) : Decidable (conflicts newMode mask) :=
  inferInstanceAs (Decidable (_ ≠ _))

/-- Two modes that two requests cannot hold at once. -/
def Conflict (m m' : LockMode) : Prop := m' ∈ LockConflictsTable m

instance (m m' : LockMode) : Decidable (Conflict m m') :=
  inferInstanceAs (Decidable (_ ∈ _))

/-- A holder of `held` needs nothing more to act in `newMode`: the test of `convert`'s fast
path and of `downgrade`. -/
def covers (held newMode : LockMode) : Prop :=
  LockConflictsTable held ∪ LockConflictsTable newMode = LockConflictsTable held

instance (held newMode : LockMode) : Decidable (covers held newMode) :=
  inferInstanceAs (Decidable (_ = _))

theorem conflicts_iff {m : LockMode} {mask : ModeMask} :
    conflicts m mask ↔ ∃ m' ∈ mask, Conflict m m' := by
  rw [conflicts, ← Finset.nonempty_iff_ne_empty]
  constructor
  · rintro ⟨m', hm'⟩
    rw [Finset.mem_inter] at hm'
    exact ⟨m', hm'.2, hm'.1⟩
  · rintro ⟨m', hm', hc⟩
    exact ⟨m', Finset.mem_inter.mpr ⟨hc, hm'⟩⟩

theorem Conflict.symm {m m' : LockMode} : Conflict m m' → Conflict m' m := by
  revert m m'
  decide

theorem conflict_comm {m m' : LockMode} : Conflict m m' ↔ Conflict m' m :=
  ⟨Conflict.symm, Conflict.symm⟩

/-- Whoever is in the way of a mode is in the way of every mode that covers it. -/
theorem Conflict.of_covers {m held newMode : LockMode} (h : Conflict m newMode)
    (hc : covers held newMode) : Conflict m held := by
  revert m held newMode
  decide

theorem not_conflict_intent {m m' : LockMode} (h : m ∈ intentModes) (h' : m' ∈ intentModes) :
    ¬ Conflict m m' := by
  revert m m'
  decide

theorem conflict_modeX {m : LockMode} (h : m ≠ modeNone) : Conflict m modeX := by
  revert m
  decide

theorem not_conflict_modeNone {m : LockMode} : ¬ Conflict m modeNone := by
  revert m
  decide

theorem ne_modeNone_of_intent {m : LockMode} (h : m ∈ intentModes) : m ≠ modeNone := by
  revert m
  decide

theorem mem_intentModes_of_covers {m m' : LockMode} (h : m ∈ intentModes) (hc : covers m m')
    (hm : m' ≠ modeNone) : m' ∈ intentModes := by
  revert m m'
  decide

end MongolDb.Lock
