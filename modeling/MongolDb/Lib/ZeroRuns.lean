import Mathlib.Algebra.Group.Basic

/-! Run-length coding of zeros: a run is one token, every other letter is its own. -/
namespace ZeroRuns
variable {α : Type*} [Zero α]

inductive Token (α : Type*) where
  /-- A run of `n + 1` zeros. -/
  | zeros (n : Nat)
  | letter (a : α)

def Token.letters : Token α → List α
  | zeros n => List.replicate (n + 1) 0
  | letter a => [a]

def expand (tokens : List (Token α)) : List α := tokens.flatMap Token.letters

@[simp] theorem expand_nil : expand ([] : List (Token α)) = [] := rfl

@[simp] theorem expand_cons (t : Token α) (tokens : List (Token α)) :
    expand (t :: tokens) = t.letters ++ expand tokens := rfl

@[simp] theorem expand_append (tokens tokens' : List (Token α)) :
    expand (tokens ++ tokens') = expand tokens ++ expand tokens' := List.flatMap_append

/-- The tokens with the zeros that are due behind them. -/
def flush (zeros : Nat) (tokens : List (Token α)) : List (Token α) :=
  if 0 < zeros then tokens ++ [.zeros (zeros - 1)] else tokens

theorem expand_flush (zeros : Nat) (tokens : List (Token α)) :
    expand (flush zeros tokens) = expand tokens ++ List.replicate zeros 0 := by
  rw [flush]
  split
  next hpos => simp [Token.letters, Nat.sub_add_cancel hpos]
  next hpos =>
    obtain rfl : zeros = 0 := by omega
    simp

/-- Letters that are not zero, and runs of fewer than `bound` zeros. -/
def Token.Proper (bound : Nat) : Token α → Prop
  | zeros n => n < bound
  | letter a => a ≠ 0

theorem proper_flush {bound zeros : Nat} {tokens : List (Token α)} (h : ∀ t ∈ tokens, t.Proper bound)
    (hzeros : zeros ≤ bound) : ∀ t ∈ flush zeros tokens, t.Proper bound := by
  intro t ht
  rw [flush] at ht
  split at ht
  next hpos =>
    rcases List.mem_append.mp ht with ht | ht
    · exact h t ht
    · rw [List.mem_singleton.mp ht]
      exact Nat.lt_of_lt_of_le (Nat.sub_lt hpos Nat.one_pos) hzeros
  next => exact h t ht

end ZeroRuns
