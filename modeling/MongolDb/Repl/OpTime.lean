import Mathlib.Algebra.Ring.Nat
import Mathlib.Order.Basic

/-! Times of operations (db/repl/optime.h). A timestamp is its 64 bits, the seconds in the upper
half. -/
namespace MongolDb.Repl

structure OpTime where
  timestamp : Nat
  term : Int
  deriving DecidableEq

namespace OpTime

def kUninitializedTerm : Int := -1

def kInitialTerm : Int := 0

/-- What `OpTime()` makes. -/
def null : OpTime := ⟨0, kUninitializedTerm⟩

def isNull (t : OpTime) : Bool := t.timestamp / 2 ^ 32 = 0

/-- `operator<`: terms count only if both optimes have one. -/
def lt (a b : OpTime) : Bool :=
  if a.term = kUninitializedTerm ∨ b.term = kUninitializedTerm then
    decide (a.timestamp < b.timestamp)
  else decide (a.term < b.term ∨ a.term = b.term ∧ a.timestamp < b.timestamp)

def eq (a b : OpTime) : Bool :=
  if a.term = kUninitializedTerm ∨ b.term = kUninitializedTerm then
    decide (a.timestamp = b.timestamp)
  else decide (a.term = b.term ∧ a.timestamp = b.timestamp)

def gt (a b : OpTime) : Bool := !(a.lt b || a.eq b)

def max (a b : OpTime) : OpTime := if a.lt b then b else a

theorem isNull_null : null.isNull = true := by decide

variable {a b : OpTime}

theorem timestamp_eq_of_eq (h : a.eq b = true) : a.timestamp = b.timestamp := by
  rw [eq] at h
  split at h
  · exact of_decide_eq_true h
  · exact (of_decide_eq_true h).2

theorem lt_asymm (h : a.lt b = true) : b.lt a = false := by
  rw [lt] at h ⊢
  split at h
  next hold =>
    have hlt := of_decide_eq_true h
    rw [if_pos hold.symm, decide_eq_false_iff_not]
    omega
  next hold =>
    have hlt := of_decide_eq_true h
    rw [if_neg (mt Or.symm hold), decide_eq_false_iff_not]
    omega

end OpTime

end MongolDb.Repl
