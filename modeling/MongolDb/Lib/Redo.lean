import Mathlib.Order.Basic

/-! Logs whose entries may be applied again. The entries are numbered; an entry is applied as a whole
or some of its writes are made. -/
namespace Redo

structure Log (D ι : Type*) where
  initial : D
  apply : Nat → D → D
  write : Nat → ι → D → D

namespace Log
variable {D ι : Type*} (L : Log D ι)

/-- Entries applied one after the other. -/
def replay (entries : List Nat) (d : D) : D := entries.foldl (fun d k => L.apply k d) d

/-- The first `n` entries applied to the initial data. -/
def seq (n : Nat) : D := L.replay (List.range n) L.initial

theorem seq_succ (n : Nat) : L.seq (n + 1) = L.apply n (L.seq n) := by
  rw [seq, replay, List.range_succ, List.foldl_append]
  rfl

/-- The data hold the first `p` entries, and of those behind them, up to the first `q`, some may have
been applied, as a whole or in part, once or more often. Applying the entry `p` again in its turn
takes the data one entry further. -/
inductive Dirty : Nat → Nat → D → Prop
  | clean (p : Nat) : Dirty p p (L.seq p)
  | write {p q k : Nat} {d : D} (h : Dirty p q d) (hp : p ≤ k) (hq : k < q) (i : ι) :
      Dirty p q (L.write k i d)
  | extend {p q q' : Nat} {d : D} (h : Dirty p q d) (hq : q ≤ q') : Dirty p q' d
  | back {p q : Nat} {d : D} (h : Dirty (p + 1) q d) : Dirty p q d
  | apply {p q : Nat} {d : D} (h : Dirty p q d) (hq : p < q) : Dirty (p + 1) q (L.apply p d)

/-- A stretch of the log that has been applied again, in order and to its end, leaves the data that
one application of each entry leaves. -/
def Restores : Prop := ∀ {p : Nat} {d : D}, L.Dirty p p d → d = L.seq p

variable {L} {p q : Nat} {d : D}

theorem Dirty.back_to {p' : Nat} (h : L.Dirty p q d) (hp : p' ≤ p) : L.Dirty p' q d := by
  obtain ⟨n, rfl⟩ := Nat.exists_eq_add_of_le hp
  induction n with
  | zero => exact h
  | succ n ih => exact ih h.back (Nat.le_add_right p' n)

theorem Dirty.replay {n : Nat} (h : L.Dirty p q d) (hq : p + n ≤ q) :
    L.Dirty (p + n) q (L.replay (List.range' p n) d) := by
  induction n generalizing p d with
  | zero => exact h
  | succ n ih =>
    have hnext := ih (h.apply (by omega)) (by omega)
    rwa [Nat.add_right_comm, Nat.add_assoc] at hnext

end Log

end Redo
