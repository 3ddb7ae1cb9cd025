import Mathlib.Data.List.Basic

/-! Memories changed by patches. A patch gives some places a new value, whatever they held, and
leaves the others, so what was patched may be patched again in the same order. -/
namespace Overwrite

abbrev Patch (α β : Type*) := α → Option β

variable {α β : Type*} {l l' done : List (Patch α β)} {m m' fin : α → β} {a : α}

def apply (m : α → β) (p : Patch α β) : α → β := fun a => (p a).getD (m a)

def replay (l : List (Patch α β)) (m : α → β) : α → β := l.foldl apply m

@[simp] theorem replay_cons (p : Patch α β) (l : List (Patch α β)) (m : α → β) :
    replay (p :: l) m = replay l (apply m p) := rfl

theorem replay_append (l l' : List (Patch α β)) (m : α → β) :
    replay (l ++ l') m = replay l' (replay l m) := List.foldl_append

def Untouched (l : List (Patch α β)) (a : α) : Prop := ∀ p ∈ l, p a = none

theorem replay_of_untouched (h : Untouched l a) (m : α → β) : replay l m a = m a := by
  induction l generalizing m with
  | nil => rfl
  | cons p l ih =>
    have hp : apply m p a = m a := by rw [apply, h p List.mem_cons_self, Option.getD_none]
    rw [replay_cons, ih (List.forall_mem_cons.mp h).2, hp]

/-- What a place holds after patches that touch it, or where the memories agreed, does not depend
on the memory they were applied to. -/
theorem replay_congr (h : ¬ Untouched l a ∨ m a = m' a) : replay l m a = replay l m' a := by
  induction l generalizing m m' with
  | nil =>
    rcases h with h | h
    · exact absurd (fun p hp => absurd hp List.not_mem_nil) h
    · exact h
  | cons p l ih =>
    rw [replay_cons, replay_cons]
    apply ih
    cases hp : p a with
    | some b => exact .inr (by simp only [apply, hp, Option.getD_some])
    | none =>
      rcases h with hnot | heq
      · refine .inl fun huntouched => hnot ?_
        intro q hq
        rcases List.mem_cons.mp hq with rfl | hq
        · exact hp
        · exact huntouched q hq
      · exact .inr (by simp only [apply, hp, Option.getD_none, heq])

/-- The memory is the final one apart from places that the patches touch. -/
def Repairs (l : List (Patch α β)) (m fin : α → β) : Prop := ∀ a, Untouched l a → m a = fin a

theorem Repairs.mono (h : Repairs l m fin) (hl : l ⊆ l') : Repairs l' m fin :=
  fun a ha => h a fun p hp => ha p (hl hp)

theorem Repairs.of_replay (h : replay l m = fin) : Repairs l m fin := by
  intro a ha
  rw [← h, replay_of_untouched ha]

/-- More patches behind those that the final memory comes from. -/
theorem Repairs.extend (h : Repairs l m fin) (more : List (Patch α β)) :
    Repairs (l ++ more) m (replay more fin) := by
  intro a ha
  rw [replay_of_untouched (fun p hp => ha p (List.mem_append_right l hp))]
  exact h a fun p hp => ha p (List.mem_append_left more hp)

/-- Patches again, from any place of the log up to which the memory needs none. -/
theorem Repairs.replay_eq (h : Repairs l' m fin) (hl : l' ⊆ l)
    (hfin : fin = replay (done ++ l) m') : replay l m = fin := by
  funext a
  by_cases ha : Untouched l a
  · rw [replay_of_untouched ha]
    exact (h.mono hl) a ha
  · rw [hfin, replay_append]
    exact replay_congr (.inl ha)

/-- Patches of which some give a place the same value, and the others leave it. -/
theorem replay_map_ite {ι : Type*} {f : ι → Patch α β} {P : ι → Prop} [DecidablePred P] {b : β}
    (h : ∀ i, f i a = if P i then some b else none) (is : List ι) (m : α → β) :
    replay (is.map f) m a = if ∃ i ∈ is, P i then b else m a := by
  induction is generalizing m with
  | nil => simp [replay]
  | cons i is ih =>
    rw [List.map_cons, replay_cons, ih]
    by_cases hi : P i <;> simp [apply, h, hi]

/-- A patch that changes nothing where it stands, as no earlier one touches its places. -/
theorem replay_insert {p : Patch α β} (h : ∀ a b, p a = some b → b = m a ∧ Untouched l a) :
    replay (l ++ p :: l') m = replay (l ++ l') m := by
  have hsame : apply (replay l m) p = replay l m := by
    funext a
    cases hp : p a with
    | none => rw [apply, hp, Option.getD_none]
    | some b =>
      obtain ⟨hb, hun⟩ := h a b hp
      rw [apply, hp, Option.getD_some, replay_of_untouched hun, hb]
  simp only [replay_append, replay_cons, hsame]

theorem replay_of_agree_off (h : ∀ a, Untouched l a → m a = m' a) : replay l m = replay l m' := by
  funext a
  apply replay_congr
  by_cases ha : Untouched l a
  · exact .inr (h a ha)
  · exact .inl ha

end Overwrite
