import Mathlib.Data.List.Forall2

/-! Postconditions of computations that may fail, where only some of the failures are blamed on the
code under study. -/
namespace Outcome

universe u

variable {ε : Type*} {α β : Type u} {blamed : ε → Prop} {Q R : α → Prop} {x : Except ε α}

/-- No blamed failure, and a result has `Q`. -/
def Holds (blamed : ε → Prop) (Q : α → Prop) : Except ε α → Prop
  | .ok a => Q a
  | .error err => ¬ blamed err

@[simp] theorem holds_ok {a : α} : Holds blamed Q (.ok a) ↔ Q a := Iff.rfl

@[simp] theorem holds_error {err : ε} : Holds blamed Q (.error err) ↔ ¬ blamed err := Iff.rfl

theorem Holds.mono (h : Holds blamed Q x) (hm : ∀ a, Q a → R a) : Holds blamed R x := by
  cases x with
  | ok a => exact hm a h
  | error err => exact h

/-- Less can be blamed. -/
theorem Holds.of_blamed {blamed' : ε → Prop} (h : Holds blamed Q x)
    (hb : ∀ err, blamed' err → blamed err) : Holds blamed' Q x := by
  cases x with
  | ok a => exact h
  | error err => exact fun herr => h (hb err herr)

theorem Holds.bind {f : α → Except ε β} {S : β → Prop} (h : Holds blamed Q x)
    (hf : ∀ a, Q a → Holds blamed S (f a)) : Holds blamed S (x >>= f) := by
  cases x with
  | ok a => exact hf a h
  | error err => exact h

theorem Holds.mapM {γ : Type*} {f : γ → Except ε β} {l : List γ}
    (h : ∀ a ∈ l, Holds blamed (fun _ => True) (f a)) :
    Holds blamed (fun r => r.length = l.length) (l.mapM f) := by
  induction l with
  | nil => rfl
  | cons a l ih =>
    rw [List.mapM_cons]
    refine (h a List.mem_cons_self).bind fun b _ => ?_
    refine (ih (List.forall_mem_cons.mp h).2).bind fun bs hbs => ?_
    exact congrArg Nat.succ hbs

theorem Holds.of_ok {a : α} (h : Holds blamed Q x) (hx : x = .ok a) : Q a := by
  rwa [hx] at h

theorem Holds.not_error {err : ε} (h : Holds blamed Q x) (hb : blamed err) : x ≠ .error err := by
  rintro rfl
  exact h hb

theorem bind_eq_ok {f : α → Except ε β} {b : β} :
    (x >>= f) = .ok b ↔ ∃ a, x = .ok a ∧ f a = .ok b := by
  cases x with
  | error e => exact ⟨nofun, nofun⟩
  | ok a =>
    constructor
    · exact fun h => ⟨a, rfl, h⟩
    · rintro ⟨a, ⟨⟩, h⟩
      exact h

theorem ok_bind {a : α} {f : α → Except ε β} : ((.ok a : Except ε α) >>= f) = f a := rfl

theorem map_eq_ok {f : α → β} {b : β} (h : x.map f = .ok b) : ∃ a, x = .ok a ∧ f a = b := by
  cases x with
  | error e => cases h
  | ok a => exact ⟨a, rfl, Except.ok.inj h⟩

theorem toOption_map_eq_some {f : α → β} {b : β} (h : x.toOption.map f = some b) :
    ∃ a, x = .ok a ∧ f a = b := by
  cases x with
  | error e => cases h
  | ok a => exact ⟨a, rfl, Option.some.inj h⟩

/-- A loop that does not fail has a result for each of its steps. -/
theorem forall₂_of_mapM_ok {γ : Type*} {f : γ → Except ε β} : ∀ {l : List γ} {ys : List β},
    l.mapM f = .ok ys → List.Forall₂ (fun a b => f a = .ok b) l ys
  | [], ys, h => by
    cases h
    exact .nil
  | a :: l, ys, h => by
    rw [List.mapM_cons] at h
    obtain ⟨b, ha, h⟩ := bind_eq_ok.mp h
    obtain ⟨bs, hl, h⟩ := bind_eq_ok.mp h
    cases h
    exact .cons ha (forall₂_of_mapM_ok hl)

theorem mapM_eq_ok {γ : Type*} {f : γ → Except ε β} {l : List γ} {ys : List β}
    (h : List.Forall₂ (fun a b => f a = .ok b) l ys) : l.mapM f = .ok ys := by
  induction h with
  | nil => rfl
  | cons ha _ ih =>
    rw [List.mapM_cons, ha]
    simp [bind, Except.bind, ih, pure, Except.pure]

/-- A result, and it has `Q`. -/
def Returns (Q : α → Prop) (x : Option α) : Prop := ∃ a, x = some a ∧ Q a

theorem returns_some {a : α} (h : Q a) : Returns Q (some a) := ⟨a, rfl, h⟩

theorem Returns.mono {x : Option α} (h : Returns Q x) (hm : ∀ a, Q a → R a) : Returns R x := by
  obtain ⟨a, hx, ha⟩ := h
  exact ⟨a, hx, hm a ha⟩

theorem Returns.bind {x : Option α} {f : α → Option β} {S : β → Prop} (h : Returns Q x)
    (hf : ∀ a, Q a → Returns S (f a)) : Returns S (x >>= f) := by
  obtain ⟨a, rfl, ha⟩ := h
  exact hf a ha

theorem Returns.map {x : Option α} {f : α → β} {S : β → Prop} (h : Returns Q x)
    (hf : ∀ a, Q a → S (f a)) : Returns S (x.map f) := by
  obtain ⟨a, rfl, ha⟩ := h
  exact ⟨f a, rfl, hf a ha⟩

end Outcome
