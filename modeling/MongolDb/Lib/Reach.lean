import Mathlib.Order.Basic

/-! Transition systems given by a partial step function on actions, and what holds along
every run of one. -/
namespace Transition

variable {σ α : Type*} {step : α → σ → Option σ} {allowed : σ → α → Prop} {init s t : σ}

/-- The states that actions taken only where `allowed` lead to. -/
inductive Reach (step : α → σ → Option σ) (allowed : σ → α → Prop) (init : σ) : σ → Prop where
  | init : Reach step allowed init init
  | step {s t : σ} {a : α} (hs : Reach step allowed init s) (ha : allowed s a)
      (hst : step a s = some t) : Reach step allowed init t

/-- The state after a list of actions, if each can be taken. -/
def run (step : α → σ → Option σ) : List α → σ → Option σ
  | [], s => some s
  | a :: as, s => (step a s).bind (run step as)

/-- What holds initially and is kept by every allowed step holds in every reachable state. -/
theorem Reach.invariant {I : σ → Prop} (h : Reach step allowed init s) (hinit : I init)
    (hstep : ∀ {s t : σ} {a : α}, I s → allowed s a → step a s = some t → I t) : I s := by
  induction h with
  | init => exact hinit
  | step _ ha hst ih => exact hstep ih ha hst

theorem Reach.trans (h : Reach step allowed init s) (k : Reach step allowed s t) :
    Reach step allowed init t := by
  induction k with
  | init => exact h
  | step _ ha hst ih => exact .step ih ha hst

theorem Reach.mono {allowed' : σ → α → Prop} (h : Reach step allowed init s)
    (hm : ∀ s a, allowed s a → allowed' s a) : Reach step allowed' init s := by
  induction h with
  | init => exact .init
  | step _ ha hst ih => exact .step ih (hm _ _ ha) hst

theorem reach_of_run {as : List α} (hr : run step as s = some t)
    (ha : ∀ s, ∀ a ∈ as, allowed s a) : Reach step allowed s t := by
  induction as generalizing s with
  | nil =>
    cases hr
    exact .init
  | cons a as ih =>
    obtain ⟨u, hu, hr⟩ := Option.bind_eq_some_iff.mp hr
    have hone : Reach step allowed s u := .step .init (ha s a (by simp)) hu
    exact hone.trans (ih hr fun s b hb => ha s b (List.mem_cons_of_mem a hb))

/-- Steps where they are allowed. -/
def guarded (step : α → σ → Option σ) (ok : σ → α → Bool) (a : α) (s : σ) : Option σ :=
  if ok s a then step a s else none

theorem guarded_eq_some {ok : σ → α → Bool} {a : α} :
    guarded step ok a s = some t ↔ ok s a = true ∧ step a s = some t := by
  unfold guarded
  split
  · next h => simp [h]
  · next h => simp [h]

theorem reach_of_guarded_run {ok : σ → α → Bool} {as : List α}
    (hr : run (guarded step ok) as s = some t) : Reach step (fun s a => ok s a = true) s t := by
  induction as generalizing s with
  | nil =>
    cases hr
    exact .init
  | cons a as ih =>
    obtain ⟨u, hu, hr⟩ := Option.bind_eq_some_iff.mp hr
    obtain ⟨ha, hu⟩ := guarded_eq_some.mp hu
    exact Reach.trans (.step .init ha hu) (ih hr)

end Transition
