import MongolDb.Exec.MultiPlan

/-! What the stage returns once a plan has been chosen, and what a trial leaves of the plans. -/
namespace MongolDb.Exec
open CandidatePlan List

variable {α : Type}

/-- Repeated calls to `work` return these results and come to this end. -/
def Drains (s : MultiPlanStage α) (rs : List α) (e : Ending) : Prop :=
  ∃ n, drain n s = (rs, some e)

section
variable {s s' : MultiPlanStage α} {rs rs' : List α} {e e' : Ending} {r : α} {n : Nat}

theorem Drains.advanced (h : Drains s' rs e) (hw : s.work = some (.advanced r, s')) :
    Drains s (r :: rs) e := by
  obtain ⟨n, hn⟩ := h
  exact ⟨n + 1, by rw [drain, hw]; simp only [hn]⟩

theorem Drains.waits {state : StageState α} (h : Drains s' rs e)
    (hstate : state = .needTime ∨ state = .needYield) (hw : s.work = some (state, s')) :
    Drains s rs e := by
  obtain ⟨n, hn⟩ := h
  refine ⟨n + 1, ?_⟩
  rw [drain, hw]
  rcases hstate with rfl | rfl
  · exact hn
  · exact hn

/-- Fewer calls return a prefix of the results, more calls the same. -/
theorem drain_of_drain (h : drain n s = (rs, some e)) (m : Nat) :
    (drain m s).1 <+: rs ∧ (n ≤ m → drain m s = (rs, some e)) := by
  induction n generalizing s rs m with
  | zero => cases h
  | succ n ih =>
    cases m with
    | zero => exact ⟨ nil_prefix, nofun⟩
    | succ m =>
      rw [drain] at h ⊢
      match hw : s.work, h with
      | some (.advanced r, s'), h =>
        simp only at h ⊢
        obtain ⟨rfl, he⟩ := Prod.mk.inj h
        obtain ⟨hpre, hmore⟩ := ih (Prod.ext rfl he : drain n s' = ((drain n s').1, some e)) m
        refine ⟨cons_prefix_cons.mpr ⟨rfl, hpre⟩, fun hle => ?_⟩
        rw [hmore (Nat.le_of_succ_le_succ hle)]
      | some (.needTime, s'), h | some (.needYield, s'), h =>
        exact ⟨(ih h m).1, fun hle => (ih h m).2 (Nat.le_of_succ_le_succ hle)⟩
      | some (.isEOF, s'), h | some (.failure, s'), h =>
        obtain ⟨rfl, -⟩ := Prod.mk.inj h
        exact ⟨prefix_rfl, fun _ => h⟩

theorem Drains.prefix_of (h : Drains s rs e) (m : Nat) : (drain m s).1 <+: rs := by
  obtain ⟨n, hn⟩ := h
  exact (drain_of_drain hn m).1

theorem Drains.eq_of_drain (h : Drains s rs e) (h' : drain n s = (rs', some e')) : rs' = rs := by
  obtain ⟨m, hm⟩ := h
  have hmax := (drain_of_drain hm (max m n)).2 (Nat.le_max_left _ _)
  rw [(drain_of_drain h' (max m n)).2 (Nat.le_max_right _ _)] at hmax
  exact (Prod.mk.inj hmax).1

end

/-- The stage is on the candidate `c` at place `i`, with this backup. -/
structure On (s : MultiPlanStage α) (i : Nat) (c : CandidatePlan α) (backup : Option Nat) :
    Prop where
  failure : s.failure = false
  best : s.bestPlanIdx = some i
  candidate : s.candidates[i]? = some c
  backup : s.backupPlanIdx = backup

section On
variable {s : MultiPlanStage α} {i j : Nat} {root : Plan α} {results : List α} {failed : Bool}
  {backup : Option Nat} {c d : CandidatePlan α}

theorem getElem?_set_self_of_some {l : List (CandidatePlan α)} (h : l[i]? = some c) :
    (l.set i d)[i]? = some d := by
  have hlt : i < l.length := (List.getElem?_eq_some_iff.mp h).1
  simp [hlt]

theorem On.work_saved {id : α} (h : On s i ⟨root, id :: results, failed⟩ backup) :
    ∃ s', s.work = some (.advanced id, s') ∧ On s' i ⟨root, results, failed⟩ backup := by
  refine ⟨{ s with candidates := s.candidates.set i ⟨root, results, failed⟩ }, ?_, ?_⟩
  · simp [MultiPlanStage.work, h.failure, h.best, h.candidate]
  · exact ⟨h.failure, h.best, getElem?_set_self_of_some h.candidate, h.backup⟩

section
variable {steps : List (PlanStep α)} {ending : Ending} {blocking : Bool}

theorem On.work_result {r : α} (h : On s i ⟨⟨.result r :: steps, ending, blocking⟩, [], failed⟩ backup) :
    ∃ s', s.work = some (.advanced r, s') ∧ On s' i ⟨⟨steps, ending, blocking⟩, [], failed⟩ none := by
  refine ⟨{ s with
    candidates := s.candidates.set i ⟨⟨steps, ending, blocking⟩, [], failed⟩
    backupPlanIdx := none }, ?_, ?_⟩
  · simp [MultiPlanStage.work, h.failure, h.best, h.candidate, Plan.work]
  · exact ⟨h.failure, h.best, getElem?_set_self_of_some h.candidate, rfl⟩

theorem On.work_waits {step : PlanStep α} (hstep : step = .needTime ∨ step = .needYield)
    (h : On s i ⟨⟨step :: steps, ending, blocking⟩, [], failed⟩ backup) :
    ∃ state s', (state = .needTime ∨ state = .needYield) ∧ s.work = some (state, s') ∧
      On s' i ⟨⟨steps, ending, blocking⟩, [], failed⟩ backup ∧
      ∀ k, k ≠ i → s'.candidates[k]? = s.candidates[k]? := by
  have hon : On { s with candidates := s.candidates.set i ⟨⟨steps, ending, blocking⟩, [], failed⟩ }
      i ⟨⟨steps, ending, blocking⟩, [], failed⟩ backup :=
    ⟨h.failure, h.best, getElem?_set_self_of_some h.candidate, h.backup⟩
  have hother : ∀ k, k ≠ i → (s.candidates.set i ⟨⟨steps, ending, blocking⟩, [], failed⟩)[k]? =
      s.candidates[k]? := fun k hk => getElem?_set_ne (Ne.symm hk)
  refine ⟨(Plan.work ⟨step :: steps, ending, blocking⟩).1, _, ?_, ?_, hon, hother⟩
  · exact hstep.imp (by rintro rfl; rfl) (by rintro rfl; rfl)
  · rcases hstep with rfl | rfl <;>
      simp [MultiPlanStage.work, h.failure, h.best, h.candidate, Plan.work]

theorem On.drains_eof (h : On s i ⟨⟨[], .eof, blocking⟩, [], failed⟩ backup) : Drains s [] .eof := by
  refine ⟨1, ?_⟩
  simp [drain, MultiPlanStage.work, h.failure, h.best, h.candidate, Plan.work]

/-- The switch to the backup plan works its root, whatever results are saved. -/
theorem On.work_switch (h : On s i ⟨⟨[], .failure, blocking⟩, [], failed⟩ (some j)) (hij : j ≠ i)
    (hd : s.candidates[j]? = some d) :
    ∃ s', s.work = some (d.root.work.1, s') ∧ On s' j { d with root := d.root.work.2 } none := by
  have hd' : (s.candidates.set i ⟨⟨[], .failure, blocking⟩, [], failed⟩)[j]? = some d := by
    rw [getElem?_set_ne (Ne.symm hij), hd]
  refine ⟨{ s with
    bestPlanIdx := some j
    backupPlanIdx := none
    candidates := (s.candidates.set i ⟨⟨[], .failure, blocking⟩, [], failed⟩).set j
      { d with root := d.root.work.2 } }, ?_, ?_⟩
  · simp [MultiPlanStage.work, h.failure, h.best, h.candidate, h.backup, Plan.work, hd']
  · exact ⟨h.failure, rfl, getElem?_set_self_of_some hd', rfl⟩

end

/-- Without a backup, the saved results of the chosen plan come first, then its others. -/
theorem On.drains (h : On s i c none) :
    Drains s (c.results ++ c.root.results) c.root.ending := by
  obtain ⟨⟨steps, ending, blocking⟩, results, failed⟩ := c
  induction results generalizing s with
  | cons id results ih =>
    obtain ⟨s', hw, h'⟩ := h.work_saved
    exact (ih h').advanced hw
  | nil =>
    rw [nil_append, Plan.results]
    induction steps generalizing s with
    | nil =>
      cases ending with
      | eof => exact h.drains_eof
      | failure =>
        refine ⟨1, ?_⟩
        simp [drain, MultiPlanStage.work, h.failure, h.best, h.candidate, h.backup, Plan.work,
          resultsOf]
    | cons step steps ih =>
      cases step with
      | result r =>
        obtain ⟨s', hw, h'⟩ := h.work_result
        exact (ih h').advanced hw
      | needTime | needYield =>
        obtain ⟨state, s', hstate, hw, h', -⟩ := h.work_waits (by simp)
        exact (ih h').waits hstate hw

/-- What the backup plan returns when the stage switches to it: its next result comes before the
saved ones, and at its end the saved ones are not returned at all. -/
def switchResults (d : CandidatePlan α) : List α :=
  match d.root.steps with
  | [] => []
  | .result r :: steps => r :: (d.results ++ resultsOf steps)
  | .needTime :: steps | .needYield :: steps => d.results ++ resultsOf steps

/-- The chosen plan fails before it has returned anything. -/
def CandidatePlan.failsFirst (c : CandidatePlan α) : Bool :=
  c.root.results.isEmpty && c.root.ending = .failure

theorem On.drains_switch {steps : List (PlanStep α)} {ending : Ending} {blocking : Bool}
    (h : On s i ⟨⟨steps, ending, blocking⟩, [], failed⟩ (some j)) (hij : j ≠ i)
    (hd : s.candidates[j]? = some d) :
    ∃ e, Drains s (if CandidatePlan.failsFirst ⟨⟨steps, ending, blocking⟩, [], failed⟩ then
      switchResults d else resultsOf steps) e := by
  induction steps generalizing s with
  | nil =>
    cases ending with
    | eof => exact ⟨.eof, h.drains_eof⟩
    | failure =>
      obtain ⟨s', hw, h'⟩ := h.work_switch hij hd
      obtain ⟨⟨dsteps, dending, dblocking⟩, dresults, dfailed⟩ := d
      cases dsteps with
      | nil =>
        refine ⟨dending, 1, ?_⟩
        rw [drain, hw]
        cases dending <;> rfl
      | cons step dsteps =>
        cases step with
        | result r => exact ⟨dending, h'.drains.advanced hw⟩
        | needTime | needYield => exact ⟨dending, h'.drains.waits (by simp [Plan.work]) hw⟩
  | cons step steps ih =>
    cases step with
    | result r =>
      obtain ⟨s', hw, h'⟩ := h.work_result
      exact ⟨ending, h'.drains.advanced hw⟩
    | needTime | needYield =>
      obtain ⟨state, s', hstate, hw, h', hother⟩ := h.work_waits (by simp)
      obtain ⟨e, he⟩ := ih h' ((hother j hij).trans hd)
      exact ⟨e, he.waits hstate hw⟩

end On

/-- The turn of a candidate in a round of the trial. -/
def CandidatePlan.tried (c : CandidatePlan α) : CandidatePlan α :=
  if c.failed then c
  else
    match c.root.work with
    | (.advanced id, root) => ⟨root, c.results ++ [id], false⟩
    | (.failure, root) => ⟨root, c.results, true⟩
    | (_, root) => ⟨root, c.results, false⟩

/-- The turn ends the trial: the plan is at the end of the file, or it fills the quota. -/
def CandidatePlan.turnEnds (numResults : Nat) (c : CandidatePlan α) : Bool :=
  !c.failed &&
    match c.root.work.1 with
    | .advanced _ => decide (numResults ≤ c.results.length + 1)
    | .isEOF => true
    | _ => false

section Round
variable {numResults total failureCount m f : Nat} {cs : List (CandidatePlan α)} {doneWorking : Bool}
  {c : CandidatePlan α}

/-- The turn of the first candidate, which counts if it fails. -/
theorem workAllPlans_cons (numResults total : Nat) (c : CandidatePlan α)
    (cs : List (CandidatePlan α)) (failureCount : Nat) (doneWorking : Bool) :
    (c.failed = false ∧ c.tried.failed = true ∧ failureCount + 1 = total ∧
      workAllPlans numResults total (c :: cs) failureCount doneWorking =
        ⟨c.tried :: cs, failureCount + 1, true, false⟩) ∨
    ∃ count, count + c.failed.toNat = failureCount + c.tried.failed.toNat ∧
      (c.failed = false → c.tried.failed = true → failureCount + 1 ≠ total) ∧
      workAllPlans numResults total (c :: cs) failureCount doneWorking =
        (workAllPlans numResults total cs count (doneWorking || c.turnEnds numResults)).cons
          c.tried := by
  obtain ⟨⟨steps, ending, blocking⟩, results, failed⟩ := c
  cases failed with
  | true => exact .inr ⟨failureCount, rfl, nofun, by simp [workAllPlans, turnEnds, tried]⟩
  | false =>
    cases steps with
    | nil =>
      cases ending with
      | eof => exact .inr ⟨failureCount, rfl, nofun, by simp [workAllPlans, Plan.work, turnEnds, tried]⟩
      | failure =>
        by_cases hall : failureCount + 1 = total
        · exact .inl ⟨rfl, rfl, hall, by simp [workAllPlans, Plan.work, tried, hall]⟩
        · refine .inr ⟨failureCount + 1, rfl, fun _ _ => hall, ?_⟩
          simp [workAllPlans, Plan.work, turnEnds, tried, hall]
    | cons step steps =>
      refine .inr ⟨failureCount, by cases step <;> rfl, by cases step <;> nofun, ?_⟩
      cases step <;> simp [workAllPlans, Plan.work, turnEnds, tried]

theorem tried_of_failed (h : c.failed = true) : c.tried = c := by
  rw [tried, if_pos h]

theorem countP_failed_cons : (c :: cs).countP CandidatePlan.failed =
    cs.countP CandidatePlan.failed + c.failed.toNat := by
  rw [countP_cons]
  cases c.failed <;> rfl

/-- What a round leaves, when `f` of `m` candidates before these have failed. -/
structure RoundSpec (numResults m f : Nat) (cs : List (CandidatePlan α)) (doneWorking : Bool)
    (round : TrialRound α) : Prop where
  candidates : round.candidates = cs.map CandidatePlan.tried
  failureCount : round.failureCount = f + (cs.map CandidatePlan.tried).countP CandidatePlan.failed
  /-- It fails with the last candidate to fail, before others that have no turn then. -/
  failure : round.failure = true ↔
    f = m ∧ (∀ c ∈ cs, c.tried.failed = true) ∧ ∃ c ∈ cs, c.failed = false
  moreToDo : round.moreToDo =
    (!round.failure && !(doneWorking || cs.any (CandidatePlan.turnEnds numResults)))

theorem workAllPlans_spec (htotal : total = m + cs.length)
    (hcount : failureCount = f + cs.countP CandidatePlan.failed) (hf : f ≤ m) :
    RoundSpec numResults m f cs doneWorking
      (workAllPlans numResults total cs failureCount doneWorking) := by
  induction cs generalizing failureCount m f doneWorking with
  | nil => exact ⟨rfl, hcount, by simp [workAllPlans], by simp [workAllPlans]⟩
  | cons c cs ih =>
    rw [length_cons] at htotal
    rw [countP_failed_cons] at hcount
    have hle : cs.countP failed ≤ cs.length := countP_le_length
    rcases workAllPlans_cons numResults total c cs failureCount doneWorking with
      ⟨hc, htried, hall, heq⟩ | ⟨count, hturn, hnot, heq⟩
    · rw [hc, Bool.toNat_false] at hcount
      have hrest : ∀ d ∈ cs, d.failed = true := countP_eq_length.mp (by omega)
      have hmap : cs.map tried = cs := by
        rw [map_congr_left fun d hd => tried_of_failed (hrest d hd), map_id']
      rw [heq]
      refine ⟨by rw [map_cons, hmap], ?_, iff_of_true rfl ⟨by omega, ?_, c, mem_cons_self, hc⟩, rfl⟩
      · rw [map_cons, hmap, countP_failed_cons, htried, Bool.toNat_true]
        dsimp only
        omega
      · exact forall_mem_cons.mpr ⟨htried, fun d hd => by rw [tried_of_failed (hrest d hd), hrest d hd]⟩
    · have hone := Bool.toNat_le c.tried.failed
      obtain ⟨h1, h2, h3, h4⟩ := @ih count (m + 1) (f + c.tried.failed.toNat)
        (doneWorking || c.turnEnds numResults) (by omega) (by omega) (by omega)
      rw [heq]
      refine ⟨congrArg _ h1, ?_, h3.trans ⟨?_, ?_⟩, ?_⟩
      · rw [map_cons, countP_failed_cons, TrialRound.cons, h2]
        omega
      · rintro ⟨hm, hrest, d, hd, hok⟩
        have htried : c.tried.failed = true := Bool.toNat_eq_one.mp (by omega)
        exact ⟨by omega, forall_mem_cons.mpr ⟨htried, hrest⟩, d, mem_cons_of_mem _ hd, hok⟩
      · rintro ⟨rfl, htried, hok⟩
        obtain ⟨hc, hrest⟩ := forall_mem_cons.mp htried
        rw [hc]
        refine ⟨rfl, hrest, ?_⟩
        by_contra hnone
        -- only the first candidate is left to fail, and the round has not stopped at it
        have hlast : cs.countP failed = cs.length := countP_eq_length.mpr fun d hd => by
          by_contra hd'
          exact hnone ⟨d, hd, by simpa using hd'⟩
        obtain ⟨d, hd, hok⟩ := hok
        rcases mem_cons.mp hd with rfl | hd
        · rw [hok, Bool.toNat_false] at hcount
          exact hnot hok hc (by omega)
        · exact hnone ⟨d, hd, hok⟩
      · rw [TrialRound.cons, h4, any_cons, Bool.or_assoc]

end Round

namespace Plan

/-- The results of the first `k` calls to `work`. -/
def saved (p : Plan α) (k : Nat) : List α := resultsOf (p.steps.take k)

/-- One of the first `k` calls fails. -/
def failedBy (p : Plan α) (k : Nat) : Bool := p.ending = .failure && decide (p.steps.length < k)

/-- One of the first `k` calls ends the trial: it comes to the end of the file, or it returns a
result that fills the quota. -/
def endsBy (numResults : Nat) (p : Plan α) (k : Nat) : Bool :=
  p.ending = .eof && decide (p.steps.length < k) || decide (max 1 numResults ≤ (p.saved k).length)

/-- The candidate of the plan after `k` rounds. -/
def after (k : Nat) (p : Plan α) : CandidatePlan α :=
  ⟨{ p with steps := p.steps.drop k }, p.saved k, p.failedBy k⟩

end Plan

section After
variable {numResults k : Nat} (p : Plan α)

theorem resultsOf_append (steps steps' : List (PlanStep α)) :
    resultsOf (steps ++ steps') = resultsOf steps ++ resultsOf steps' := by
  induction steps with
  | nil => rfl
  | cons step steps ih =>
    cases step with
    | result r => exact congrArg (r :: ·) ih
    | needTime | needYield => exact ih

theorem Plan.saved_succ : p.saved (k + 1) = p.saved k ++ resultsOf p.steps[k]?.toList := by
  rw [saved, take_add_one, resultsOf_append, saved]

theorem Plan.saved_append : p.saved k ++ resultsOf (p.steps.drop k) = p.results := by
  rw [saved, ← resultsOf_append, take_append_drop, results]

/-- A plan is past its steps after `k` calls, or it has one more. -/
theorem Plan.next_cases (k : Nat) :
    p.steps[k]? = none ∧ p.steps.length ≤ k ∧ p.steps.drop k = [] ∨
      ∃ step, p.steps[k]? = some step ∧ k < p.steps.length ∧
        p.steps.drop k = step :: p.steps.drop (k + 1) := by
  by_cases h : k < p.steps.length
  · exact .inr ⟨p.steps[k], getElem?_eq_getElem h, h, drop_eq_getElem_cons h⟩
  · have h := Nat.le_of_not_lt h
    exact .inl ⟨getElem?_eq_none_iff.mpr h, h, drop_eq_nil_iff.mpr h⟩

theorem tried_after : (p.after k).tried = p.after (k + 1) := by
  obtain ⟨steps, ending, blocking⟩ := p
  rcases Plan.next_cases ⟨steps, ending, blocking⟩ k with ⟨hnone, hle, hdrop⟩ | ⟨step, hstep, hlt, hdrop⟩
  · have hdrop' : steps.drop (k + 1) = [] := drop_eq_nil_iff.mpr (Nat.le_succ_of_le hle)
    simp only at hnone hle hdrop
    cases ending with
    | eof => simp [tried, Plan.after, Plan.saved_succ, Plan.failedBy, Plan.work, hnone, hdrop, hdrop', resultsOf]
    | failure =>
      by_cases hlt : steps.length < k <;>
        simp [tried, Plan.after, Plan.saved_succ, Plan.failedBy, Plan.work, hnone, hdrop, hdrop',
          resultsOf, hlt, Nat.lt_succ_of_le hle]
  · simp only at hstep hlt hdrop
    have hlt' : ¬ steps.length < k := by omega
    have hlt'' : ¬ steps.length < k + 1 := by omega
    cases step <;> simp [tried, Plan.after, Plan.saved_succ, Plan.failedBy, Plan.work, hstep, hdrop,
      resultsOf, hlt', hlt'']

theorem turnEnds_after (h : p.endsBy numResults k = false) :
    (p.after k).turnEnds numResults = p.endsBy numResults (k + 1) := by
  obtain ⟨steps, ending, blocking⟩ := p
  rcases Plan.next_cases ⟨steps, ending, blocking⟩ k with ⟨hnone, hle, hdrop⟩ | ⟨step, hstep, hlt, hdrop⟩
  · simp only at hnone hle hdrop
    cases ending with
    | eof =>
      simp [turnEnds, Plan.after, Plan.failedBy, Plan.endsBy, Plan.work, hdrop, Nat.lt_succ_of_le hle]
    | failure =>
      simp only [Plan.endsBy, reduceCtorEq, decide_false, Bool.false_and, Bool.false_or] at h ⊢
      rw [Plan.saved_succ, hnone, Option.toList_none, resultsOf, append_nil, h]
      simp [turnEnds, Plan.after, Plan.work, hdrop]
  · simp only at hstep hlt hdrop
    have hlt' : ¬ steps.length < k := by omega
    have hlt'' : ¬ steps.length < k + 1 := by omega
    simp only [Plan.endsBy, hlt', hlt'', decide_false, Bool.and_false, Bool.false_or,
      Plan.saved_succ, hstep, Option.toList_some] at h ⊢
    cases step with
    | result r =>
      simp only [turnEnds, Plan.after, Plan.failedBy, Plan.work, hdrop, hlt', decide_false,
        Bool.and_false, Bool.not_false, Bool.true_and, resultsOf, length_append, length_cons,
        length_nil, decide_eq_decide]
      omega
    | needTime | needYield =>
      rw [resultsOf, resultsOf, append_nil, h]
      simp [turnEnds, Plan.after, Plan.work, hdrop]

end After

/-- The trial ends with one of its first `k` rounds: a plan ends it, or all plans have failed. -/
def stopsBy (numResults : Nat) (plans : List (Plan α)) (k : Nat) : Bool :=
  plans.any (Plan.endsBy numResults · k) || !plans.isEmpty && plans.all (Plan.failedBy · k)

/-- The number of rounds of the trial. -/
def rounds (numWorks numResults : Nat) (plans : List (Plan α)) : Nat :=
  ((range' 1 numWorks).find? (stopsBy numResults plans)).getD numWorks

section Trial
variable {numResults numWorks k : Nat} {plans : List (Plan α)} {s : MultiPlanStage α}

/-- A round after `k` others. -/
theorem round_after (hstop : stopsBy numResults plans k = false) {round : TrialRound α}
    (h : RoundSpec numResults 0 0 (plans.map (Plan.after k)) false round) :
    round.candidates = plans.map (Plan.after (k + 1)) ∧
    round.failureCount = (plans.map (Plan.after (k + 1))).countP CandidatePlan.failed ∧
    (round.failure = true → ∀ p ∈ plans, p.failedBy (k + 1) = true) ∧
    round.moreToDo = !stopsBy numResults plans (k + 1) := by
  have hmap : (plans.map (Plan.after k)).map tried = plans.map (Plan.after (k + 1)) := by
    rw [map_map]
    exact map_congr_left fun p _ => tried_after p
  rw [stopsBy, Bool.or_eq_false_iff, any_eq_false] at hstop
  have hends : (plans.map (Plan.after k)).any (turnEnds numResults) =
      plans.any (Plan.endsBy numResults · (k + 1)) := by
    rw [any_map, Bool.eq_iff_iff, any_eq_true, any_eq_true]
    refine exists_congr fun p => and_congr_right fun hp => ?_
    rw [Function.comp_apply, turnEnds_after p (Bool.not_eq_true _ ▸ hstop.1 p hp)]
  have hfailure : round.failure = (!plans.isEmpty && plans.all (Plan.failedBy · (k + 1))) := by
    rw [Bool.eq_iff_iff, h.failure, Bool.and_eq_true, all_eq_true]
    have htried : (∀ c ∈ plans.map (Plan.after k), c.tried.failed = true) ↔
        ∀ p ∈ plans, p.failedBy (k + 1) = true := by
      rw [forall_mem_map]
      exact forall₂_congr fun p _ => by rw [tried_after]; rfl
    rw [htried, and_iff_right rfl, and_comm]
    refine and_congr_left fun _ => ⟨?_, fun hne => ?_⟩
    · rintro ⟨c, hc, -⟩
      obtain ⟨p, hp, -⟩ := mem_map.mp hc
      simp [ne_nil_of_mem hp]
    · have hnot := hstop.2
      rw [hne, Bool.true_and, all_eq_false] at hnot
      obtain ⟨p, hp, hok⟩ := hnot
      exact ⟨_, mem_map_of_mem hp, Bool.not_eq_true _ ▸ hok⟩
  refine ⟨h.candidates.trans hmap, ?_, ?_, ?_⟩
  · rw [h.failureCount, hmap, Nat.zero_add]
  · intro hf
    rw [hfailure, Bool.and_eq_true, all_eq_true] at hf
    exact hf.2
  · rw [h.moreToDo, hfailure, hends, Bool.false_or, stopsBy, Bool.not_or, Bool.and_comm]

/-- A trial gives each plan the same number of calls, and fails if all have failed. -/
theorem trial_spec (hc : s.candidates = plans.map (Plan.after k))
    (hcount : s.failureCount = s.candidates.countP CandidatePlan.failed)
    (hfailure : s.failure = true → ∀ p ∈ plans, p.failedBy k = true)
    (hstop : stopsBy numResults plans k = false) {r : Nat}
    (hr : ((range' (k + 1) numWorks).find? (stopsBy numResults plans)).getD (k + numWorks) = r) :
    (trial numResults numWorks s).candidates = plans.map (Plan.after r) ∧
      ((trial numResults numWorks s).failure = true → ∀ p ∈ plans, p.failedBy r = true) := by
  induction numWorks generalizing s k with
  | zero =>
    subst hr
    exact ⟨hc, hfailure⟩
  | succ numWorks ih =>
    have hround := @workAllPlans_spec α numResults s.candidates.length s.failureCount 0 0
      s.candidates false (by omega) (by omega) le_rfl
    rw [range'_succ, find?_cons] at hr
    simp only [trial]
    generalize workAllPlans numResults s.candidates.length s.candidates s.failureCount false = round
      at hround ⊢
    obtain ⟨h1, h2, h3, h4⟩ := round_after hstop (hc ▸ hround)
    cases hnext : stopsBy numResults plans (k + 1) with
    | false =>
      rw [h4, hnext, Bool.not_false, if_pos rfl]
      rw [hnext, show k + (numWorks + 1) = k + 1 + numWorks by omega] at hr
      exact ih h1 (h1 ▸ h2) h3 hnext hr
    | true =>
      rw [hnext] at hr
      rw [h4, hnext, Bool.not_true, if_neg Bool.false_ne_true]
      cases hr
      exact ⟨h1, h3⟩

/-- The candidates after the trial of these plans. -/
theorem trial_addPlans (numWorks numResults : Nat) (plans : List (Plan α)) :
    (trial numResults numWorks (addPlans plans)).candidates =
      plans.map (Plan.after (rounds numWorks numResults plans)) ∧
    ((trial numResults numWorks (addPlans plans)).failure = true →
      ∀ p ∈ plans, p.failedBy (rounds numWorks numResults plans) = true) := by
  have hstart : ∀ p : Plan α, p.after 0 = ⟨p, [], false⟩ := fun p => by
    simp [Plan.after, Plan.saved, Plan.failedBy, resultsOf]
  have hstop : stopsBy numResults plans 0 = false := by
    cases plans <;> simp [stopsBy, Plan.endsBy, Plan.failedBy, Plan.saved, resultsOf]
  refine trial_spec (k := 0) ?_ ?_ (by simp [addPlans]) hstop (by simp [rounds])
  · simp [addPlans, hstart]
  · simp [addPlans, countP_map, Function.comp_def]

end Trial

end MongolDb.Exec
