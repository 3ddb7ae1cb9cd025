import Mathlib.Data.Rat.Defs

/-! Choosing a plan by trial (`MultiPlanStage` in exec/multi_plan.cpp, `PlanRanker::pickBestPlan` in
query/plan_ranker.cpp). Statistics, the plan cache and the status members of failures are left out;
a yield changes nothing here, since nothing is invalidated or killed. -/
namespace MongolDb.Exec

/-- What a call to `work` returns; a result comes with its state. -/
inductive StageState (α : Type) where
  | advanced (result : α)
  | isEOF
  | needTime
  | needYield
  | failure
  deriving DecidableEq

inductive PlanStep (α : Type) where
  | result (r : α)
  | needTime
  | needYield
  deriving DecidableEq

inductive Ending where
  | eof
  | failure
  deriving DecidableEq

/-- The root of a candidate plan: what it does call by call, and how it ends. It stays in its end. -/
structure Plan (α : Type) where
  steps : List (PlanStep α)
  ending : Ending
  hasBlockingStage : Bool
  deriving DecidableEq

variable {α : Type}

def resultsOf : List (PlanStep α) → List α
  | [] => []
  | .result r :: steps => r :: resultsOf steps
  | .needTime :: steps | .needYield :: steps => resultsOf steps

namespace Plan

def results (p : Plan α) : List α := resultsOf p.steps

def work (p : Plan α) : StageState α × Plan α :=
  match p.steps with
  | .result r :: steps => (.advanced r, { p with steps })
  | .needTime :: steps => (.needTime, { p with steps })
  | .needYield :: steps => (.needYield, { p with steps })
  | [] =>
    match p.ending with
    | .eof => (.isEOF, p)
    | .failure => (.failure, p)

def isEOF (p : Plan α) : Bool := p.steps.isEmpty && p.ending = .eof

end Plan

/-- A candidate, with the results it has produced before the ranking. -/
structure CandidatePlan (α : Type) where
  root : Plan α
  results : List α
  failed : Bool
  deriving DecidableEq

/-- The stage; the winner and its backup are indexes into the candidates. -/
structure MultiPlanStage (α : Type) where
  candidates : List (CandidatePlan α)
  bestPlanIdx : Option Nat
  backupPlanIdx : Option Nat
  failure : Bool
  failureCount : Nat
  deriving DecidableEq

/-- The stage after `addPlan` for each of the plans. -/
def addPlans (plans : List (Plan α)) : MultiPlanStage α where
  candidates := plans.map fun p => ⟨p, [], false⟩
  bestPlanIdx := none
  backupPlanIdx := none
  failure := false
  failureCount := 0

structure TrialRound (α : Type) where
  candidates : List (CandidatePlan α)
  failureCount : Nat
  failure : Bool
  moreToDo : Bool

def TrialRound.cons (candidate : CandidatePlan α) (round : TrialRound α) : TrialRound α :=
  { round with candidates := candidate :: round.candidates }

/-- The loop of `workAllPlans` over the candidates; `total` is the number of all candidates. -/
def workAllPlans (numResults total : Nat) :
    List (CandidatePlan α) → Nat → Bool → TrialRound α
  | [], failureCount, doneWorking => ⟨[], failureCount, false, !doneWorking⟩
  | candidate :: rest, failureCount, doneWorking =>
    if candidate.failed then
      (workAllPlans numResults total rest failureCount doneWorking).cons candidate
    else
      let (state, root) := candidate.root.work
      let candidate := { candidate with root }
      match state with
      | .advanced id =>
        -- save the result for later
        let candidate := { candidate with results := candidate.results ++ [id] }
        let doneWorking := doneWorking || decide (numResults ≤ candidate.results.length)
        (workAllPlans numResults total rest failureCount doneWorking).cons candidate
      | .isEOF => (workAllPlans numResults total rest failureCount true).cons candidate
      | .needYield | .needTime =>
        (workAllPlans numResults total rest failureCount doneWorking).cons candidate
      | .failure =>
        let candidate := { candidate with failed := true }
        if failureCount + 1 = total then ⟨candidate :: rest, failureCount + 1, true, false⟩
        else (workAllPlans numResults total rest (failureCount + 1) doneWorking).cons candidate

/-- The loop of `pickBestPlan`, with `numWorks` rounds to go. -/
def trial (numResults : Nat) : Nat → MultiPlanStage α → MultiPlanStage α
  | 0, s => s
  | numWorks + 1, s =>
    let round := workAllPlans numResults s.candidates.length s.candidates s.failureCount false
    let s := { s with
      candidates := round.candidates
      failureCount := round.failureCount
      failure := round.failure }
    if round.moreToDo then trial numResults numWorks s else s

/-- `PlanRanker::pickBestPlan`: the first index after a stable sort by falling score. The scores of
the statistics are given; a plan at its end gets a bonus of one. -/
def PlanRanker.pickBestPlan (score : Nat → ℚ) (candidates : List (CandidatePlan α)) : Option Nat :=
  let scoresAndCandidateindices := candidates.zipIdx.map fun c =>
    (score c.2 + (if c.1.root.isEOF then 1 else 0), c.2)
  let sorted := scoresAndCandidateindices.mergeSort fun l r => decide (r.1 ≤ l.1)
  sorted.head?.map Prod.snd

/-- `pickBestPlan`; nothing if the stage has failed. -/
def pickBestPlan (numWorks numResults : Nat) (score : Nat → ℚ) (s : MultiPlanStage α) :
    Option (MultiPlanStage α) :=
  let s := trial numResults numWorks s
  if s.failure then none
  else do
    let bestPlanIdx ← PlanRanker.pickBestPlan score s.candidates
    let bestCandidate ← s.candidates[bestPlanIdx]?
    let backupPlanIdx :=
      if bestCandidate.root.hasBlockingStage && bestCandidate.results.isEmpty then
        s.candidates.findIdx? fun c => !c.root.hasBlockingStage
      else none
    return { s with bestPlanIdx := some bestPlanIdx, backupPlanIdx }

/-- `work`, once a plan has been chosen. -/
def MultiPlanStage.work (s : MultiPlanStage α) : Option (StageState α × MultiPlanStage α) :=
  if s.failure then some (.failure, s)
  else do
    let bestPlanIdx ← s.bestPlanIdx
    let bestPlan ← s.candidates[bestPlanIdx]?
    match bestPlan.results with
    | id :: results =>
      return (.advanced id,
        { s with candidates := s.candidates.set bestPlanIdx { bestPlan with results } })
    | [] =>
      let (state, root) := bestPlan.root.work
      let s := { s with candidates := s.candidates.set bestPlanIdx { bestPlan with root } }
      match state, s.backupPlanIdx with
      | .failure, some backupPlanIdx =>
        -- the best plan errored out, switch to the backup
        let backup ← s.candidates[backupPlanIdx]?
        let (state, root) := backup.root.work
        return (state, { s with
          bestPlanIdx := some backupPlanIdx
          backupPlanIdx := none
          candidates := s.candidates.set backupPlanIdx { backup with root } })
      | .advanced id, _ => return (.advanced id, { s with backupPlanIdx := none })
      | state, _ => return (state, s)

/-- The results of at most `n` calls to `work`, which stop at the end of the file or at a failure,
and whether they have come to one. -/
def drain : Nat → MultiPlanStage α → List α × Option Ending
  | 0, _ => ([], none)
  | n + 1, s =>
    match s.work with
    | none => ([], none)
    | some (.advanced r, s) => (r :: (drain n s).1, (drain n s).2)
    | some (.needTime, s) | some (.needYield, s) => drain n s
    | some (.isEOF, _) => ([], some .eof)
    | some (.failure, _) => ([], some .failure)

end MongolDb.Exec
