import Mathlib.Algebra.Order.Ring.Rat
import MongolDb.Exec.PlanRuns

/-! The trial of the candidate plans and the results that follow it. -/
namespace MongolDb.Exec
open List Bool

variable {α β : Type}

/-- Unless every candidate has failed in the trial, repeated calls to `work` return a prefix of the
results of one candidate that has not, and all of them unless this candidate fails. -/
def KeepsResults (numWorks numResults : Nat) (score : Nat → ℚ) (plans : List (Plan α)) : Prop :=
  (∃ c ∈ (trial numResults numWorks (addPlans plans)).candidates, c.failed = false) →
  ∃ s, pickBestPlan numWorks numResults score (addPlans plans) = some s ∧
  ∃ (i : Nat) (p : Plan α) (c : CandidatePlan α), plans[i]? = some p ∧
    (trial numResults numWorks (addPlans plans)).candidates[i]? = some c ∧ c.failed = false ∧
    (∀ n, (drain n s).1 <+: p.results) ∧
    ∃ n e, (drain n s).2 = some e ∧ ((drain n s).1 = p.results ∨ p.ending = .failure)

/-- Some plan that has not failed in the trial has no results at all, or fails later: returning
nothing is a prefix of its results. -/
def excused (r : Nat) (plans : List (Plan α)) : Bool :=
  plans.any fun p => !p.failedBy r && (p.results.isEmpty || p.ending = .failure)

/-- What the plan at place `i` is ranked by after `r` rounds. -/
def rankScore (score : Nat → ℚ) (r i : Nat) (p : Plan α) : ℚ :=
  score i + if p.steps.length ≤ r ∧ p.ending = .eof then 1 else 0

/-- The plan at place `i` is the first one of those with the highest score. -/
def Wins (score : Nat → ℚ) (r : Nat) (plans : List (Plan α)) (i : Nat) (best : Plan α) : Prop :=
  plans[i]? = some best ∧ ∀ j p, plans[j]? = some p →
    rankScore score r j p ≤ rankScore score r i best ∧
      (j < i → rankScore score r j p < rankScore score r i best)

/-- A winner that blocks and has no results yet is backed by the first plan that does not block. -/
def backupFor (r : Nat) (plans : List (Plan α)) (best : Plan α) : Option (Plan α) :=
  if best.hasBlockingStage && (best.saved r).isEmpty then plans.find? (!·.hasBlockingStage) else none

/-- The results of the winner, or of the backup in its place, are to be those of one plan. Without a
backup, the winner must not fail in the trial. If it fails without a result and the stage switches to
the backup, the backup must not go on with a result while it has others saved. -/
def undisturbed (r : Nat) (plans : List (Plan α)) (best : Plan α) : Bool :=
  match backupFor r plans best with
  | none => !best.failedBy r || (best.results.isEmpty && excused r plans)
  | some backup =>
    if best.results.isEmpty && best.ending = .failure then
      match backup.steps[r]? with
      | none => excused r plans
      | some (.result _) => (backup.saved r).isEmpty
      | some _ => true
    else true

/-- The condition on the plans: all fail in the trial, or the winner is undisturbed. -/
def TrialUndisturbed (numWorks numResults : Nat) (score : Nat → ℚ) (plans : List (Plan α)) : Prop :=
  let r := rounds numWorks numResults plans
  (∀ p ∈ plans, p.failedBy r = true) ∨
    ∃ i best, Wins score r plans i best ∧ undisturbed r plans best = true

/-! The stage after the choice. -/

section
variable {numWorks numResults r i : Nat} {score : Nat → ℚ} {plans : List (Plan α)}
  {s : MultiPlanStage α} {best : Plan α}

theorem Wins.unique {i' : Nat} {best' : Plan α} (h : Wins score r plans i best)
    (h' : Wins score r plans i' best') : best = best' := by
  have hi : i = i' := by
    rcases Nat.lt_trichotomy i i' with hlt | heq | hlt
    · exact absurd ((h'.2 i best h.1).2 hlt) (h.2 i' best' h'.1).1.not_gt
    · exact heq
    · exact absurd ((h.2 i' best' h'.1).2 hlt) (h'.2 i best h.1).1.not_gt
  subst hi
  exact Option.some.inj (h.1.symm.trans h'.1)

/-- In a list without repetitions, the first entry of a stable sort by falling score has the highest
score, and is the first of those that have. -/
theorem head_mergeSort {l rest : List (ℚ × Nat)} {x : ℚ × Nat} (hnodup : l.Nodup)
    (h : l.mergeSort (fun a b => decide (b.1 ≤ a.1)) = x :: rest) :
    x ∈ l ∧ ∀ y, (y ∈ l → y.1 ≤ x.1) ∧ ([y, x] <+ l → y.1 < x.1) := by
  have htrans : ∀ a b c : ℚ × Nat, decide (b.1 ≤ a.1) = true → decide (c.1 ≤ b.1) = true →
      decide (c.1 ≤ a.1) = true := fun a b c hab hbc =>
    decide_eq_true ((of_decide_eq_true hbc).trans (of_decide_eq_true hab))
  have htotal : ∀ a b : ℚ × Nat, (decide (b.1 ≤ a.1) || decide (a.1 ≤ b.1)) = true := fun a b => by
    simpa using le_total b.1 a.1
  have hperm := mergeSort_perm l fun a b => decide (b.1 ≤ a.1)
  have hsorted := pairwise_mergeSort htrans htotal l
  rw [h] at hperm hsorted
  refine ⟨hperm.mem_iff.mp mem_cons_self, fun y => ⟨fun hy => ?_, fun hsub => ?_⟩⟩
  · rcases mem_cons.mp (hperm.mem_iff.mpr hy) with rfl | hy
    · exact le_rfl
    · exact of_decide_eq_true (rel_of_pairwise_cons hsorted hy)
  · by_contra hge
    -- otherwise the sort keeps `y` before `x`
    have hkept := pair_sublist_mergeSort htrans htotal (decide_eq_true (not_lt.mp hge)) hsub
    have hnot : x ∉ rest := (nodup_cons.mp (hperm.nodup_iff.mpr hnodup)).1
    rw [h] at hkept
    cases hkept with
    | cons _ hrest => exact hnot (hrest.subset (by simp))
    | cons_cons _ hrest => exact hnot (hrest.subset (by simp))

theorem pair_sublist {γ : Type} {l : List γ} {i j : Nat} {x y : γ} (hj : l[j]? = some y)
    (hi : l[i]? = some x) (hlt : j < i) : [y, x] <+ l := by
  have hy : y ∈ l.take i := mem_of_getElem? (by rwa [getElem?_take_of_lt hlt])
  have hx : x ∈ l.drop i := mem_of_getElem? (i := 0) (by rwa [getElem?_drop])
  have happend := (singleton_sublist.mpr hy).append (singleton_sublist.mpr hx)
  rwa [take_append_drop] at happend

/-- The ranking picks the winner. -/
theorem rank_spec (h : plans ≠ []) : ∃ i best, Wins score r plans i best ∧
    PlanRanker.pickBestPlan score (plans.map (Plan.after r)) = some i := by
  have hscored : ((plans.map (Plan.after r)).zipIdx.map fun c : CandidatePlan α × Nat =>
      (score c.2 + (if c.1.root.isEOF then 1 else 0), c.2)) =
      plans.zipIdx.map fun p => (rankScore score r p.2 p.1, p.2) := by
    rw [zipIdx_map, map_map]
    refine map_congr_left fun p _ => ?_
    simp [rankScore, Plan.after, Plan.isEOF]
  simp only [PlanRanker.pickBestPlan, hscored]
  generalize hl : plans.zipIdx.map (fun p => (rankScore score r p.2 p.1, p.2)) = l
  have hget : ∀ j, l[j]? = plans[j]?.map fun p => (rankScore score r j p, j) := by
    intro j
    simp [← hl, getElem?_zipIdx, Function.comp_def]
  have hnodup : l.Nodup := by
    have hsnd : (l.map Prod.snd).Nodup → l.Nodup :=
      Pairwise.of_map _ fun _ _ hne heq => hne (congrArg _ heq)
    apply hsnd
    rw [← hl, map_map, show Prod.snd ∘ (fun p : Plan α × Nat => (rankScore score r p.2 p.1, p.2)) =
      Prod.snd from rfl, zipIdx_map_snd]
    exact nodup_range' 1
  cases hsorted : l.mergeSort fun a b => decide (b.1 ≤ a.1) with
  | nil =>
    have hperm := mergeSort_perm l fun a b => decide (b.1 ≤ a.1)
    rw [hsorted] at hperm
    exact absurd (hl.trans hperm.nil_eq.symm) (by simpa using h)
  | cons x rest =>
    obtain ⟨hx, hbest⟩ := head_mergeSort hnodup hsorted
    obtain ⟨i, hi⟩ := mem_iff_getElem?.mp hx
    have hi' := hi
    rw [hget] at hi'
    obtain ⟨best, hp, rfl⟩ := Option.map_eq_some_iff.mp hi'
    refine ⟨i, best, ⟨hp, fun j p hj => ?_⟩, rfl⟩
    have hj : l[j]? = some (rankScore score r j p, j) := by rw [hget, hj, Option.map_some]
    have hfirst := hbest (rankScore score r j p, j)
    exact ⟨hfirst.1 (mem_of_getElem? hj), fun hlt => hfirst.2 (pair_sublist hj hi hlt)⟩

/-- What the stage returns when `best` is chosen. -/
def returnedResults (r : Nat) (plans : List (Plan α)) (best : Plan α) : List α :=
  match backupFor r plans best with
  | none => best.results
  | some backup =>
    if best.results.isEmpty && best.ending = .failure then switchResults (backup.after r)
    else best.results

/-- The stage on the winner of a trial of `r` rounds returns its results, or those of the backup. -/
theorem drains_of_on (hcands : s.candidates = plans.map (Plan.after r)) (hbest : plans[i]? = some best)
    (hon : On s i (best.after r) (if best.hasBlockingStage && (best.saved r).isEmpty then
      plans.findIdx? (!·.hasBlockingStage) else none)) :
    ∃ e, Drains s (returnedResults r plans best) e := by
  have hresults : (best.after r).results ++ (best.after r).root.results = best.results :=
    best.saved_append
  rw [returnedResults, backupFor]
  by_cases hback : (best.hasBlockingStage && (best.saved r).isEmpty) = true
  swap
  · rw [if_neg hback] at hon ⊢
    exact ⟨_, hresults ▸ hon.drains⟩
  rw [if_pos hback, find?_eq_bind_findIdx?_getElem?]
  rw [if_pos hback] at hon
  cases hfind : plans.findIdx? (!·.hasBlockingStage) with
  | none =>
    rw [hfind] at hon
    exact ⟨_, hresults ▸ hon.drains⟩
  | some j =>
    obtain ⟨hj, hfree, -⟩ := findIdx?_eq_some_iff_getElem.mp hfind
    obtain ⟨hblock, hsaved⟩ := and_eq_true_iff.mp hback
    have hsaved : best.saved r = [] := List.isEmpty_iff.mp hsaved
    have hroot : resultsOf (best.steps.drop r) = best.results := by
      rw [← best.saved_append, hsaved, nil_append]
    have hij : j ≠ i := by
      rintro rfl
      rw [getElem?_eq_getElem hj] at hbest
      rw [Option.some.inj hbest, hblock] at hfree
      cases hfree
    have hd : s.candidates[j]? = some (plans[j].after r) := by
      rw [hcands, getElem?_map, getElem?_eq_getElem hj, Option.map_some]
    rw [hfind, Plan.after, hsaved] at hon
    obtain ⟨e, he⟩ := hon.drains_switch hij hd
    rw [CandidatePlan.failsFirst, Plan.results, hroot] at he
    rw [Option.bind_some, getElem?_eq_getElem hj]
    exact ⟨e, he⟩

/-- If not all candidates have failed, a plan is chosen. -/
theorem exists_chosen (h : ∃ p ∈ plans, p.failedBy (rounds numWorks numResults plans) = false) :
    ∃ s i best e, pickBestPlan numWorks numResults score (addPlans plans) = some s ∧
      Wins score (rounds numWorks numResults plans) plans i best ∧
      Drains s (returnedResults (rounds numWorks numResults plans) plans best) e := by
  obtain ⟨p, hp, hok⟩ := h
  obtain ⟨hcands, hfailure⟩ := trial_addPlans numWorks numResults plans
  generalize rounds numWorks numResults plans = r at hcands hfailure hok ⊢
  obtain ⟨i, best, hwins, hrank⟩ := @rank_spec _ r score _ (ne_nil_of_mem hp)
  have hfailure : (trial numResults numWorks (addPlans plans)).failure = false := by
    by_contra hfail
    rw [hfailure (not_eq_false _ ▸ hfail) p hp] at hok
    cases hok
  have hbest : (plans.map (Plan.after r))[i]? = some (best.after r) := by
    rw [getElem?_map, hwins.1, Option.map_some]
  have hpick : pickBestPlan numWorks numResults score (addPlans plans) = some
      { trial numResults numWorks (addPlans plans) with
        bestPlanIdx := some i
        backupPlanIdx := if best.hasBlockingStage && (best.saved r).isEmpty then
          plans.findIdx? (!·.hasBlockingStage) else none } := by
    simp only [pickBestPlan, hfailure, hcands, hrank, Option.bind_eq_bind, Option.bind_some, hbest,
      findIdx?_map, false_eq_true, if_false]
    rfl
  obtain ⟨e, he⟩ := drains_of_on (s := { trial numResults numWorks (addPlans plans) with
    bestPlanIdx := some i
    backupPlanIdx := _ }) hcands hwins.1 ⟨hfailure, rfl, hcands ▸ hbest, rfl⟩
  exact ⟨_, i, best, e, hpick, hwins, he⟩

end

/-! The results of the chosen plan against those of the candidates. -/

/-- The results are those of a plan that has not failed in `r` rounds, or some of the first ones of
a plan that fails later. -/
def Returned (r : Nat) (plans : List (Plan α)) (rs : List α) : Prop :=
  ∃ p ∈ plans, p.failedBy r = false ∧ rs <+: p.results ∧ (rs = p.results ∨ p.ending = .failure)

section Returned
variable {numWorks numResults r : Nat} {score : Nat → ℚ} {plans : List (Plan α)}
  {s : MultiPlanStage α} {rs : List α} {e : Ending} {best backup : Plan α}

theorem exists_ok_iff (hcands : (trial numResults numWorks (addPlans plans)).candidates =
      plans.map (Plan.after r)) :
    (∃ c ∈ (trial numResults numWorks (addPlans plans)).candidates, c.failed = false) ↔
      ∃ p ∈ plans, p.failedBy r = false := by
  rw [hcands]
  simp [Plan.after]

theorem keepsResults_iff_returned
    (hcands : (trial numResults numWorks (addPlans plans)).candidates = plans.map (Plan.after r))
    (hpick : pickBestPlan numWorks numResults score (addPlans plans) = some s)
    (hdrains : Drains s rs e) (hsome : ∃ p ∈ plans, p.failedBy r = false) :
    KeepsResults numWorks numResults score plans ↔ Returned r plans rs := by
  rw [KeepsResults, exists_ok_iff hcands, hcands]
  constructor
  · intro h
    obtain ⟨s', hs', i, p, c, hp, hc, hok, hprefix, n, e', he', hall⟩ := h hsome
    obtain rfl : s = s' := Option.some.inj (hpick.symm.trans hs')
    rw [getElem?_map, hp, Option.map_some] at hc
    cases hc
    have hrs : (drain n s).1 = rs := hdrains.eq_of_drain (Prod.ext rfl he')
    rw [hrs] at hall
    exact ⟨p, mem_of_getElem? hp, hok, hrs ▸ hprefix n, hall⟩
  · rintro ⟨p, hmem, hok, hprefix, hall⟩ -
    obtain ⟨i, hp⟩ := mem_iff_getElem?.mp hmem
    obtain ⟨n, hn⟩ := id hdrains
    refine ⟨s, hpick, i, p, p.after r, hp, by rw [getElem?_map, hp, Option.map_some], hok,
      fun m => ?_, n, e, by rw [hn], by rwa [hn]⟩
    exact (hdrains.prefix_of m).trans hprefix

/-- Returning nothing is allowed where some plan excuses it. -/
theorem returned_nil_iff : Returned r plans [] ↔ excused r plans = true := by
  simp [Returned, excused, @eq_comm _ []]

/-- A plan that has failed has saved all its results. -/
theorem saved_of_failedBy (h : best.failedBy r = true) :
    best.ending = .failure ∧ best.saved r = best.results := by
  simp only [Plan.failedBy, and_eq_true, decide_eq_true_eq] at h
  rw [Plan.saved, take_of_length_le h.2.le, Plan.results]
  exact ⟨h.1, rfl⟩

theorem failedBy_of_next {step : PlanStep α} (h : backup.steps[r]? = some step) :
    backup.failedBy r = false := by
  have hlt := (List.getElem?_eq_some_iff.mp h).1
  simp [Plan.failedBy, hlt.le]

theorem saved_of_backupFor (h : backupFor r plans best = some backup) :
    best.saved r = [] ∧ backup ∈ plans := by
  rw [backupFor] at h
  split at h
  · next hback =>
    exact ⟨List.isEmpty_iff.mp (and_eq_true_iff.mp hback).2, mem_of_find?_eq_some h⟩
  · cases h

/-- Undisturbed, the stage returns the results of one plan. -/
theorem returned_of_undisturbed (hbest : best ∈ plans) (hu : undisturbed r plans best = true) :
    Returned r plans (returnedResults r plans best) := by
  have hown : best.failedBy r = false → Returned r plans best.results := fun hok =>
    ⟨best, hbest, hok, prefix_rfl, .inl rfl⟩
  rw [undisturbed] at hu
  rw [returnedResults]
  cases hb : backupFor r plans best with
  | none =>
    simp only [hb] at hu ⊢
    cases hfailed : best.failedBy r with
    | false => exact hown hfailed
    | true =>
      rw [hfailed, Bool.not_true, Bool.false_or, and_eq_true] at hu
      rw [List.isEmpty_iff.mp hu.1]
      exact returned_nil_iff.mpr hu.2
  | some backup =>
    simp only [hb] at hu ⊢
    obtain ⟨hsaved, hmem⟩ := saved_of_backupFor hb
    split at hu
    · next hfirst =>
      rw [if_pos hfirst]
      rcases backup.next_cases r with ⟨hnext, -, hdrop⟩ | ⟨step, hnext, -, hdrop⟩
      · simp only [hnext] at hu
        simpa [switchResults, Plan.after, hdrop] using returned_nil_iff.mpr hu
      · have hresults := backup.saved_append (k := r)
        rw [hdrop] at hresults
        refine ⟨backup, hmem, failedBy_of_next hnext, ?_⟩
        suffices hswitch : switchResults (backup.after r) = backup.results from
          hswitch ▸ ⟨prefix_rfl, .inl rfl⟩
        simp only [switchResults, Plan.after, hdrop]
        cases step with
        | result x =>
          simp only [hnext, List.isEmpty_iff] at hu
          rw [hu] at hresults ⊢
          exact hresults
        | needTime | needYield => exact hresults
    · next hfirst =>
      rw [if_neg hfirst]
      refine hown (eq_false_of_not_eq_true fun hfailed => hfirst ?_)
      obtain ⟨hending, hall⟩ := saved_of_failedBy hfailed
      simp [hending, ← hall, hsaved]

/-- If the results tell their plan and their number, the stage returns the results of one plan only
undisturbed. -/
theorem undisturbed_of_returned {plans : List (Plan (Nat × Nat))} {best : Plan (Nat × Nat)}
    (hlabel : ∀ (i : Nat) (p : Plan (Nat × Nat)), plans[i]? = some p →
      ∀ (k : Nat) (x : Nat × Nat), p.results[k]? = some x → x = (i, k))
    (hbest : best ∈ plans) (hr : Returned r plans (returnedResults r plans best)) :
    undisturbed r plans best = true := by
  obtain ⟨p', hp', hok', hprefix, -⟩ := id hr
  obtain ⟨i', hi'⟩ := mem_iff_getElem?.mp hp'
  have hhead : ∀ x rest, returnedResults r plans best = x :: rest → x = (i', 0) := by
    intro x rest hx
    obtain ⟨more, hmore⟩ := hprefix
    exact hlabel i' p' hi' 0 x (by rw [← hmore, hx]; rfl)
  rw [returnedResults] at hr hhead
  rw [undisturbed]
  cases hb : backupFor r plans best with
  | none =>
    simp only [hb] at hr hhead ⊢
    cases hfailed : best.failedBy r with
    | false => rfl
    | true =>
      cases hresults : best.results with
      | nil => simpa [hresults] using returned_nil_iff.mp (hresults ▸ hr)
      | cons x rest =>
        -- the first result tells that the plan is the one that has failed
        obtain ⟨i, hi⟩ := mem_iff_getElem?.mp hbest
        have hx := hlabel i best hi 0 x (by rw [hresults]; rfl)
        obtain rfl : i = i' := congrArg Prod.fst (hx.symm.trans (hhead x rest hresults))
        obtain rfl : best = p' := Option.some.inj (hi.symm.trans hi')
        rw [hfailed] at hok'
        cases hok'
  | some backup =>
    simp only [hb] at hr hhead ⊢
    split
    swap
    · rfl
    next hfirst =>
    rw [if_pos hfirst] at hr hhead
    obtain ⟨-, hmem⟩ := saved_of_backupFor hb
    rcases backup.next_cases r with ⟨hnext, -, hdrop⟩ | ⟨step, hnext, -, hdrop⟩
    · simp only [hnext]
      exact returned_nil_iff.mp (by simpa [switchResults, Plan.after, hdrop] using hr)
    · simp only [hnext]
      cases step with
      | needTime | needYield => rfl
      | result x =>
        -- the next result is not the first one, if others are saved
        obtain ⟨j, hj⟩ := mem_iff_getElem?.mp hmem
        have hx := hlabel j backup hj (backup.saved r).length x (by
          rw [← backup.saved_append (k := r), getElem?_append_right le_rfl, Nat.sub_self, hdrop]
          rfl)
        have hzero := hhead x _ (by simp only [switchResults, Plan.after, hdrop]; rfl)
        have hlen : (backup.saved r).length = 0 := congrArg Prod.snd (hx.symm.trans hzero)
        simp [length_eq_zero_iff.mp hlen]

end Returned

/-! Plans that differ in their results only. -/

def PlanStep.map (g : α → β) : PlanStep α → PlanStep β
  | .result r => .result (g r)
  | .needTime => .needTime
  | .needYield => .needYield

def Plan.map (g : α → β) (p : Plan α) : Plan β :=
  ⟨p.steps.map (PlanStep.map g), p.ending, p.hasBlockingStage⟩

/-- What a plan does, without its results. -/
def Plan.shape (p : Plan α) : Plan Unit := p.map fun _ => ()

section Map
variable {numWorks numResults r : Nat} {score : Nat → ℚ} (g : α → β) (plans : List (Plan α))
  (p : Plan α)

theorem resultsOf_map (steps : List (PlanStep α)) :
    resultsOf (steps.map (PlanStep.map g)) = (resultsOf steps).map g := by
  induction steps with
  | nil => rfl
  | cons step steps ih =>
    cases step with
    | result r => exact congrArg (g r :: ·) ih
    | needTime | needYield => exact ih

@[simp] theorem Plan.steps_map : (p.map g).steps = p.steps.map (PlanStep.map g) := rfl

@[simp] theorem Plan.hasBlockingStage_map : (p.map g).hasBlockingStage = p.hasBlockingStage := rfl

@[simp] theorem Plan.results_map : (p.map g).results = p.results.map g := resultsOf_map g p.steps

@[simp] theorem Plan.saved_map : (p.map g).saved r = (p.saved r).map g := by
  rw [saved, steps_map, ← map_take, resultsOf_map, saved]

@[simp] theorem Plan.failedBy_map : (p.map g).failedBy r = p.failedBy r := by
  rw [failedBy, steps_map, length_map]
  rfl

theorem rounds_map :
    rounds numWorks numResults (plans.map (Plan.map g)) = rounds numWorks numResults plans := by
  have hstops : stopsBy numResults (plans.map (Plan.map g)) = stopsBy numResults plans := by
    funext k
    simp only [stopsBy, any_map, all_map, Function.comp_def, Plan.endsBy, Plan.failedBy_map,
      Plan.steps_map, Plan.saved_map, length_map, isEmpty_map]
    rfl
  rw [rounds, hstops, rounds]

theorem excused_map : excused r (plans.map (Plan.map g)) = excused r plans := by
  simp only [excused, any_map, Function.comp_def, Plan.failedBy_map, Plan.results_map, isEmpty_map]
  rfl

theorem undisturbed_map : undisturbed r (plans.map (Plan.map g)) (p.map g) = undisturbed r plans p := by
  have hbackup : backupFor r (plans.map (Plan.map g)) (p.map g) =
      (backupFor r plans p).map (Plan.map g) := by
    simp only [backupFor, Plan.hasBlockingStage_map, Plan.saved_map, isEmpty_map]
    split
    · rw [find?_map]
      rfl
    · rfl
  rw [undisturbed, hbackup, undisturbed, excused_map]
  cases backupFor r plans p with
  | none => simp
  | some backup =>
    simp only [Option.map_some, Plan.results_map, isEmpty_map, Plan.steps_map, getElem?_map,
      Plan.saved_map]
    rcases backup.steps[r]? with _ | (_ | _ | _) <;> rfl

theorem wins_map {i : Nat} {best : Plan β} : Wins score r (plans.map (Plan.map g)) i best ↔
    ∃ p, best = p.map g ∧ Wins score r plans i p := by
  have hscore : ∀ i (p : Plan α), rankScore score r i (p.map g) = rankScore score r i p := by
    simp only [rankScore, Plan.steps_map, length_map]
    exact fun _ _ => rfl
  simp only [Wins, getElem?_map, Option.map_eq_some_iff]
  constructor
  · rintro ⟨⟨p, hp, rfl⟩, hbest⟩
    refine ⟨p, rfl, hp, fun j q hq => ?_⟩
    have hj := hbest j _ ⟨q, hq, rfl⟩
    rwa [hscore, hscore] at hj
  · rintro ⟨p, rfl, hp, hbest⟩
    refine ⟨⟨p, hp, rfl⟩, ?_⟩
    rintro j _ ⟨q, hq, rfl⟩
    rw [hscore, hscore]
    exact hbest j q hq

theorem trialUndisturbed_map :
    TrialUndisturbed numWorks numResults score (plans.map (Plan.map g)) ↔
      TrialUndisturbed numWorks numResults score plans := by
  simp only [TrialUndisturbed, rounds_map, forall_mem_map, Plan.failedBy_map, wins_map]
  refine or_congr_right ⟨?_, ?_⟩
  · rintro ⟨i, _, ⟨p, rfl, hwins⟩, hu⟩
    exact ⟨i, p, hwins, undisturbed_map g plans p ▸ hu⟩
  · rintro ⟨i, p, hwins, hu⟩
    exact ⟨i, _, ⟨p, rfl, hwins⟩, (undisturbed_map g plans p).trans hu⟩

end Map

/-! Plans whose results tell where they come from. -/

def labelFrom (i : Nat) : Nat → List (PlanStep Unit) → List (PlanStep (Nat × Nat))
  | _, [] => []
  | k, .result _ :: steps => .result (i, k) :: labelFrom i (k + 1) steps
  | k, .needTime :: steps => .needTime :: labelFrom i k steps
  | k, .needYield :: steps => .needYield :: labelFrom i k steps

/-- Each result of these plans is the number of its plan, and its own number there. -/
def labelled (shapes : List (Plan Unit)) : List (Plan (Nat × Nat)) :=
  shapes.mapIdx fun i p => { p with steps := labelFrom i 0 p.steps }

section
variable {i k : Nat} {steps : List (PlanStep Unit)}

theorem map_labelFrom : (labelFrom i k steps).map (PlanStep.map fun _ => ()) = steps := by
  induction steps generalizing k with
  | nil => rfl
  | cons step steps ih =>
    cases step <;> exact congrArg _ ih

theorem getElem?_labelFrom {n : Nat} {x : Nat × Nat}
    (h : (resultsOf (labelFrom i k steps))[n]? = some x) : x = (i, k + n) := by
  induction steps generalizing k n with
  | nil => cases h
  | cons step steps ih =>
    cases step with
    | result r =>
      cases n with
      | zero => exact (Option.some.inj h).symm
      | succ n =>
        have hx := ih (k := k + 1) h
        rw [hx, Nat.add_assoc, Nat.add_comm 1 n]
    | needTime | needYield => exact ih h

theorem shape_labelled (shapes : List (Plan Unit)) : (labelled shapes).map Plan.shape = shapes := by
  apply ext_getElem?
  intro n
  simp only [labelled, getElem?_map, getElem?_mapIdx]
  cases shapes[n]? with
  | none => rfl
  | some p => exact congrArg some (congrArg (Plan.mk · _ _) map_labelFrom)

end

section
variable {numWorks numResults : Nat} {score : Nat → ℚ} {plans : List (Plan α)}

/-- Either all plans have failed, or the results that the stage returns are those of the winner. -/
theorem judged_cases (numWorks numResults : Nat) (score : Nat → ℚ) (plans : List (Plan α)) :
    (KeepsResults numWorks numResults score plans ∧
      TrialUndisturbed numWorks numResults score plans) ∨
    ∃ best ∈ plans,
      (KeepsResults numWorks numResults score plans ↔
        Returned (rounds numWorks numResults plans) plans
          (returnedResults (rounds numWorks numResults plans) plans best)) ∧
      (TrialUndisturbed numWorks numResults score plans ↔
        undisturbed (rounds numWorks numResults plans) plans best = true) := by
  have hcands := (trial_addPlans numWorks numResults plans).1
  by_cases hsome : ∃ p ∈ plans, p.failedBy (rounds numWorks numResults plans) = false
  · obtain ⟨s, i, best, e, hpick, hwins, hdrains⟩ := @exists_chosen _ _ _ score _ hsome
    refine .inr ⟨best, mem_of_getElem? hwins.1,
      keepsResults_iff_returned hcands hpick hdrains hsome, ?_, fun hu => .inr ⟨i, best, hwins, hu⟩⟩
    rintro (hall | ⟨i', best', hwins', hu⟩)
    · obtain ⟨p, hp, hok⟩ := hsome
      rw [hall p hp] at hok
      cases hok
    · rwa [hwins.unique hwins']
  · refine .inl ⟨fun h => absurd ((exists_ok_iff hcands).mp h) hsome, .inl fun p hp => ?_⟩
    by_contra hok
    exact hsome ⟨p, hp, not_eq_true _ ▸ hok⟩

theorem keepsResults_of_trialUndisturbed (h : TrialUndisturbed numWorks numResults score plans) :
    KeepsResults numWorks numResults score plans := by
  rcases judged_cases numWorks numResults score plans with hall | ⟨best, hmem, hkeeps, hu⟩
  · exact hall.1
  · exact hkeeps.mpr (returned_of_undisturbed hmem (hu.mp h))

theorem trialUndisturbed_of_labelled {shapes : List (Plan Unit)}
    (h : KeepsResults numWorks numResults score (labelled shapes)) :
    TrialUndisturbed numWorks numResults score (labelled shapes) := by
  rcases judged_cases numWorks numResults score (labelled shapes) with
    hall | ⟨best, hmem, hkeeps, hu⟩
  · exact hall.2
  · refine hu.mpr (undisturbed_of_returned ?_ hmem (hkeeps.mp h))
    intro i p hp k x hx
    rw [labelled, getElem?_mapIdx] at hp
    obtain ⟨q, -, rfl⟩ := Option.map_eq_some_iff.mp hp
    have hx := getElem?_labelFrom hx
    rwa [Nat.zero_add] at hx

end

end MongolDb.Exec
