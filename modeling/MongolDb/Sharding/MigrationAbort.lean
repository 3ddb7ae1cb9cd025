import MongolDb.Sharding.MigrationDestination

/-! An incoming migration that was aborted or failed is not committed, in the runs in which nothing
overwrites that state. -/
namespace MongolDb.Sharding
open Migration Transition Bool

namespace Migration

/-- What the history of an aborted or failed migration may not show; the last event comes first. -/
structure Safe (history : List Event) : Prop where
  notDone : ∀ id, ¬ [Event.becameDone id, .doomed id].Sublist history
  notCommitted : ∀ id, ¬ [Event.committed id, .doomed id].Sublist history
  notReceiving : ∀ id, ¬ [Event.received id, .checked id, .doomed id].Sublist history
  forgotten : ∀ id, ¬ [Event.ended id true, .doomed id].Sublist history

theorem sublist_cons_iff {e x : Event} {l history : List Event} :
    (x :: l).Sublist (e :: history) ↔ (x :: l).Sublist history ∨ (x = e ∧ l.Sublist history) := by
  constructor
  · intro h
    cases h with
    | cons _ h => exact .inl h
    | cons_cons _ h => exact .inr ⟨rfl, h⟩
  · rintro (h | ⟨rfl, h⟩)
    · exact h.cons e
    · exact h.cons_cons x

theorem Safe.nil : Safe [] := by
  constructor <;> intro id h <;> cases h

theorem not_sublist_cons {e x : Event} {l history : List Event} (h : ¬ (x :: l).Sublist history)
    (hnew : e = x → ¬ l.Sublist history) : ¬ (x :: l).Sublist (e :: history) := by
  intro hsub
  rcases sublist_cons_iff.mp hsub with hsub | ⟨he, hsub⟩
  · exact h hsub
  · exact hnew he.symm hsub

theorem Safe.cons {e : Event} {history : List Event} (h : Safe history)
    (hdone : ∀ id, e = .becameDone id → .doomed id ∉ history)
    (hcommitted : ∀ id, e = .committed id → .doomed id ∉ history)
    (hreceived : ∀ id, e = .received id → ¬ [Event.checked id, .doomed id].Sublist history)
    (hended : ∀ id, e = .ended id true → .doomed id ∉ history) : Safe (e :: history) := by
  refine ⟨fun id => ?_, fun id => ?_, fun id => ?_, fun id => ?_⟩
  · exact not_sublist_cons (h.notDone id) fun he => mt List.singleton_sublist.mp (hdone id he)
  · exact not_sublist_cons (h.notCommitted id) fun he =>
      mt List.singleton_sublist.mp (hcommitted id he)
  · exact not_sublist_cons (h.notReceiving id) (hreceived id)
  · exact not_sublist_cons (h.forgotten id) fun he => mt List.singleton_sublist.mp (hended id he)

/-- Before the migration can be committed. -/
def Pc.early : Pc → Bool
  | .checkReady | .prepare | .checkPrepared | .setClone | .cloneFetch | .cloneDocs _ | .setCatchup
  | .catchupFetch | .catchupWait | .replicationWait | .setSteady => true
  | _ => false

/-- From here an aborted or failed migration receives nothing more, unless the state is
overwritten. -/
def Pc.calm : Pc → Bool
  | .idle | .setClone | .steadyTest _ | .commitTest _ | .abortTest _ | .finishTest _ | .sleepTest _
  | .failTest | .setDone | .doneTest | .forgetPending | .becomeInactive | .terminated => true
  | _ => false

/-- The thread has looked at the state to go on with the transfer. -/
def Pc.committing : Pc → Bool
  | .commitSeen _ => true
  | _ => false

/-- A calm place behind the start of the transfer and before the migration is over. -/
def Pc.settled (pc : Pc) : Bool := pc.calm && pc != .setClone && pc != .becomeInactive

theorem Pc.of_settled {pc : Pc} (h : pc.settled = true) : pc.calm = true ∧ pc.early ≠ true ∧
    pc.committing ≠ true ∧ pc ≠ .becomeInactive := by
  cases pc <;> simp_all [settled, calm, early, committing]

end Migration

namespace MigrationDestinationManager
variable {s t : MigrationDestinationManager} {r : Reply}

/-- The state is not changed behind the last read that the thread acts on, the thread does not
overwrite it, and no call waits for a migration that is over when the next one is started. -/
def undisturbed (s : MigrationDestinationManager) : Action → Bool
  | .start => s.active || s.waiting.isEmpty
  | .abort => !s.pc.committing && !(s.pc = .becomeInactive && s.current ∈ s.pending)
  | .timeout _ => s.active && !s.pc.committing && !(s.pc = .becomeInactive && s.current ∈ s.pending)
  | .thread _ =>
    match s.pc with
    | .setClone | .setCatchup | .setSteady | .setDone => s.state ≠ .abort && s.state ≠ .fail
    | _ => true
  | _ => true

def Doomed (s : MigrationDestinationManager) : Prop := .doomed s.current ∈ s.history

/-- The thread has read the state since the migration was aborted or failed. -/
def CheckedDoomed (s : MigrationDestinationManager) : Prop :=
  [Event.checked s.current, .doomed s.current].Sublist s.history

structure Inv (s : MigrationDestinationManager) : Prop where
  safe : Safe s.history
  ids : ∀ e ∈ s.history, e.id ≤ s.current
  waiting : ∀ id ∈ s.waiting, id = s.current
  idle : s.active = false → s.pc = .idle
  doomed : s.Doomed → s.state = .abort ∨ s.state = .fail
  checked : s.CheckedDoomed → s.pc.calm = true
  early : s.pc.early = true → s.waiting = [] ∧ s.state ≠ .steady ∧ s.state ≠ .fail
  committing : s.pc.committing = true → ¬ s.Doomed
  ending : s.pc = .becomeInactive → s.Doomed → s.current ∉ s.pending

theorem inv_init : init.Inv where
  safe := .nil
  ids := fun _ he => absurd he List.not_mem_nil
  waiting := fun _ hid => absurd hid List.not_mem_nil
  idle := fun _ => rfl
  doomed := fun h => absurd h List.not_mem_nil
  checked := fun _ => rfl
  early := fun h => absurd h false_ne_true
  committing := fun h => absurd h false_ne_true
  ending := fun h => absurd h (by decide)

theorem doomed_of_cons {e : Event} {id : Nat} {history : List Event}
    (hd : .doomed id ∈ e :: history) (hne : .doomed id ≠ e) : .doomed id ∈ history :=
  List.mem_of_ne_of_mem hne hd

theorem CheckedDoomed.doomed (h : s.CheckedDoomed) : s.Doomed :=
  h.subset (List.mem_cons_of_mem _ (List.mem_singleton.mpr rfl))

theorem Inv.ids_cons (h : s.Inv) {e : Event} (he : e.id = s.current) :
    ∀ e' ∈ e :: s.history, e'.id ≤ s.current := by
  exact List.forall_mem_cons.mpr ⟨Nat.le_of_eq he, h.ids⟩

theorem Inv.not_doomed (h : s.Inv) (hnot : s.state ≠ .abort ∧ s.state ≠ .fail) : ¬ s.Doomed := by
  intro hd
  rcases h.doomed hd with he | he
  · exact hnot.1 he
  · exact hnot.2 he

section Thread
variable {pc : Pc}

section
variable (h : s.Inv)
include h

section
variable (hpc : s.pc ≠ .idle)
include hpc

theorem Inv.busy (hactive : s.active = false) : pc = .idle :=
  absurd (h.idle hactive) hpc

/-- The thread goes on without an access to the state. -/
theorem Inv.goTo (hcalm : s.pc.calm = true → pc.calm = true)
    (hearly : pc.early = true → s.pc.early = true) (hcommitting : pc.committing ≠ true)
    (hending : pc ≠ .becomeInactive) : (s.goTo pc).Inv :=
  { h with
    idle := h.busy hpc
    checked := fun hc => hcalm (h.checked hc)
    early := fun he => h.early (hearly he)
    committing := fun hc => absurd hc hcommitting
    ending := fun he => absurd he hending }

/-- A read of the state. An aborted or failed migration goes on where it receives nothing. -/
theorem Inv.getState (hcalm : s.Doomed → s.state = .abort ∨ s.state = .fail → pc.calm = true)
    (hearly : pc.early = true → s.pc.early = true)
    (hcommitting : pc.committing = true → s.state ≠ .abort ∧ s.state ≠ .fail)
    (hending : pc = .becomeInactive → s.state ≠ .abort ∧ s.state ≠ .fail) :
    (s.getState pc).Inv := by
  have hdoomed : (s.getState pc).Doomed → s.Doomed := fun hd => doomed_of_cons hd nofun
  refine ⟨?_, h.ids_cons rfl, h.waiting, h.busy hpc,
    fun hd => h.doomed (hdoomed hd), ?_, fun he => h.early (hearly he),
    fun hc hd => h.not_doomed (hcommitting hc) (hdoomed hd), fun he hd => ?_⟩
  · exact h.safe.cons nofun nofun nofun nofun
  · intro hc
    exact hcalm (hdoomed hc.doomed) (h.doomed (hdoomed hc.doomed))
  · exact absurd (hdoomed hd) (h.not_doomed (hending he))

theorem Inv.setState {state : Stage} (hnot : s.state ≠ .abort ∧ s.state ≠ .fail)
    (hearly : pc.early = true → s.pc.early = true ∧ state ≠ .steady ∧ state ≠ .fail)
    (hending : pc ≠ .becomeInactive) : (s.setState state pc).Inv := by
  have hdoomed := h.not_doomed hnot
  refine ⟨h.safe, h.ids, h.waiting, h.busy hpc,
    fun hd => absurd hd hdoomed, fun hc => absurd hc.doomed hdoomed, fun he => ?_,
    fun _ => hdoomed, fun he => absurd he hending⟩
  obtain ⟨hold, hstate⟩ := hearly he
  exact ⟨(h.early hold).1, hstate⟩

theorem Inv.setFail : (s.setFail .doneTest).Inv := by
  refine ⟨?_, h.ids_cons rfl, h.waiting, h.busy hpc,
    fun _ => .inr rfl, fun _ => rfl, fun he => absurd he false_ne_true,
    fun hc => absurd hc false_ne_true, fun he => by cases he⟩
  exact h.safe.cons nofun nofun nofun nofun

theorem Inv.setDone (hnot : s.state ≠ .abort ∧ s.state ≠ .fail) : (s.setDone .doneTest).Inv := by
  have hdoomed := h.not_doomed hnot
  have hstill : ¬ (s.setDone .doneTest).Doomed := fun hd => hdoomed (doomed_of_cons hd nofun)
  refine ⟨?_, h.ids_cons rfl, h.waiting, h.busy hpc,
    fun hd => absurd hd hstill, fun _ => rfl, fun he => absurd he false_ne_true,
    fun hc => absurd hc false_ne_true, fun he => by cases he⟩
  refine h.safe.cons (fun id he => ?_) nofun nofun nofun
  cases he
  exact hdoomed

/-- Documents come from the donor. -/
theorem Inv.receive (hwild : s.pc.calm = false) (hearly : pc.early = true → s.pc.early = true)
    (hcommitting : pc.committing ≠ true) (hending : pc ≠ .becomeInactive) : (s.receive pc).Inv := by
  have hunchecked : ¬ s.CheckedDoomed := by
    intro hc
    rw [h.checked hc] at hwild
    cases hwild
  refine ⟨?_, h.ids_cons rfl, h.waiting, h.busy hpc,
    fun hd => h.doomed (doomed_of_cons hd nofun), fun hc => ?_,
    fun he => h.early (hearly he), fun hc => absurd hc hcommitting, fun he => absurd he hending⟩
  · refine h.safe.cons nofun nofun (fun id he => ?_) nofun
    cases he
    exact hunchecked
  · rcases sublist_cons_iff.mp hc with hc | ⟨he, -⟩
    · exact absurd hc hunchecked
    · cases he

/-- A read of the state behind which the thread cannot receive anything. -/
theorem Inv.getState_settled (hsettled : pc.settled = true) : (s.getState pc).Inv := by
  obtain ⟨hcalm, hearly, hcommitting, hending⟩ := Pc.of_settled hsettled
  exact h.getState hpc (fun _ _ => hcalm) (absurd · hearly) (absurd · hcommitting)
    (absurd · hending)

/-- A read of the state early in the migration, when only `abort` is looked for. -/
theorem Inv.getState_early (hearly : s.pc.early = true)
    (habort : s.state ≠ .abort) (hcommitting : pc.committing ≠ true)
    (hending : pc ≠ .becomeInactive) : (s.getState pc).Inv := by
  refine h.getState hpc (fun _ hstate => ?_) (fun _ => hearly) (fun hc => absurd hc hcommitting)
    fun he => absurd he hending
  rcases hstate with he | he
  · exact absurd he habort
  · exact absurd he (h.early hearly).2.2

/-- A read of a state in which the transfer goes on. -/
theorem Inv.getState_going
    (hgoing : s.state ≠ .abort ∧ s.state ≠ .fail) {b : Bool} : (s.getState (.commitSeen b)).Inv :=
  h.getState hpc (fun _ hstate => (hstate.elim hgoing.1 hgoing.2).elim) Bool.noConfusion
    (fun _ => hgoing) Pc.noConfusion

end

theorem Inv.notePending (hpc : s.pc = .prepare) :
    ({ s with pc := .checkPrepared, pending := s.current :: s.pending } :
      MigrationDestinationManager).Inv := by
  have hearly : s.pc.early = true := by
    rw [hpc]
    rfl
  refine ⟨h.safe, h.ids, h.waiting, fun hactive => ?_, h.doomed, fun hc => ?_, fun _ => h.early hearly,
    fun hc => absurd hc false_ne_true, fun he => by cases he⟩
  · have hidle := h.idle hactive
    rw [hpc] at hidle
    cases hidle
  · have hcalm := h.checked hc
    rw [hpc] at hcalm
    cases hcalm

/-- A request for documents: it fails, ends the phase or brings some. -/
theorem Inv.thread_fetch (hidle : s.pc ≠ .idle) (hwild : s.pc.calm = false)
    (hearly : s.pc.early = true) {next : Pc} {received : Nat → Pc} (hstep : (match r with
      | .fail => some (s.setFail .doneTest)
      | .retry => none
      | .ok 0 _ => some (s.goTo next)
      | .ok (n + 1) _ => some (s.receive (received n))) = some t)
    (hnext : next.committing ≠ true ∧ next ≠ .becomeInactive)
    (hreceived : ∀ n, (received n).committing ≠ true ∧ received n ≠ .becomeInactive) : t.Inv := by
  rcases r with - | - | ⟨- | n, applied⟩ <;> cases hstep
  · exact h.setFail hidle
  · exact h.goTo hidle (fun hc => by rw [hwild] at hc; cases hc) (fun _ => hearly) hnext.1 hnext.2
  · exact h.receive hidle hwild (fun _ => hearly) (hreceived n).1 (hreceived n).2

/-- One turn of a loop that waits for replication: it looks for an abort, gives up, waits on or goes
on. -/
theorem Inv.thread_wait (hidle : s.pc ≠ .idle) (hearly : s.pc.early = true)
    {again next : Pc} (hstep : (if s.state = .abort then some (s.getState .doneTest) else
        match r with
        | .fail => some ((s.getState .doneTest).setFail .doneTest)
        | .retry => some (s.getState again)
        | .ok _ _ => some (s.getState next)) = some t)
    (hagain : again.committing ≠ true ∧ again ≠ .becomeInactive)
    (hnext : next.committing ≠ true ∧ next ≠ .becomeInactive) : t.Inv := by
  have hdone : (s.getState .doneTest).Inv := h.getState_settled hidle rfl
  split at hstep
  next =>
    cases hstep
    exact hdone
  next habort =>
    cases r with
    | fail =>
      cases hstep
      exact hdone.setFail Pc.noConfusion
    | retry =>
      cases hstep
      exact h.getState_early hidle hearly habort hagain.1 hagain.2
    | ok docs applied =>
      cases hstep
      exact h.getState_early hidle hearly habort hnext.1 hnext.2

/-- Up to the steady state: the preparation, the initial clone, the modifications since and their
replication. -/
theorem Inv.thread_early (hok : s.undisturbed (.thread r) = true)
    (hstep : s.thread r = some t) (hearly : s.pc.early = true) : t.Inv := by
  have hidle : s.pc ≠ .idle := by
    intro he
    rw [he] at hearly
    cases hearly
  cases hpc : s.pc <;> simp only [thread, undisturbed, hpc] at hstep hok
  case checkReady =>
    split at hstep
    next =>
      cases hstep
      exact h.getState_settled hidle rfl
    next hready =>
      cases hstep
      refine h.getState_early hidle hearly (fun he => hready ?_) Bool.noConfusion Pc.noConfusion
      rw [he]
      exact Stage.noConfusion
  case prepare =>
    cases r with
    | fail =>
      cases hstep
      exact h.setFail hidle
    | retry => cases hstep
    | ok docs applied =>
      cases hstep
      exact h.notePending hpc
  case checkPrepared =>
    cases hstep
    exact h.getState hidle (fun _ _ => rfl) (fun _ => hearly) Bool.noConfusion Pc.noConfusion
  case cloneFetch | catchupFetch =>
    exact h.thread_fetch hidle (by rw [hpc]; rfl) hearly hstep (by decide)
      fun _ => ⟨Bool.noConfusion, Pc.noConfusion⟩
  case cloneDocs n =>
    split at hstep
    next =>
      cases hstep
      exact h.getState_settled hidle rfl
    next habort =>
      cases n <;> cases hstep <;>
        exact h.getState_early hidle hearly habort Bool.noConfusion Pc.noConfusion
  case catchupWait | replicationWait =>
    exact h.thread_wait hidle hearly hstep (by decide) (by decide)
  case setClone | setCatchup =>
    cases hstep
    simp only [and_eq_true, decide_eq_true_eq] at hok
    exact h.setState hidle hok (fun _ => ⟨hearly, Stage.noConfusion, Stage.noConfusion⟩)
      Pc.noConfusion
  case setSteady =>
    cases hstep
    simp only [and_eq_true, decide_eq_true_eq] at hok
    exact h.setState hidle hok Bool.noConfusion Pc.noConfusion
  all_goals
    rw [hpc] at hearly
    cases hearly

theorem Inv.thread_steady (hstep : s.thread r = some t)
    (hpc : ∃ b, s.pc = .steadyTest b ∨ s.pc = .commitTest b ∨ s.pc = .commitSeen b ∨
      s.pc = .steadyFetch b ∨ s.pc = .abortTest b ∨ s.pc = .finishTest b ∨ s.pc = .sleepTest b) :
    t.Inv := by
  obtain ⟨b, hpc⟩ := hpc
  rcases hpc with hpc | hpc | hpc | hpc | hpc | hpc | hpc <;>
    simp only [thread, hpc] at hstep <;>
    have hidle : s.pc ≠ .idle := (by rw [hpc]; exact Pc.noConfusion)
  · split at hstep <;> cases hstep
    next hsteady => exact h.getState_going hidle (by rw [hsteady]; decide)
    · exact h.getState_settled hidle rfl
  · split at hstep <;> cases hstep
    next hcommit => exact h.getState_going hidle (by rw [hcommit]; decide)
    · exact h.getState_settled hidle rfl
  · cases hstep
    refine h.getState hidle (fun hd _ => ?_) Bool.noConfusion Bool.noConfusion Pc.noConfusion
    have hcommitting : s.pc.committing = true := by
      rw [hpc]
      rfl
    exact absurd hd (h.committing hcommitting)
  · have hwild : s.pc.calm = false := by rw [hpc]; rfl
    rcases r with - | - | ⟨- | n, applied⟩
    · cases hstep
      exact h.setFail hidle
    · cases hstep
    · cases hstep
      exact h.goTo hidle (fun _ => rfl) Bool.noConfusion Bool.noConfusion Pc.noConfusion
    · cases applied <;> cases hstep <;>
        exact h.receive hidle hwild Bool.noConfusion Bool.noConfusion Pc.noConfusion
  · split at hstep <;> cases hstep <;> exact h.getState_settled hidle rfl
  · split at hstep <;> cases r <;> cases hstep <;> exact h.getState_settled hidle rfl
  · cases hstep
    exact h.getState_settled hidle rfl

theorem Inv.thread_end (hok : s.undisturbed (.thread r) = true) (hstep : s.thread r = some t)
    (hpc : s.pc = .failTest ∨ s.pc = .setDone ∨ s.pc = .doneTest ∨ s.pc = .forgetPending ∨
      s.pc = .becomeInactive) : t.Inv := by
  rcases hpc with hpc | hpc | hpc | hpc | hpc <;>
    simp only [thread, undisturbed, hpc] at hstep hok <;>
    have hidle : s.pc ≠ .idle := (by rw [hpc]; exact Pc.noConfusion)
  · split at hstep <;> cases hstep <;> exact h.getState_settled hidle rfl
  · cases hstep
    simp only [and_eq_true, decide_eq_true_eq] at hok
    exact h.setDone hidle hok
  · split at hstep
    next hdone =>
      cases hstep
      refine h.getState hidle (fun _ _ => rfl) Bool.noConfusion Bool.noConfusion (fun _ => ?_)
      rw [hdone]
      exact ⟨Stage.noConfusion, Stage.noConfusion⟩
    next =>
      cases hstep
      exact h.getState_settled hidle rfl
  · cases hstep
    refine ⟨h.safe, h.ids, h.waiting, h.busy hidle, h.doomed,
      fun _ => rfl, Bool.noConfusion, Bool.noConfusion, fun _ _ hmem => ?_⟩
    have hne := of_decide_eq_true (List.mem_filter.mp hmem).2
    exact hne rfl
  · cases hstep
    refine ⟨?_, h.ids_cons rfl, h.waiting, fun _ => rfl,
      fun hd => h.doomed (doomed_of_cons hd nofun), fun _ => rfl, Bool.noConfusion, Bool.noConfusion,
      Pc.noConfusion⟩
    refine h.safe.cons nofun nofun nofun (fun id he hd => ?_)
    injection he with hid hpending
    subst hid
    exact h.ending hpc hd (of_decide_eq_true hpending)

theorem Inv.thread (hok : s.undisturbed (.thread r) = true)
    (hstep : s.thread r = some t) : t.Inv := by
  cases hpc : s.pc with
  | idle | terminated =>
    simp only [MigrationDestinationManager.thread, hpc] at hstep
    cases hstep
  | checkReady | prepare | checkPrepared | setClone | cloneFetch | cloneDocs n | setCatchup
  | catchupFetch | catchupWait | replicationWait | setSteady =>
    exact h.thread_early hok hstep (by rw [hpc]; rfl)
  | steadyTest b | commitTest b | commitSeen b | steadyFetch b | abortTest b | finishTest b
  | sleepTest b => exact h.thread_steady hstep ⟨b, by simp [hpc]⟩
  | failTest | setDone | doneTest | forgetPending | becomeInactive =>
    exact h.thread_end hok hstep (by simp [hpc])

end

end Thread

section
variable (h : s.Inv)
include h

theorem Inv.start (hok : s.undisturbed .start = true) (hstep : s.start = some t) : t.Inv := by
  unfold MigrationDestinationManager.start at hstep
  split at hstep
  · cases hstep
    exact h
  next hactive =>
    cases hstep
    have hempty : s.waiting = [] := by simpa [undisturbed, hactive] using hok
    have hnew : Event.doomed (s.current + 1) ∉ s.history := by
      intro hmem
      have hle := h.ids _ hmem
      exact absurd hle (Nat.not_succ_le_self s.current)
    refine ⟨h.safe, fun e he => Nat.le_succ_of_le (h.ids e he), fun id hid => ?_, Bool.noConfusion,
      fun hd => absurd hd hnew, fun hc => absurd hc.doomed hnew,
      fun _ => ⟨hempty, Stage.noConfusion, Stage.noConfusion⟩, Bool.noConfusion, Pc.noConfusion⟩
    have hmem : id ∈ s.waiting := hid
    rw [hempty] at hmem
    exact absurd hmem List.not_mem_nil

/-- The migration is aborted or fails, while the thread is not between a read and what it does
upon it. -/
theorem Inv.doom (hactive : s.active = true) (hcommitting : s.pc.committing = false)
    (hending : s.pc = .becomeInactive → s.current ∉ s.pending) {state : Stage} {waiting : List Nat}
    (hwaiting : waiting ⊆ s.waiting) (hstate : state = .abort ∨ state = .fail ∧ s.waiting ≠ []) :
    ({ s with state := state, waiting := waiting, history := .doomed s.current :: s.history } :
      MigrationDestinationManager).Inv := by
  refine ⟨?_, h.ids_cons rfl, fun id hid => h.waiting id (hwaiting hid), fun hf => ?_, fun _ => ?_,
    fun hc => ?_, fun he => ?_, fun hc => ?_, fun he _ => hending he⟩
  · exact h.safe.cons nofun nofun nofun nofun
  · exact absurd hf (by rw [hactive]; exact Bool.noConfusion)
  · exact hstate.imp id And.left
  · rcases sublist_cons_iff.mp hc with hc | ⟨he, -⟩
    · exact h.checked hc
    · cases he
  · obtain ⟨hnone, -, -⟩ := h.early he
    rcases hstate with rfl | ⟨-, hne⟩
    · exact ⟨List.subset_nil.mp (hnone ▸ hwaiting), Stage.noConfusion, Stage.noConfusion⟩
    · exact absurd hnone hne
  · exact absurd hc (by rw [hcommitting]; exact Bool.noConfusion)

theorem Inv.abort (hok : s.undisturbed .abort = true) (hstep : s.abort = some t) : t.Inv := by
  unfold MigrationDestinationManager.abort at hstep
  by_cases hactive : s.active = true
  · rw [if_pos hactive] at hstep
    cases hstep
    simp only [undisturbed, and_eq_true, not_eq_true', and_eq_false_iff,
      decide_eq_false_iff_not] at hok
    exact h.doom hactive hok.1 (fun hpc => hok.2.resolve_left (not_not_intro hpc))
      (List.Subset.refl _) (.inl rfl)
  · rw [if_neg hactive] at hstep
    cases hstep
    exact { h with
      doomed := fun _ => .inl rfl
      early := fun he => ⟨(h.early he).1, Stage.noConfusion, Stage.noConfusion⟩ }

theorem Inv.startCommit (hstep : s.startCommit = some t) : t.Inv := by
  unfold MigrationDestinationManager.startCommit at hstep
  split at hstep
  · cases hstep
    exact h
  next hsteady =>
    cases hstep
    have hstate : s.state = .steady := not_not.mp hsteady
    have hdoomed : ¬ s.Doomed := by
      apply h.not_doomed
      rw [hstate]
      exact ⟨Stage.noConfusion, Stage.noConfusion⟩
    exact { h with
      waiting := List.forall_mem_cons.mpr ⟨rfl, h.waiting⟩
      doomed := fun hd => absurd hd hdoomed
      early := fun he => absurd hstate (h.early he).2.1 }

theorem Inv.wake {id : Nat} (hstep : s.wake id = some t) : t.Inv := by
  unfold MigrationDestinationManager.wake at hstep
  split at hstep
  · cases hstep
  next hwait =>
    cases hstep
    obtain ⟨hmem, hactive⟩ := not_or.mp hwait
    have hid : id = s.current := h.waiting id (not_not.mp hmem)
    have hwaiting : ∀ k ∈ s.waiting.erase id, k = s.current :=
      fun k hk => h.waiting k (List.mem_of_mem_erase hk)
    have hearly : s.pc.early ≠ true := by
      rw [h.idle (not_eq_true _ |>.mp hactive)]
      exact Bool.noConfusion
    split
    next hdone =>
      have hdoomed : ¬ s.Doomed := by
        apply h.not_doomed
        rw [hdone]
        exact ⟨Stage.noConfusion, Stage.noConfusion⟩
      have hnew : Event.doomed s.current ∉ Event.committed id :: s.history :=
        fun hd => hdoomed (doomed_of_cons hd nofun)
      refine ⟨?_, h.ids_cons hid, hwaiting, h.idle, fun hd => absurd hd hnew,
        fun hc => absurd hc.doomed hnew, fun he => absurd he hearly, fun _ => hnew,
        fun _ hd => absurd hd hnew⟩
      refine h.safe.cons nofun (fun k he => ?_) nofun nofun
      cases he
      rw [hid]
      exact hdoomed
    next => exact { h with waiting := hwaiting, early := fun he => absurd he hearly }

theorem Inv.timeout {id : Nat} (hok : s.undisturbed (.timeout id) = true)
    (hstep : s.timeout id = some t) : t.Inv := by
  unfold MigrationDestinationManager.timeout at hstep
  split at hstep
  · cases hstep
  next hwait =>
    cases hstep
    simp only [undisturbed, and_eq_true, not_eq_true', and_eq_false_iff,
      decide_eq_false_iff_not] at hok
    have hmem : id ∈ s.waiting := not_not.mp hwait
    exact h.doom hok.1.1 hok.1.2 (fun hpc => hok.2.resolve_left (not_not_intro hpc))
      (List.erase_subset) (.inr ⟨rfl, List.ne_nil_of_mem hmem⟩)

theorem Inv.throw (hstep : s.throw = some t) : t.Inv := by
  unfold MigrationDestinationManager.throw at hstep
  split at hstep
  next hdriver =>
    cases hstep
    refine h.setFail fun hpc => ?_
    rw [hpc] at hdriver
    cases hdriver
  next => cases hstep

theorem Inv.step {a : Action} (hok : s.undisturbed a = true)
    (hstep : s.step a = some t) : t.Inv := by
  unfold MigrationDestinationManager.step at hstep
  split at hstep
  · cases hstep
  · cases a with
    | start => exact h.start hok hstep
    | abort => exact h.abort hok hstep
    | startCommit => exact h.startCommit hstep
    | wake id => exact h.wake hstep
    | timeout id => exact h.timeout hok hstep
    | thread r => exact h.thread hok hstep
    | throw => exact h.throw hstep

end

/-- In every run in which the state of an aborted or failed migration is not overwritten, that
migration does not become done, no call for it commits, it receives nothing behind the next read of
its state, and its range is forgotten before the manager becomes inactive. -/
theorem safe_of_undisturbed
    (h : Reach step (fun s a => s.undisturbed a = true) init s) : Safe s.history :=
  (h.invariant (I := Inv) inv_init fun hs hok hstep => hs.step hok hstep).safe

/-- One step of the thread, in which every operation succeeds and the donor has nothing to send. -/
def advance : Action := .thread (.ok 0 false)

/-- A migration without documents, up to the wait for replication. -/
def upToReplication : List Action := .start :: List.replicate 7 advance

theorem safe_of_undisturbed_abort :
    ∃ s, run step (upToReplication ++ .abort :: List.replicate 4 advance) init = some s ∧
      s.active = false ∧ .doomed 1 ∈ s.history ∧ Safe s.history := by
  obtain ⟨s, hrun, hguarded, hactive, hdoomed⟩ : ∃ s,
      run step (upToReplication ++ .abort :: List.replicate 4 advance) init = some s ∧
        run (guarded step undisturbed) (upToReplication ++ .abort :: List.replicate 4 advance) init =
          some s ∧ s.active = false ∧ .doomed 1 ∈ s.history :=
    ⟨_, rfl, rfl, rfl, by decide⟩
  exact ⟨s, hrun, hactive, hdoomed, safe_of_undisturbed (reach_of_guarded_run hguarded)⟩

/-- The abort falls between the end of the wait and the assignment that follows it. -/
def abortOverwritten : List Action :=
  upToReplication ++ [advance, .abort, advance, .startCommit] ++ List.replicate 10 advance ++ [.wake 1]

theorem aborted_migration_commits :
    ∃ s, run step abortOverwritten init = some s ∧ s.state = .done ∧
      [Event.becameDone 1, .doomed 1].Sublist s.history ∧
      [Event.committed 1, .doomed 1].Sublist s.history :=
  ⟨_, rfl, rfl, by decide, by decide⟩

end MigrationDestinationManager

end MongolDb.Sharding
