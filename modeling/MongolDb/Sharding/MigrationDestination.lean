import MongolDb.Lib.Reach

/-! The manager of an incoming chunk migration: the thread that receives the chunk, and the calls that
start, abort and commit the migration. Every access to the state variable is a step of its own. -/
namespace MongolDb.Sharding

namespace Migration

/-- `MigrationDestinationManager::State`. -/
inductive Stage where
  | ready
  | clone
  | catchup
  | steady
  | commitStart
  | done
  | fail
  | abort
deriving DecidableEq

/-- Where the thread is: each constructor names what it does next. The flag is
`transferAfterCommit`. -/
inductive Pc where
  | idle
  | checkReady
  /-- The collection, its indexes, the deletion of the range, and `notePending`. -/
  | prepare
  | checkPrepared
  | setClone
  | cloneFetch
  /-- So many documents of the batch are left behind the next one. -/
  | cloneDocs (n : Nat)
  | setCatchup
  | catchupFetch
  | catchupWait
  | replicationWait
  | setSteady
  /-- The two reads of the loop condition. -/
  | steadyTest (transferAfterCommit : Bool)
  | commitTest (transferAfterCommit : Bool)
  | commitSeen (transferAfterCommit : Bool)
  | steadyFetch (transferAfterCommit : Bool)
  | abortTest (transferAfterCommit : Bool)
  | finishTest (transferAfterCommit : Bool)
  | sleepTest (transferAfterCommit : Bool)
  | failTest
  | setDone
  | doneTest
  | forgetPending
  | becomeInactive
  /-- An invariant failed and the process ended. -/
  | terminated
deriving DecidableEq

/-- The thread is in `_migrateDriver`, behind its invariants. -/
def Pc.inDriver : Pc → Bool
  | .idle | .checkReady | .doneTest | .forgetPending | .becomeInactive | .terminated => false
  | _ => true

/-- What happened, with the number of the migration. -/
inductive Event where
  /-- `abort` was called during the migration, or its state became `FAIL`. -/
  | doomed (id : Nat)
  | becameDone (id : Nat)
  /-- A call of `startCommit` made for the migration returned true. -/
  | committed (id : Nat)
  /-- The thread read the state. -/
  | checked (id : Nat)
  /-- The donor sent documents. -/
  | received (id : Nat)
  /-- The manager became inactive, the range being still pending or not. -/
  | ended (id : Nat) (pending : Bool)
deriving DecidableEq

def Event.id : Event → Nat
  | .doomed id | .becameDone id | .committed id | .checked id | .received id | .ended id _ => id

/-- What an operation of the thread comes back with: it fails for good, it has to be tried again, or
it succeeds, with documents that change something or not. -/
inductive Reply where
  | fail
  | retry
  | ok (docs : Nat) (applied : Bool)
deriving DecidableEq

inductive Action where
  | start
  | abort
  | startCommit
  /-- A call of `startCommit` for this migration finds the manager inactive. -/
  | wake (id : Nat)
  /-- A call of `startCommit` for this migration waited too long. -/
  | timeout (id : Nat)
  | thread (r : Reply)
  /-- An exception leaves `_migrateDriver`. -/
  | throw
deriving DecidableEq

end Migration

open Migration

structure MigrationDestinationManager where
  state : Stage
  active : Bool
  /-- The number of the last migration that was started. -/
  current : Nat
  pc : Pc
  /-- The migrations that the calls waiting in `startCommit` were made for. -/
  waiting : List Nat
  /-- The migrations whose range is pending. -/
  pending : List Nat
  /-- The last event first. -/
  history : List Event
deriving DecidableEq

namespace MigrationDestinationManager

def init : MigrationDestinationManager where
  state := .ready
  active := false
  current := 0
  pc := .idle
  waiting := []
  pending := []
  history := []

section
variable (s : MigrationDestinationManager)

def goTo (pc : Pc) : MigrationDestinationManager := { s with pc := pc }

/-- A read of the state, after which the thread goes on at `pc`. -/
def getState (pc : Pc) : MigrationDestinationManager :=
  { s with pc := pc, history := .checked s.current :: s.history }

def setState (state : Stage) (pc : Pc) : MigrationDestinationManager :=
  { s with state := state, pc := pc }

def setFail (pc : Pc) : MigrationDestinationManager :=
  { s with state := .fail, pc := pc, history := .doomed s.current :: s.history }

def setDone (pc : Pc) : MigrationDestinationManager :=
  { s with state := .done, pc := pc, history := .becameDone s.current :: s.history }

def receive (pc : Pc) : MigrationDestinationManager :=
  { s with pc := pc, history := .received s.current :: s.history }

def start : Option MigrationDestinationManager :=
  if s.active then some s
  else
    some { s with state := .ready, active := true, current := s.current + 1, pc := .checkReady }

def abort : Option MigrationDestinationManager :=
  some { s with
    state := .abort
    history := if s.active then .doomed s.current :: s.history else s.history }

def startCommit : Option MigrationDestinationManager :=
  if s.state ≠ .steady then some s
  else some { s with state := .commitStart, waiting := s.current :: s.waiting }

def wake (id : Nat) : Option MigrationDestinationManager :=
  if id ∉ s.waiting ∨ s.active then none
  else
    some { s with
      waiting := s.waiting.erase id
      history := if s.state = .done then .committed id :: s.history else s.history }

def timeout (id : Nat) : Option MigrationDestinationManager :=
  if id ∉ s.waiting then none
  else
    some { s with
      state := .fail
      waiting := s.waiting.erase id
      history := .doomed s.current :: s.history }

/-- `_migrateThread` with `_migrateDriver`. -/
def thread (r : Reply) : Option MigrationDestinationManager :=
  match s.pc with
  | .checkReady =>
    if s.state ≠ .ready then some (s.getState .terminated) else some (s.getState .prepare)
  | .prepare =>
    match r with
    | .fail => some (s.setFail .doneTest)
    | .retry => none
    | .ok _ _ => some { s with pc := .checkPrepared, pending := s.current :: s.pending }
  -- a deletion is queued if the migration was aborted, and the thread goes on
  | .checkPrepared => some (s.getState .setClone)
  | .setClone => some (s.setState .clone .cloneFetch)
  | .cloneFetch =>
    match r with
    | .fail => some (s.setFail .doneTest)
    | .retry => none
    | .ok 0 _ => some (s.goTo .setCatchup)
    | .ok (n + 1) _ => some (s.receive (.cloneDocs n))
  | .cloneDocs n =>
    if s.state = .abort then some (s.getState .doneTest)
    else
      match n with
      | 0 => some (s.getState .cloneFetch)
      | n + 1 => some (s.getState (.cloneDocs n))
  | .setCatchup => some (s.setState .catchup .catchupFetch)
  | .catchupFetch =>
    match r with
    | .fail => some (s.setFail .doneTest)
    | .retry => none
    | .ok 0 _ => some (s.goTo .replicationWait)
    | .ok (_ + 1) _ => some (s.receive .catchupWait)
  | .catchupWait =>
    if s.state = .abort then some (s.getState .doneTest)
    else
      match r with
      | .fail => some ((s.getState .doneTest).setFail .doneTest)
      | .retry => some (s.getState .catchupWait)
      | .ok _ _ => some (s.getState .catchupFetch)
  | .replicationWait =>
    if s.state = .abort then some (s.getState .doneTest)
    else
      match r with
      | .fail => some ((s.getState .doneTest).setFail .doneTest)
      | .retry => some (s.getState .replicationWait)
      | .ok _ _ => some (s.getState .setSteady)
  | .setSteady => some (s.setState .steady (.steadyTest false))
  | .steadyTest b =>
    if s.state = .steady then some (s.getState (.commitSeen b)) else some (s.getState (.commitTest b))
  | .commitTest b =>
    if s.state = .commitStart then some (s.getState (.commitSeen b)) else some (s.getState .failTest)
  | .commitSeen b => some (s.getState (.steadyFetch (b || s.state = .commitStart)))
  | .steadyFetch b =>
    match r with
    | .fail => some (s.setFail .doneTest)
    | .retry => none
    | .ok 0 _ => some (s.goTo (.abortTest b))
    | .ok (_ + 1) applied =>
      if applied then some (s.receive (.steadyTest b)) else some (s.receive (.abortTest b))
  | .abortTest b =>
    if s.state = .abort then some (s.getState .doneTest) else some (s.getState (.finishTest b))
  | .finishTest b =>
    if s.state = .commitStart ∧ b = true then
      match r with
      | .ok _ _ => some (s.getState .failTest)
      | .fail | .retry => some (s.getState (.sleepTest b))
    else some (s.getState (.sleepTest b))
  | .sleepTest b => some (s.getState (.steadyTest b))
  | .failTest =>
    if s.state = .fail then some (s.getState .doneTest) else some (s.getState .setDone)
  | .setDone => some (s.setDone .doneTest)
  | .doneTest =>
    if s.state = .done then some (s.getState .becomeInactive) else some (s.getState .forgetPending)
  | .forgetPending =>
    some { s with pc := .becomeInactive, pending := s.pending.filter (· ≠ s.current) }
  | .becomeInactive =>
    some { s with
      active := false
      pc := .idle
      history := .ended s.current (decide (s.current ∈ s.pending)) :: s.history }
  | .idle | .terminated => none

end

def throw (s : MigrationDestinationManager) : Option MigrationDestinationManager :=
  if s.pc.inDriver then some (s.setFail .doneTest) else none

def step (a : Action) (s : MigrationDestinationManager) : Option MigrationDestinationManager :=
  if s.pc = .terminated then none
  else
    match a with
    | .start => s.start
    | .abort => s.abort
    | .startCommit => s.startCommit
    | .wake id => s.wake id
    | .timeout id => s.timeout id
    | .thread r => s.thread r
    | .throw => s.throw

end MigrationDestinationManager

end MongolDb.Sharding
