import MongolDb.Repl.TopologyCoordinator
import MongolDb.Lib.Reach

/-! The callbacks of replication_coordinator_impl.cpp that call the topology coordinator, each with
what it may be told. A callback that schedules another ends there: the other may run at any time. -/
namespace MongolDb.Repl

/-- Where a failed invariant or fassert stands. -/
inductive Abort where
  | topologyCoordinator
  | replicationCoordinator
  deriving DecidableEq

/-- The calls that can change the topology coordinator. -/
inductive Call where
  | updateConfig | processHeartbeatResponse | setMemberAsDown | becomeCandidateIfElectable
  | processWinElection | processLoseElection | stepDown | stepDownIfPending | prepareForStepDown
  | prepareFreezeResponse | becomeCandidateIfStepdownPeriodOverAndSingleNodeSet | setFollowerMode
  | processReplSetDeclareElectionWinner | updateTerm | setElectionSleepUntil
  deriving DecidableEq

structure CallRecord where
  call : Call
  before : TopologyCoordinator
  after : TopologyCoordinator
  deriving DecidableEq

/-- An election in progress: which of `_freshnessChecker`, `_electCmdRunner` and `_voteRequester`
are set, and what their callbacks are bound to. -/
inductive Candidacy where
  | freshnessCheck
  | electCmd
  | dryRun (originalTerm : Int)
  | voteRequest (originalTerm : Int)
  deriving DecidableEq

/-- PostMemberStateUpdateAction; the two actions that leave the topology coordinator alone are
`other`. -/
inductive PostAction where
  | none | other | winElection | startSingleNodeElection
  deriving DecidableEq

structure Coordinator where
  topCoord : TopologyCoordinator := {}
  /-- `_memberState`, the copy of the topology coordinator's. -/
  memberState : MemberState := .startup
  candidacy : Option Candidacy := none
  calls : List CallRecord := []
  deriving DecidableEq

/-- The modes `setFollowerMode` is asked for. -/
inductive FollowerMode where
  | recovering | rollback | secondary | startup2
  deriving DecidableEq

def FollowerMode.toMemberState : FollowerMode → MemberState
  | .recovering => .recovering
  | .rollback => .rollback
  | .secondary => .secondary
  | .startup2 => .startup2

/-- What the executor runs. `sleepUntil` is the pause after an election that is lost by a tie or for
want of votes. -/
inductive Callback where
  | heartbeatResponse (e : Env) (target : HostAndPort) (status : HeartbeatStatus)
      (metadataTerm : Option Int)
  | livenessTimeout (e : Env) (memberIndex : Nat)
  | updateTerm (e : Env) (term : Int)
  | electionTimeout (e : Env)
  | dryRunComplete (e : Env) (elected : Bool)
  | voteRequestAbandoned
  | voteRequestComplete (e : Env) (elected : Bool) (electionOpTime : Nat)
  | freshnessCheckComplete (fresh : Bool) (sleepUntil : Option Int)
  | electCmdRunnerComplete (e : Env) (elected : Bool) (sleepUntil : Option Int)
      (electionOpTime : Nat)
  | recoverFromElectionTie (e : Env)
  | stepDownContinue (e : Env) (deadline : Int) (force : Bool)
  | stepDownFinish (e : Env)
  | handleTimePassing (e : Env) (electionOpTime : Nat)
  | freeze (e : Env) (secs : Int) (electionOpTime : Nat)
  | setFollowerMode (e : Env) (mode : FollowerMode) (electionOpTime : Nat)
  | declareElectionWinner (args : DeclareElectionWinnerArgs)
  | setCurrentRSConfig (e : Env) (newConfig : ReplicaSetConfig)
      (myIndex : Option (Fin newConfig.members.length)) (electionOpTime : Nat)

namespace Coordinator

variable {β : Type} (removed : ReplicaSetConfig → Bool) (e : Env) (s : Coordinator)

def isV1ElectionProtocol : Bool := s.topCoord.protocolVersion == 1

def record (call : Call) (t : TopologyCoordinator) : Coordinator :=
  { s with topCoord := t, calls := s.calls ++ [⟨call, s.topCoord, t⟩] }

/-- One call of the topology coordinator. -/
def perform (call : Call) (f : TopologyCoordinator → Option (β × TopologyCoordinator)) :
    Except Abort (β × Coordinator) :=
  match f s.topCoord with
  | none => .error .topologyCoordinator
  | some (result, t) => .ok (result, s.record call t)

def performUnit (call : Call) (f : TopologyCoordinator → Option TopologyCoordinator) :
    Except Abort Coordinator :=
  match f s.topCoord with
  | none => .error .topologyCoordinator
  | some t => .ok (s.record call t)

def getMemberState : Except Abort MemberState :=
  match s.topCoord.getMemberState removed e with
  | none => .error .topologyCoordinator
  | some state => .ok state

/-- `invariant` of the replication coordinator itself. -/
def invariant (c : Bool) : Except Abort Unit :=
  if c then .ok () else .error .replicationCoordinator

def isSingleNode : Bool :=
  s.topCoord.members.length == 1 && s.topCoord.selfIndex == some 0 &&
    s.topCoord.selfConfig.any (·.isElectable)

/-- The action for a candidate of a one-node set. -/
def singleNodeAction : Except Abort PostAction := do
  invariant s.isSingleNode
  if s.isV1ElectionProtocol then .ok .startSingleNodeElection else .ok .winElection

def updateMemberStateFromTopologyCoordinator : Except Abort (PostAction × Coordinator) := do
  let newState ← s.getMemberState removed e
  if newState = s.memberState then
    if s.topCoord.role = .candidate then return (← s.singleNodeAction, s)
    else return (.none, s)
  else
    let action ← if newState = .secondary ∧ s.topCoord.role = .candidate then s.singleNodeAction
      else .ok .other
    return (action, { s with memberState := newState })

/-- What the loss guards of both protocol versions do. -/
def loseElection : Except Abort Coordinator :=
  { s with candidacy := none }.performUnit .processLoseElection
    TopologyCoordinator.processLoseElection

/-- `_startElectSelf` and `_startElectSelfV1` differ in the first part of the election, and in how
they see that nothing has been applied. -/
def startElection (first : Candidacy) (nothingApplied : Bool) : Except Abort Coordinator := do
  invariant s.candidacy.isNone
  if !e.steady then
    s.performUnit .processLoseElection TopologyCoordinator.processLoseElection
  else
    invariant (s.topCoord.selfConfig.any (·.isElectable))
    let s := { s with candidacy := some first }
    if nothingApplied then s.loseElection else .ok s

def startElectSelf : Except Abort Coordinator :=
  s.startElection e .freshnessCheck e.lastOpApplied.isNull

def startElectSelfV1 : Except Abort Coordinator :=
  s.startElection e (.dryRun s.topCoord.term) (e.lastOpApplied.eq .null)

/-- `kActionWinElection`; the node is leader then, so no further election starts. -/
def winElection (electionOpTime : Nat) : Except Abort Coordinator := do
  let s ← s.performUnit .processWinElection (·.processWinElection electionOpTime)
  let (action, s) ← s.updateMemberStateFromTopologyCoordinator removed e
  invariant (action != .winElection)
  if action = .startSingleNodeElection then s.startElectSelfV1 e else .ok s

def performPostMemberStateUpdateAction (electionOpTime : Nat) (action : PostAction) :
    Except Abort Coordinator :=
  match action with
  | .none | .other => .ok s
  | .winElection => s.winElection removed e electionOpTime
  | .startSingleNodeElection => s.startElectSelfV1 e

/-- Both of the above. -/
def updateMemberState (electionOpTime : Nat) : Except Abort Coordinator := do
  let (action, s) ← s.updateMemberStateFromTopologyCoordinator removed e
  s.performPostMemberStateUpdateAction removed e electionOpTime action

/-- `_updateTerm_incallback`; `_stepDownStart` only schedules `stepDownFinish`. -/
def updateTermInCallback (term : Int) : Except Abort Coordinator :=
  if s.isV1ElectionProtocol then do
    let (updated, s) ← s.perform .updateTerm fun t => some (t.updateTerm e term)
    if updated && s.memberState == .primary then
      s.performUnit .prepareForStepDown fun t => some { t with stepDownPending := true }
    else .ok s
  else .ok s

def updateTermIfGiven (term : Option Int) : Except Abort Coordinator :=
  match term with
  | some term => s.updateTermInCallback e term
  | none => .ok s

def handleHeartbeatResponseAction (action : HeartbeatAction) : Except Abort Coordinator :=
  match action with
  | .noAction => do
    if (← s.getMemberState removed e) ≠ s.memberState then s.updateMemberState removed e 0
    else .ok s
  | .startElection => s.startElectSelf e
  | _ => .ok s

/-- Heartbeats go to the other members only, and are cancelled with the config they belong to. -/
def isHeartbeatTarget (target : HostAndPort) : Bool :=
  (s.topCoord.findMemberIndexByHostAndPort target).all fun i => some i != s.topCoord.selfIndex

def handleHeartbeatResponse (target : HostAndPort) (status : HeartbeatStatus)
    (metadataTerm : Option Int) : Except Abort Coordinator :=
  if s.isHeartbeatTarget target then do
    let s ← s.updateTermIfGiven e metadataTerm
    let s ← s.updateTermIfGiven e status.term
    let (action, s) ← s.perform .processHeartbeatResponse fun t =>
      t.processHeartbeatResponse removed e target status
    s.handleHeartbeatResponseAction removed e action
  else .ok s

def handleLivenessTimeout (memberIndex : Nat) : Except Abort Coordinator :=
  if s.isV1ElectionProtocol && s.memberState == .primary &&
      some memberIndex != s.topCoord.selfIndex then do
    let (action, s) ← s.perform .setMemberAsDown fun t => t.setMemberAsDown removed e memberIndex
    s.handleHeartbeatResponseAction removed e action
  else .ok s

def startElectSelfIfEligibleV1 : Except Abort Coordinator :=
  if s.isV1ElectionProtocol then do
    let (stands, s) ← s.perform .becomeCandidateIfElectable fun t =>
      t.becomeCandidateIfElectable removed e
    if stands then s.startElectSelfV1 e else .ok s
  else .ok s

def onDryRunComplete (elected : Bool) : Except Abort Coordinator :=
  match s.candidacy with
  | some (.dryRun originalTerm) =>
    if s.topCoord.term = originalTerm ∧ elected then do
      let s ← s.updateTermInCallback e (originalTerm + 1)
      .ok { s with candidacy := some (.voteRequest (originalTerm + 1)) }
    else s.loseElection
  | _ => .ok s

/-- The last vote is not stored, or a callback of the election is cancelled. -/
def onVoteRequestAbandoned : Except Abort Coordinator :=
  match s.candidacy with
  | some (.voteRequest _) => s.loseElection
  | _ => .ok s

def onVoteRequestComplete (elected : Bool) (electionOpTime : Nat) : Except Abort Coordinator :=
  match s.candidacy with
  | some (.voteRequest originalTerm) =>
    if s.topCoord.term = originalTerm ∧ elected then do
      let s ← s.winElection removed e electionOpTime
      .ok { s with candidacy := none }
    else s.loseElection
  | _ => .ok s

def setElectionSleepUntil (sleepUntil : Option Int) : Except Abort Coordinator :=
  match sleepUntil with
  | some time => s.performUnit .setElectionSleepUntil fun t =>
      some { t with electionSleepUntil := max t.electionSleepUntil time }
  | none => .ok s

/-- `fresh` says that the check passed and that the node got its own vote. -/
def onFreshnessCheckComplete (fresh : Bool) (sleepUntil : Option Int) : Except Abort Coordinator :=
  match s.candidacy with
  | some .freshnessCheck =>
    if fresh then .ok { s with candidacy := some .electCmd }
    else do
      let s ← s.setElectionSleepUntil sleepUntil
      s.loseElection
  | _ => .ok s

def onElectCmdRunnerComplete (elected : Bool) (sleepUntil : Option Int) (electionOpTime : Nat) :
    Except Abort Coordinator :=
  match s.candidacy with
  | some .electCmd =>
    if elected then { s with candidacy := none }.winElection removed e electionOpTime
    else do
      let s ← s.setElectionSleepUntil sleepUntil
      s.loseElection
  | _ => .ok s

def recoverFromElectionTie : Except Abort Coordinator :=
  match s.topCoord.checkShouldStandForElection removed e with
  | none => .error .topologyCoordinator
  | some false => .ok s
  | some true => do
    let (stands, s) ← s.perform .becomeCandidateIfElectable fun t =>
      t.becomeCandidateIfElectable removed e
    invariant stands
    s.startElectSelf e

def stepDownContinue (deadline : Int) (force : Bool) : Except Abort Coordinator :=
  if s.topCoord.role = .leader ∧ e.now < deadline then do
    let (steppedDown, s) ← s.perform .stepDown fun t => t.stepDown e deadline force
    if steppedDown then s.updateMemberState removed e 0 else .ok s
  else .ok s

def stepDownFinish : Except Abort Coordinator := do
  let (_, s) ← s.perform .stepDownIfPending (·.stepDownIfPending)
  s.updateMemberState removed e 0

def handleTimePassing (electionOpTime : Nat) : Except Abort Coordinator := do
  let (stands, s) ← s.perform .becomeCandidateIfStepdownPeriodOverAndSingleNodeSet fun t =>
    some (t.becomeCandidateIfStepdownPeriodOverAndSingleNodeSet e)
  if stands then s.winElection removed e electionOpTime else .ok s

def processReplSetFreezeFinish (secs : Int) (electionOpTime : Nat) : Except Abort Coordinator := do
  let s ← s.performUnit .prepareFreezeResponse (·.prepareFreezeResponse e secs)
  if s.topCoord.role = .candidate then s.winElection removed e electionOpTime else .ok s

/-- A candidate cancels its election and tries again when that has finished. -/
def setFollowerModeFinish (newState : MemberState) (electionOpTime : Nat) :
    Except Abort Coordinator := do
  if (← s.getMemberState removed e) = newState then .ok s
  else
    match s.topCoord.role with
    | .leader => .ok s
    | .candidate => do
      invariant s.candidacy.isSome
      .ok s
    | .follower => do
      let s ← s.performUnit .setFollowerMode (·.setFollowerMode newState)
      s.updateMemberState removed e electionOpTime

def processReplSetDeclareElectionWinner (args : DeclareElectionWinnerArgs) :
    Except Abort Coordinator :=
  if s.isV1ElectionProtocol then
    s.performUnit .processReplSetDeclareElectionWinner fun t =>
      some (t.processReplSetDeclareElectionWinner args)
  else .ok s

def setCurrentRSConfig (newConfig : ReplicaSetConfig) (myIndex : Option Nat)
    (electionOpTime : Nat) : Except Abort Coordinator := do
  let s ← s.performUnit .updateConfig (·.updateConfig newConfig myIndex)
  s.updateMemberState removed e electionOpTime

def exec : Callback → Except Abort Coordinator
  | .heartbeatResponse e target status metadataTerm =>
    s.handleHeartbeatResponse removed e target status metadataTerm
  | .livenessTimeout e memberIndex => s.handleLivenessTimeout removed e memberIndex
  | .updateTerm e term => s.updateTermInCallback e term
  | .electionTimeout e => s.startElectSelfIfEligibleV1 removed e
  | .dryRunComplete e elected => s.onDryRunComplete e elected
  | .voteRequestAbandoned => s.onVoteRequestAbandoned
  | .voteRequestComplete e elected electionOpTime =>
    s.onVoteRequestComplete removed e elected electionOpTime
  | .freshnessCheckComplete fresh sleepUntil => s.onFreshnessCheckComplete fresh sleepUntil
  | .electCmdRunnerComplete e elected sleepUntil electionOpTime =>
    s.onElectCmdRunnerComplete removed e elected sleepUntil electionOpTime
  | .recoverFromElectionTie e => s.recoverFromElectionTie removed e
  | .stepDownContinue e deadline force => s.stepDownContinue removed e deadline force
  | .stepDownFinish e => s.stepDownFinish removed e
  | .handleTimePassing e electionOpTime => s.handleTimePassing removed e electionOpTime
  | .freeze e secs electionOpTime => s.processReplSetFreezeFinish removed e secs electionOpTime
  | .setFollowerMode e mode electionOpTime =>
    s.setFollowerModeFinish removed e mode.toMemberState electionOpTime
  | .declareElectionWinner args => s.processReplSetDeclareElectionWinner args
  | .setCurrentRSConfig e newConfig myIndex electionOpTime =>
    s.setCurrentRSConfig removed e newConfig (myIndex.map Fin.val) electionOpTime

def step (a : Callback) (s : Coordinator) : Option Coordinator := (s.exec removed a).toOption

end Coordinator
end MongolDb.Repl
