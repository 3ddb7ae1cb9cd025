import MongolDb.Repl.Votes

/-! The role machine of topology_coordinator_impl.cpp. An index of -1 is `none`, and a result of
`none` is an invariant or fassert that fails. -/
namespace MongolDb.Repl

inductive MemberState where
  | startup | primary | secondary | recovering | startup2 | unknown | arbiter | down | rollback
  | removed
  deriving DecidableEq

inductive Role where
  | leader | follower | candidate
  deriving DecidableEq

structure HeartbeatResponse where
  state : Option MemberState
  electionTime : Option Nat
  opTime : Option OpTime
  isElectable : Option Bool
  term : Int
  config : Option ReplicaSetConfig
  deriving DecidableEq

/-- MemberHeartbeatData, as far as the role machine reads it. -/
structure HeartbeatData where
  up : Bool := false
  authIssue : Bool := false
  state : MemberState := .unknown
  electionTime : Nat := 0
  opTime : OpTime := .null
  term : Int := -1
  unelectable : Bool := false
  deriving DecidableEq

namespace HeartbeatData

def setUpValues (r : HeartbeatResponse) (d : HeartbeatData) : HeartbeatData where
  up := true
  authIssue := false
  state := r.state.getD .unknown
  electionTime := r.electionTime.getD d.electionTime
  opTime := r.opTime.getD d.opTime
  term := r.term
  unelectable := r.isElectable == some false

def setDownValues : HeartbeatData := { state := .down }

def setAuthIssue : HeartbeatData := { authIssue := true }

def isUpPrimary (d : HeartbeatData) : Bool := d.up && d.state == .primary

end HeartbeatData

/-- The seconds in the upper half of the timestamp. -/
def OpTime.secs (o : OpTime) : Nat := o.timestamp / 2 ^ 32

/-- What the role machine is told from outside when one of its functions is called. -/
structure Env where
  now : Int
  lastOpApplied : OpTime
  /-- `_maintenanceModeCalls > 0`. -/
  maintenance : Bool
  /-- The vote lease of protocol version 0 is another member's, and has not ended. -/
  votedTooRecently : Bool
  /-- `_rsConfigState == kConfigSteady`. -/
  steady : Bool
  deriving DecidableEq

inductive UnelectableReason where
  | noData | cannotSeeMajority | notInitialized | arbiterIAm | noPriority | stepDownPeriodActive
  | votedTooRecently | notSecondary | notCloseEnoughToLatestOptime | refusesToStand
  deriving DecidableEq

/-- `if (c) result |= reason`. -/
def reasonIf (c : Bool) (reason : UnelectableReason) : List UnelectableReason :=
  if c then [reason] else []

inductive HeartbeatAction where
  | noAction | reconfig | scheduleElection | startElection | stepDownSelf
  | stepDownRemotePrimary (index : Nat)
  | priorityTakeover
  deriving DecidableEq

/-- How a heartbeat came back; `exhausted` says that no retries are left. -/
inductive HeartbeatStatus where
  | ok (response : HeartbeatResponse)
  | unauthorized
  | failed (exhausted : Bool)
  deriving DecidableEq

def HeartbeatStatus.term : HeartbeatStatus → Option Int
  | .ok response => some response.term
  | _ => none

structure DeclareElectionWinnerArgs where
  setName : String
  term : Int
  winnerId : Int
  deriving DecidableEq

structure TopologyCoordinator where
  role : Role := .follower
  electionTime : Nat := 0
  term : Int := OpTime.kUninitializedTerm
  currentPrimaryIndex : Option Nat := none
  selfIndex : Option Nat := none
  rsConfig : Option ReplicaSetConfig := none
  hbdata : List HeartbeatData := []
  stepDownPending : Bool := false
  stepDownUntil : Int := 0
  electionSleepUntil : Int := 0
  followerMode : MemberState := .startup2
  deriving DecidableEq

namespace TopologyCoordinator

-- `removed` says of a config that this process may not serve it: the checks of `getMemberState`
-- on config servers.
variable (removed : ReplicaSetConfig → Bool) (e : Env) (t : TopologyCoordinator)

def members : List MemberConfig := (t.rsConfig.map (·.members)).getD []

def protocolVersion : Int := (t.rsConfig.map (·.protocolVersion)).getD 0

def selfConfig : Option MemberConfig := t.selfIndex.bind (t.members[·]?)

/-- Members other than this one, with their heartbeat data. -/
def others : List (HeartbeatData × Nat) := t.hbdata.zipIdx.filter fun p => some p.2 != t.selfIndex

def hasOnlyAuthErrorUpHeartbeats : Bool :=
  t.others.all (fun p => !p.1.up) && t.others.any (fun p => p.1.authIssue)

def getMemberState : Option MemberState :=
  match t.selfIndex, t.rsConfig with
  | none, none => some .startup
  | none, some _ => some .removed
  | some _, cfg =>
    if cfg.any removed then some .removed
    else if t.role = .leader then
      if t.currentPrimaryIndex = t.selfIndex then some .primary else none
    else if t.selfConfig.any (·.isArbiter) then some .arbiter
    else if (e.maintenance || t.hasOnlyAuthErrorUpHeartbeats) && t.followerMode == .secondary then
      some .recovering
    else some t.followerMode

def iAmPrimary : Option Bool :=
  if t.role = .leader then if t.currentPrimaryIndex = t.selfIndex then some true else none
  else some false

def aMajoritySeemsToBeUp : Bool :=
  let up := (t.members.zip t.hbdata).zipIdx.filter fun p => some p.2 == t.selfIndex || p.1.2.up
  let vUp := (up.map (·.1.1.votes)).sum
  decide ((t.members.countP (·.isVoter) : Int) < vUp * 2)

/-- The newest optime of this member and of those that are up and not removed. -/
def latestKnownOpTime (ourLastOpApplied : OpTime) : OpTime :=
  t.others.foldl (fun latest p =>
    if p.1.up && p.1.state != .removed && !(p.1.opTime.lt latest || p.1.opTime.eq latest) then
      p.1.opTime
    else latest) ourLastOpApplied

def isOpTimeCloseEnoughToLatestToElect (otherOpTime ourLastOpApplied : OpTime) : Bool :=
  decide ((t.latestKnownOpTime ourLastOpApplied).secs ≤ otherOpTime.secs + 10)

/-- `getPriority() <= 0`, false of a NaN. -/
def noPriority (m : MemberConfig) : Bool :=
  m.priority.lt (Binary64.ofNat 0) || m.priority.eq (Binary64.ofNat 0)

def getUnelectableReason (index : Nat) : Option (List UnelectableReason) :=
  match t.members[index]?, t.hbdata[index]? with
  | some member, some d =>
    let result :=
      reasonIf member.isArbiter .arbiterIAm ++ reasonIf (noPriority member) .noPriority ++
      reasonIf (d.state != .secondary) .notSecondary ++
      reasonIf (!t.isOpTimeCloseEnoughToLatestToElect d.opTime e.lastOpApplied)
        .notCloseEnoughToLatestOptime ++
      reasonIf (d.up && d.unelectable) .refusesToStand
    if some index = t.selfIndex then none
    else if result ≠ [] ∨ member.isElectable = true then some result else none
  | _, _ => none

def getMyUnelectableReason : Option (List UnelectableReason) :=
  let first := reasonIf e.lastOpApplied.isNull .noData ++
    reasonIf (!t.aMajoritySeemsToBeUp) .cannotSeeMajority
  match t.selfConfig with
  | none => some (first ++ [.notInitialized])
  | some self => do
    let state ← t.getMemberState removed e
    let primary ← if state = .secondary then some false else t.iAmPrimary
    some (first ++ reasonIf self.isArbiter .arbiterIAm ++ reasonIf (noPriority self) .noPriority ++
      reasonIf (decide (e.now < t.stepDownUntil)) .stepDownPeriodActive ++
      reasonIf e.votedTooRecently .votedTooRecently ++
      reasonIf (state != .secondary && !primary) .notSecondary ++
      reasonIf (!t.isOpTimeCloseEnoughToLatestToElect e.lastOpApplied e.lastOpApplied)
        .notCloseEnoughToLatestOptime)

def checkShouldStandForElection : Option Bool :=
  if t.currentPrimaryIndex ≠ none then some false
  else
    match t.role with
    | .leader => none
    | .candidate => some false
    | .follower => (t.getMyUnelectableReason removed e).map fun reasons =>
      reasons.isEmpty && decide (t.electionSleepUntil ≤ e.now)

def becomeCandidateIfElectable : Option (Bool × TopologyCoordinator) :=
  match t.role with
  | .leader | .candidate => some (false, t)
  | .follower => (t.getMyUnelectableReason removed e).map fun reasons =>
    if reasons.isEmpty then (true, { t with role := .candidate }) else (false, t)

/-- A one-node set whose member stands for election in lieu of heartbeats. -/
def standsAlone : Bool :=
  t.followerMode == .secondary && t.members.length == 1 && t.selfIndex == some 0 &&
    t.selfConfig.any (·.isElectable)

def standIfAlone : TopologyCoordinator := if t.standsAlone then { t with role := .candidate } else t

def prepareFreezeResponse (secs : Int) : Option TopologyCoordinator :=
  if secs = 0 then some { t with stepDownUntil := e.now }.standIfAlone
  else
    t.iAmPrimary.map fun primary =>
      if primary then t
      else { t with stepDownUntil := max t.stepDownUntil (e.now + secs * 1000) }

def becomeCandidateIfStepdownPeriodOverAndSingleNodeSet : Bool × TopologyCoordinator :=
  if e.now < t.stepDownUntil then (false, t)
  else if t.standsAlone then (true, { t with role := .candidate })
  else (false, t)

/-- `_updateHeartbeatDataForReconfig`: a member keeps its data by id and host. -/
def heartbeatDataFor (newConfig : ReplicaSetConfig) (selfIndex : Option Nat) :
    List HeartbeatData :=
  newConfig.members.zipIdx.map fun p =>
    if some p.2 = selfIndex then {}
    else
      match (t.members.zip t.hbdata).find? fun q => q.1.id == p.1.id && q.1.host == p.1.host with
      | some q => q.2
      | none => {}

/-- The term of a new config: it is reset on startup and when the protocol version changes. -/
def termFor (newConfig : ReplicaSetConfig) : Option Int :=
  if t.rsConfig = none ∨ t.protocolVersion ≠ newConfig.protocolVersion then
    if newConfig.protocolVersion = 1 then some OpTime.kInitialTerm
    else if newConfig.protocolVersion = 0 then some OpTime.kUninitializedTerm
    else none
  else some t.term

/-- A leader that is still electable remains primary; anyone else has to detect the primary anew. -/
def roleInNewConfig : TopologyCoordinator :=
  if t.role = .leader ∧ t.selfConfig.any (·.isElectable) then
    { t with currentPrimaryIndex := t.selfIndex }
  else { t with role := .follower, currentPrimaryIndex := none }.standIfAlone

def updateConfig (newConfig : ReplicaSetConfig) (selfIndex : Option Nat) :
    Option TopologyCoordinator :=
  if t.role = .candidate ∨ selfIndex.any (fun i => newConfig.members.length ≤ i) then none
  else
    (t.termFor newConfig).map fun term => TopologyCoordinator.roleInNewConfig { t with
      term
      hbdata := t.heartbeatDataFor newConfig selfIndex
      stepDownPending := false
      rsConfig := some newConfig
      selfIndex }

/-- The other members that are up and primary, in the order of the config. -/
def remotePrimaries : List Nat := (t.others.filter (·.1.isUpPrimary)).map (·.2)

def heartbeatTerm (index : Nat) : Int := (t.hbdata[index]?.map (·.term)).getD (-1)

/-- The remote primary of the latest term, the first of them. -/
def latestPrimary : Option Nat :=
  t.remotePrimaries.foldl (fun best i =>
    match best with
    | none => some i
    | some k => if t.heartbeatTerm k < t.heartbeatTerm i then some i else some k) none

/-- The remote primary that `stepDownIfPending` finds: none if two say so. -/
def onlyPrimary : Option Nat :=
  match t.remotePrimaries with
  | [i] => some i
  | _ => none

/-- A primary whose heartbeat does not say so any more is forgotten. -/
def confirmPrimary (updatedConfigIndex : Nat) : TopologyCoordinator :=
  if t.currentPrimaryIndex = some updatedConfigIndex ∧
      ¬ (t.hbdata[updatedConfigIndex]?).any (·.isUpPrimary) = true then
    { t with currentPrimaryIndex := none }
  else t

def priorityOf (index : Nat) : Binary64 :=
  (t.members[index]?.map (·.priority)).getD (Binary64.ofNat 0)

/-- `_stepDownPending` and the action that goes with setting it. -/
def relinquish : HeartbeatAction × TopologyCoordinator :=
  if t.stepDownPending then (.noAction, t) else (.stepDownSelf, { t with stepDownPending := true })

/-- A primary that cannot see a majority relinquishes. -/
def relinquishIfMinority : Option (HeartbeatAction × TopologyCoordinator) :=
  (t.getMyUnelectableReason removed e).map fun reasons =>
    if UnelectableReason.cannotSeeMajority ∈ reasons then t.relinquish else (.noAction, t)

/-- Phase 2 of both protocol versions: no remote is believed to be primary. Version 0 becomes a
candidate at once, version 1 leaves that to the election timeout. -/
def updateWithoutRemotePrimary (originalState : MemberState) :
    Option (HeartbeatAction × TopologyCoordinator) := do
  if ← t.iAmPrimary then
    t.relinquishIfMinority removed e
  else if t.currentPrimaryIndex ≠ none then none
  else
    let currentState ← t.getMemberState removed e
    if originalState = .recovering ∧ currentState = .secondary then some (.noAction, t)
    else if ← t.checkShouldStandForElection removed e then
      if t.protocolVersion = 0 then
        match ← t.becomeCandidateIfElectable removed e with
        | (true, u) => some (.startElection, u)
        | (false, _) => none
      else some (.scheduleElection, t)
    else some (.noAction, t)

def updatePrimaryFromHBDataV1 (updatedConfigIndex : Nat) (originalState : MemberState) :
    Option (HeartbeatAction × TopologyCoordinator) :=
  if some updatedConfigIndex = t.selfIndex then none
  else
    match t.selfIndex with
    | none => some (.noAction, t)
    | some selfIndex =>
      let t := t.confirmPrimary updatedConfigIndex
      match if t.currentPrimaryIndex = t.selfIndex then none else t.latestPrimary with
      | some remotePrimaryIndex =>
        some (if t.heartbeatTerm remotePrimaryIndex = t.term ∧
            (t.priorityOf remotePrimaryIndex).lt (t.priorityOf selfIndex) = true then
          .priorityTakeover else .noAction,
          { t with currentPrimaryIndex := some remotePrimaryIndex })
      | none => t.updateWithoutRemotePrimary removed e originalState

/-- The loop of `_getHighestPriorityElectableIndex`. -/
def highestPriorityElectable : List Nat → Option Nat → Option (Option Nat)
  | [], best => some best
  | index :: rest, best => do
    let reasons ← if some index = t.selfIndex then t.getMyUnelectableReason removed e
      else t.getUnelectableReason e index
    let higher := best.all fun k => (t.priorityOf k).lt (t.priorityOf index)
    highestPriorityElectable rest (if reasons.isEmpty && higher then some index else best)

def getHighestPriorityElectableIndex : Option (Option Nat) :=
  t.highestPriorityElectable removed e (List.range t.members.length) none

def opTimeOf (index : Nat) : OpTime :=
  if some index = t.selfIndex then e.lastOpApplied
  else (t.hbdata[index]?.map (·.opTime)).getD .null

/-- Milliseconds a vote in protocol version 0 is held. -/
def leaseTime : Int := 30000

/-- Whether the primary, this node or another, gives way to a member of higher priority. -/
def updateForPriority : Option (Option (HeartbeatAction × TopologyCoordinator)) :=
  match t.currentPrimaryIndex with
  | none => some none
  | some primaryIndex => do
    let some highest ← t.getHighestPriorityElectableIndex removed e | some none
    if (t.priorityOf primaryIndex).lt (t.priorityOf highest) &&
        t.isOpTimeCloseEnoughToLatestToElect (t.opTimeOf e highest) e.lastOpApplied then
      if ← t.iAmPrimary then
        if t.stepDownPending then some (some (.noAction, t))
        else
          let sleep := e.now + leaseTime + (t.rsConfig.map (·.heartbeatInterval)).getD 0
          some (some (.stepDownSelf, { t with
            stepDownPending := true
            electionSleepUntil := max t.electionSleepUntil sleep }))
      else if some highest = t.selfIndex ∧ t.electionSleepUntil ≤ e.now then
        some (some (.stepDownRemotePrimary primaryIndex, { t with currentPrimaryIndex := none }))
      else some none
    else some none

/-- One remote primary in protocol version 0; if this node is primary too, the older gives way. -/
def updateWithRemotePrimary (remotePrimaryIndex : Nat) :
    Option (HeartbeatAction × TopologyCoordinator) :=
  if t.currentPrimaryIndex = some remotePrimaryIndex then some (.noAction, t)
  else
    t.iAmPrimary.map fun primary =>
      if primary then
        if t.electionTime < (t.hbdata[remotePrimaryIndex]?.map (·.electionTime)).getD 0 then
          t.relinquish
        else (.stepDownRemotePrimary remotePrimaryIndex, t)
      else (.noAction, { t with currentPrimaryIndex := some remotePrimaryIndex })

def updatePrimaryFromHBData (updatedConfigIndex : Nat) (originalState : MemberState) :
    Option (HeartbeatAction × TopologyCoordinator) :=
  if some updatedConfigIndex = t.selfIndex then none
  else if t.selfIndex = none then some (.noAction, t)
  else
    let t := t.confirmPrimary updatedConfigIndex
    (t.updateForPriority removed e).bind fun
      | some result => some result
      | none =>
        match t.remotePrimaries with
        | [] => t.updateWithoutRemotePrimary removed e originalState
        | [remotePrimaryIndex] => t.updateWithRemotePrimary remotePrimaryIndex
        | _ => some (.noAction, t)

def findMemberIndexByHostAndPort (target : HostAndPort) : Option Nat :=
  t.members.findIdx? (·.host == target)

def findMemberIndexByConfigId (id : Int) : Option Nat := t.members.findIdx? (·.id == id)

/-- What a heartbeat does to the data of its target. -/
def heartbeatValues (status : HeartbeatStatus) (d : HeartbeatData) : HeartbeatData :=
  match status with
  | .ok response => d.setUpValues response
  | .unauthorized => .setAuthIssue
  | .failed exhausted => if exhausted then .setDownValues else d

def setHeartbeatData (index : Nat) (f : HeartbeatData → HeartbeatData) : TopologyCoordinator :=
  { t with hbdata := t.hbdata.modify index f }

/-- Whether a heartbeat brings a config newer than the one in use. -/
def hasNewerConfig (status : HeartbeatStatus) : Bool :=
  match status with
  | .ok response =>
    response.config.any fun cfg => decide ((t.rsConfig.map (·.version)).getD (-2) < cfg.version)
  | _ => false

def processHeartbeatResponse (target : HostAndPort) (status : HeartbeatStatus) :
    Option (HeartbeatAction × TopologyCoordinator) := do
  let originalState ← t.getMemberState removed e
  if t.hasNewerConfig status then some (.reconfig, t)
  else
    match t.findMemberIndexByHostAndPort target with
    | none => some (.noAction, t)
    | some memberIndex =>
      if some memberIndex = t.selfIndex then none
      else
        let u := t.setHeartbeatData memberIndex (heartbeatValues status)
        if t.protocolVersion = 0 then
          u.updatePrimaryFromHBData removed e memberIndex originalState
        else u.updatePrimaryFromHBDataV1 removed e memberIndex originalState

def setMemberAsDown (memberIndex : Nat) : Option (HeartbeatAction × TopologyCoordinator) :=
  if some memberIndex = t.selfIndex ∨ t.currentPrimaryIndex ≠ t.selfIndex then none
  else (t.setHeartbeatData memberIndex fun _ => .setDownValues).relinquishIfMinority removed e

def processWinElection (electionOpTime : Nat) : Option TopologyCoordinator :=
  if t.role = .candidate then
    some { t with
      electionTime := electionOpTime, role := .leader, currentPrimaryIndex := t.selfIndex }
  else none

def processLoseElection : Option TopologyCoordinator :=
  if t.role = .candidate then some { t with electionTime := 0, role := .follower } else none

def stepDownSelfAndReplaceWith (newPrimary : Option Nat) : Option TopologyCoordinator :=
  if t.role = .leader ∧ t.selfIndex ≠ none ∧ t.selfIndex ≠ newPrimary ∧
      t.selfIndex = t.currentPrimaryIndex then
    some { t with currentPrimaryIndex := newPrimary, role := .follower, stepDownPending := false }
  else none

/-- The loop of `stepDown`: whether a member can take over, looking no further than the first. -/
def canTakeOver : List Nat → Option Bool
  | [] => some false
  | index :: rest =>
    if some index = t.selfIndex then canTakeOver rest
    else do
      let reasons ← t.getUnelectableReason e index
      if reasons.isEmpty && !(t.opTimeOf e index).lt e.lastOpApplied then some true
      else canTakeOver rest

def canStepDown (force : Bool) : Option Bool :=
  if force then some true else t.canTakeOver e (List.range t.members.length)

def stepDown (deadline : Int) (force : Bool) : Option (Bool × TopologyCoordinator) := do
  if ← t.canStepDown e force then
    let u ← { t with stepDownUntil := deadline }.stepDownSelfAndReplaceWith none
    some (true, u)
  else some (false, t)

def stepDownIfPending : Option (Bool × TopologyCoordinator) :=
  if t.stepDownPending then (t.stepDownSelfAndReplaceWith t.onlyPrimary).map fun u => (true, u)
  else some (false, t)

def setFollowerMode (newMode : MemberState) : Option TopologyCoordinator :=
  if t.role = .follower ∧ newMode ∈ [.recovering, .rollback, .secondary, .startup2] then
    some { t with followerMode := newMode }.standIfAlone
  else none

def updateTerm (term : Int) : Bool × TopologyCoordinator :=
  if term ≤ t.term then (false, t)
  else (true, { t with
    electionSleepUntil := e.now + (t.rsConfig.map (·.electionTimeoutPeriod)).getD 0, term })

/-- Whether `processReplSetDeclareElectionWinner` answers with an error. -/
def refusesWinner (args : DeclareElectionWinnerArgs) : Bool :=
  args.setName != (t.rsConfig.map (·.replSetName)).getD "" || decide (args.term < t.term) ||
    (args.term == t.term &&
      t.currentPrimaryIndex.any fun k => (t.members[k]?).all (·.id != args.winnerId))

def processReplSetDeclareElectionWinner (args : DeclareElectionWinnerArgs) : TopologyCoordinator :=
  if t.refusesWinner args then t
  else { t with currentPrimaryIndex := t.findMemberIndexByConfigId args.winnerId }

end TopologyCoordinator
end MongolDb.Repl
