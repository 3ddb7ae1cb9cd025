import MongolDb.Repl.Votes

/-! A replica set member as a voter and a candidate of protocol version 1: every step is one
callback of its executor, or one write of the last vote document
(replication_coordinator_impl_elect_v1.cpp, replication_coordinator_impl.cpp). -/
namespace MongolDb.Repl

/-- A remote command that a VoteRequester has scheduled. -/
structure Rpc where
  candidate : Nat
  serial : Nat
  target : HostAndPort
  deriving DecidableEq

/-- How far a client thread is in `processReplSetRequestVotes`. -/
inductive Stage where
  /-- `updateTerm` has run. -/
  | updated
  /-- `_processReplSetRequestVotes_finish` has run. -/
  | answered (response : RequestVotesResponse)
  /-- `storeLocalLastVoteDocument` has returned, with success or without. -/
  | stored (response : RequestVotesResponse) (ok : Bool)
  deriving DecidableEq

structure Thread where
  rpc : Rpc
  args : RequestVotesArgs
  stage : Stage
  deriving DecidableEq

/-- How far the node's own election is. -/
inductive Election where
  | idle
  | dryRun (originalTerm : Int) (requester : VoteRequester)
  /-- `_writeLastVoteForMyElection` is scheduled. -/
  | writingLastVote (lastVote : LastVote)
  /-- `_startVoteRequester` is scheduled. -/
  | startingVoteRequester (newTerm : Int)
  | requestingVotes (newTerm : Int) (requester : VoteRequester)
  deriving DecidableEq

structure Node where
  votes : VoteState
  /-- The last vote document of the local database. -/
  document : Option LastVote
  threads : List Thread
  election : Election
  nextSerial : Nat
  deriving DecidableEq

/-- What a step does that the network, or the history of the node, sees. -/
inductive Event where
  | requested (rpc : Rpc) (args : RequestVotesArgs)
  /-- `_lastVote` is set for a real request, or for the node itself. -/
  | voted (term : Int) (candidateIndex : Int)
  /-- The reply to a request. The response is in it even when the command has failed. -/
  | replied (rpc : Rpc) (args : RequestVotesArgs) (response : RequestVotesResponse) (ok : Bool)
  | storedOwnVote (lastVote : LastVote)
  /-- The winning branch of `_onVoteRequestComplete`. -/
  | won (term : Int)
  deriving DecidableEq

inductive Action where
  /-- A term arrives with a heartbeat or a command. -/
  | updateTerm (term : Int)
  | receive (rpc : Rpc) (args : RequestVotesArgs)
  | finish (thread : Thread) (lastAppliedOpTime : OpTime)
  | store (thread : Thread) (ok : Bool)
  | reply (thread : Thread)
  | startElectSelf (lastOpTimeApplied : OpTime)
  | processResponse (serial : Nat) (target : HostAndPort) (response : ResponseStatus)
  | cancel
  | writeLastVote (ok : Bool)
  | startVoteRequester (lastOpTime : OpTime)
  deriving DecidableEq

namespace Node

variable (cfg : ReplicaSetConfig) (self : Nat)

def start (lastOpTime : OpTime) (document : Option LastVote) : Node where
  votes := .finishLoadLocalConfig cfg lastOpTime document
  document := document
  threads := []
  election := .idle
  nextSerial := 0

/-- The step of `processReplSetRequestVotes` that updates the term. -/
def receive (rpc : Rpc) (args : RequestVotesArgs) (n : Node) : Option Node :=
  if cfg.isV1ElectionProtocol then
    some { n with
      votes := n.votes.updateTermInCallback cfg args.term
      threads := ⟨rpc, args, .updated⟩ :: n.threads }
  else none

/-- `_processReplSetRequestVotes_finish`. -/
def finish (thread : Thread) (lastAppliedOpTime : OpTime) (n : Node) :
    Option (Node × List Event) :=
  if thread ∈ n.threads ∧ thread.stage = .updated then
    let (response, votes) :=
      n.votes.processReplSetRequestVotes cfg thread.args lastAppliedOpTime
    some
      ({ n with
          votes
          threads := { thread with stage := .answered response } :: n.threads.erase thread },
        if response.voteGranted && !thread.args.dryRun then
          [.voted thread.args.term thread.args.candidateIndex] else [])
  else none

/-- A granted vote is stored, dry run or not, before it is returned. -/
def store (thread : Thread) (ok : Bool) (n : Node) : Option Node :=
  match thread.stage with
  | .answered response =>
    if thread ∈ n.threads ∧ response.voteGranted = true then
      some { n with
        document := if ok then some ⟨thread.args.candidateIndex, thread.args.term⟩ else n.document
        threads := { thread with stage := .stored response ok } :: n.threads.erase thread }
    else none
  | _ => none

def returned (thread : Thread) (response : RequestVotesResponse) (ok : Bool) (n : Node) :
    Option (Node × List Event) :=
  if thread ∈ n.threads then
    some ({ n with threads := n.threads.erase thread },
      [.replied thread.rpc thread.args response ok])
  else none

def reply (thread : Thread) (n : Node) : Option (Node × List Event) :=
  match thread.stage with
  | .updated => none
  | .answered response => if response.voteGranted then none else n.returned thread response true
  | .stored response ok => n.returned thread response ok

def lose (n : Node) : Node × List Event := ({ n with election := .idle }, [])

def onDryRunComplete (originalTerm : Int) (requester : VoteRequester) (n : Node) :
    Node × List Event :=
  if n.votes.term ≠ originalTerm then n.lose
  else
    match requester.algorithm.getResult cfg with
    | .kSuccessfullyElected =>
      let votes := (n.votes.updateTermInCallback cfg (originalTerm + 1)).voteForMyselfV1 self
      ({ n with votes, election := .writingLastVote ⟨self, originalTerm + 1⟩ },
        [.voted votes.lastVote.term votes.lastVote.candidateIndex])
    | .kStaleTerm | .kInsufficientVotes => n.lose

def onVoteRequestComplete (originalTerm : Int) (requester : VoteRequester) (n : Node) :
    Node × List Event :=
  if n.votes.term ≠ originalTerm then n.lose
  else
    match requester.algorithm.getResult cfg with
    | .kSuccessfullyElected => ({ n with election := .idle }, [.won n.votes.term])
    | .kStaleTerm | .kInsufficientVotes => n.lose

/-- The two elections that a VoteRequester runs, by what is bound to `_onCompletion`. -/
inductive Round where
  | dryRun (originalTerm : Int)
  | real (newTerm : Int)
  deriving DecidableEq

def Round.election : Round → VoteRequester → Election
  | .dryRun originalTerm, r => .dryRun originalTerm r
  | .real newTerm, r => .requestingVotes newTerm r

def onCompletion (round : Round) (requester : VoteRequester) (n : Node) : Node × List Event :=
  match round with
  | .dryRun originalTerm => n.onDryRunComplete cfg self originalTerm requester
  | .real newTerm => n.onVoteRequestComplete cfg newTerm requester

/-- `_signalSufficientResponsesReceived` if there are enough responses. -/
def checkResponses (round : Round) (requester : VoteRequester) (n : Node) : Node × List Event :=
  if requester.algorithm.hasReceivedSufficientResponses cfg then
    n.onCompletion cfg self round requester
  else ({ n with election := round.election requester }, [])

/-- `VoteRequester::start`, always with the current term. -/
def startRequester (round : Round) (dryRun : Bool) (lastOplogEntry : OpTime) (n : Node) :
    Node × List Event :=
  let requester : VoteRequester :=
    .start cfg n.nextSerial self n.votes.term dryRun lastOplogEntry
  let (n, events) :=
    { n with nextSerial := n.nextSerial + 1 }.checkResponses cfg self round requester
  (n, requester.callbacks.map (fun target =>
      .requested ⟨self, requester.serial, target⟩ (requester.algorithm.requestVotesCmd cfg))
    ++ events)

def startElectSelf (lastOpTimeApplied : OpTime) (n : Node) : Option (Node × List Event) :=
  match n.election, cfg.members[self]? with
  | .idle, some member =>
    if cfg.isV1ElectionProtocol && member.isElectable then
      if lastOpTimeApplied.eq .null then some n.lose
      else some (n.startRequester cfg self (.dryRun n.votes.term) true lastOpTimeApplied)
    else none
  | _, _ => none

def round? (n : Node) : Option (Round × VoteRequester) :=
  match n.election with
  | .dryRun originalTerm r => some (.dryRun originalTerm, r)
  | .requestingVotes newTerm r => some (.real newTerm, r)
  | .idle | .writingLastVote _ | .startingVoteRequester _ => none

def processResponse (serial : Nat) (target : HostAndPort) (response : ResponseStatus) (n : Node) :
    Option (Node × List Event) :=
  match n.round? with
  | none => none
  | some (round, r) =>
    if r.serial = serial ∧ target ∈ r.callbacks then
      some (n.checkResponses cfg self round (r.processResponse target response))
    else none

/-- `VoteRequester::cancel`, which completes the round with the votes it has. -/
def cancel (n : Node) : Option (Node × List Event) :=
  match n.round? with
  | none => none
  | some (round, r) => some (n.onCompletion cfg self round r)

def writeLastVote (ok : Bool) (n : Node) : Option (Node × List Event) :=
  match n.election with
  | .writingLastVote lastVote =>
    if ok then
      some ({ n with
          document := some lastVote
          election := .startingVoteRequester lastVote.term }, [.storedOwnVote lastVote])
    else some n.lose
  | _ => none

/-- `_startVoteRequester`: what is requested is the current term, not `newTerm`. -/
def startVoteRequester (lastOpTime : OpTime) (n : Node) : Option (Node × List Event) :=
  match n.election with
  | .startingVoteRequester newTerm =>
    some (n.startRequester cfg self (.real newTerm) false lastOpTime)
  | _ => none

def step : Action → Node → Option (Node × List Event)
  | .updateTerm term, n =>
    some ({ n with votes := n.votes.updateTermInCallback cfg term }, [])
  | .receive rpc args, n => (n.receive cfg rpc args).map (·, [])
  | .finish thread lastAppliedOpTime, n => n.finish cfg thread lastAppliedOpTime
  | .store thread ok, n => (n.store thread ok).map (·, [])
  | .reply thread, n => n.reply thread
  | .startElectSelf lastOpTimeApplied, n => n.startElectSelf cfg self lastOpTimeApplied
  | .processResponse serial target response, n =>
    n.processResponse cfg self serial target response
  | .cancel, n => n.cancel cfg self
  | .writeLastVote ok, n => n.writeLastVote ok
  | .startVoteRequester lastOpTime, n => n.startVoteRequester cfg self lastOpTime

end Node
end MongolDb.Repl
