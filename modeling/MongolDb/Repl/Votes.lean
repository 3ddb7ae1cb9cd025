import MongolDb.Repl.Config
import MongolDb.Repl.OpTime

/-! Votes in elections of protocol version 1: the voter's part of topology_coordinator_impl.cpp, and
the tally of vote_requester.cpp as scatter_gather_runner.cpp drives it. -/
namespace MongolDb.Repl

structure LastVote where
  candidateIndex : Int := -1
  term : Int := -1
  deriving DecidableEq

structure RequestVotesArgs where
  setName : String
  dryRun : Bool
  term : Int
  candidateIndex : Int
  configVersion : Int
  lastCommittedOp : OpTime
  deriving DecidableEq

structure RequestVotesResponse where
  term : Int := -1
  voteGranted : Bool := false
  reason : String := ""
  deriving DecidableEq

/-- The fields of TopologyCoordinatorImpl that votes depend on. -/
structure VoteState where
  term : Int
  lastVote : LastVote
  deriving DecidableEq

variable (cfg : ReplicaSetConfig)

namespace VoteState

def updateTerm (term : Int) (s : VoteState) : VoteState :=
  if term ≤ s.term then s else { s with term }

/-- Why a vote is refused, in the order of the source's checks. -/
def refusal (args : RequestVotesArgs) (lastAppliedOpTime : OpTime)
    (s : VoteState) : Option String :=
  if args.term < s.term then some "candidate's term is lower than mine"
  else if args.configVersion ≠ cfg.version then some "candidate's config version differs from mine"
  else if args.setName ≠ cfg.replSetName then some "candidate's set name differs from mine"
  else if args.lastCommittedOp.lt lastAppliedOpTime then
    some "candidate's data is staler than mine"
  else if !args.dryRun && s.lastVote.term = args.term then
    some "already voted for another candidate this term"
  else none

def processReplSetRequestVotes (args : RequestVotesArgs)
    (lastAppliedOpTime : OpTime) (s : VoteState) : RequestVotesResponse × VoteState :=
  match s.refusal cfg args lastAppliedOpTime with
  | some reason => (⟨s.term, false, reason⟩, s)
  | none =>
    (⟨s.term, true, ""⟩,
      if args.dryRun then s else { s with lastVote := ⟨args.candidateIndex, args.term⟩ })

def voteForMyselfV1 (selfIndex : Nat) (s : VoteState) : VoteState :=
  { s with lastVote := ⟨selfIndex, s.term⟩ }

def updateTermInCallback (term : Int) (s : VoteState) : VoteState :=
  if cfg.isV1ElectionProtocol then s.updateTerm term else s

/-- `_startLoadLocalConfig` and `_finishLoadLocalConfig`: the term comes from the last oplog entry
(`lastOpTime`, null on an arbiter) and the last vote document, if there is one. -/
def finishLoadLocalConfig (lastOpTime : OpTime)
    (lastVote : Option LastVote) : VoteState :=
  let loaded : VoteState :=
    { term := if cfg.isV1ElectionProtocol then OpTime.kInitialTerm else OpTime.kUninitializedTerm
      lastVote := lastVote.getD {} }
  let term := if cfg.isV1ElectionProtocol then
      match lastVote with
      | some vote => if lastOpTime.term < vote.term then vote.term else lastOpTime.term
      | none => lastOpTime.term
    else OpTime.kUninitializedTerm
  loaded.updateTermInCallback cfg term

end VoteState

/-- What the callback of a remote command is given. -/
inductive ResponseStatus where
  | failed
  /-- A reply that `ReplSetRequestVotesResponse::initialize` does not parse. -/
  | malformed
  | reply (response : RequestVotesResponse)
  deriving DecidableEq

inductive Result where
  | kSuccessfullyElected
  | kStaleTerm
  | kInsufficientVotes
  deriving DecidableEq

/-- `VoteRequester::Algorithm`; the config does not change. -/
structure Algorithm where
  candidateIndex : Nat
  term : Int
  dryRun : Bool
  lastOplogEntry : OpTime
  targets : List HostAndPort
  responders : List HostAndPort := []
  staleTerm : Bool := false
  responsesProcessed : Nat := 0
  votes : Nat := 1
  deriving DecidableEq

/-- All voting members that are not the candidate. -/
def voteTargets (candidateIndex : Nat) : List HostAndPort :=
  (cfg.members.zipIdx.filter fun p => p.1.isVoter && p.2 != candidateIndex).map (·.1.host)

namespace Algorithm

def make (candidateIndex : Nat) (term : Int) (dryRun : Bool)
    (lastOplogEntry : OpTime) : Algorithm :=
  { candidateIndex, term, dryRun, lastOplogEntry, targets := voteTargets cfg candidateIndex }

/-- The command that `getRequests` sends to every target. -/
def requestVotesCmd (a : Algorithm) : RequestVotesArgs where
  setName := cfg.replSetName
  dryRun := a.dryRun
  term := a.term
  candidateIndex := a.candidateIndex
  configVersion := cfg.version
  lastCommittedOp := a.lastOplogEntry

/-- A reply that parses, or the default response for one that does not. -/
def processVotes (target : HostAndPort) (response : RequestVotesResponse) (a : Algorithm) :
    Algorithm :=
  { a with
    responsesProcessed := a.responsesProcessed + 1
    responders := if target ∈ a.responders then a.responders else target :: a.responders
    votes := if response.voteGranted then a.votes + 1 else a.votes
    staleTerm := a.staleTerm || decide (a.term < response.term) }

def processResponse (target : HostAndPort) (response : ResponseStatus) (a : Algorithm) :
    Algorithm :=
  match response with
  | .failed => { a with responsesProcessed := a.responsesProcessed + 1 }
  | .malformed => a.processVotes target {}
  | .reply r => a.processVotes target r

def hasReceivedSufficientResponses (a : Algorithm) : Bool :=
  a.staleTerm || a.votes == cfg.majorityVoteCount || a.responsesProcessed == a.targets.length

def getResult (a : Algorithm) : Result :=
  if a.staleTerm then .kStaleTerm
  else if cfg.majorityVoteCount ≤ a.votes then .kSuccessfullyElected
  else .kInsufficientVotes

end Algorithm

/-- A VoteRequester with its ScatterGatherRunner. -/
structure VoteRequester where
  /-- Tells its remote commands from those of the node's other requesters. -/
  serial : Nat
  algorithm : Algorithm
  /-- The targets of the remote commands whose callbacks have neither run nor been canceled: a
  callback runs once, whatever arrives. -/
  callbacks : List HostAndPort
  deriving DecidableEq

namespace VoteRequester

def start (serial candidateIndex : Nat) (term : Int) (dryRun : Bool)
    (lastOplogEntry : OpTime) : VoteRequester where
  serial := serial
  algorithm := .make cfg candidateIndex term dryRun lastOplogEntry
  callbacks := voteTargets cfg candidateIndex

def processResponse (target : HostAndPort) (response : ResponseStatus) (r : VoteRequester) :
    VoteRequester :=
  { r with
    algorithm := r.algorithm.processResponse target response
    callbacks := r.callbacks.erase target }

end VoteRequester
end MongolDb.Repl
