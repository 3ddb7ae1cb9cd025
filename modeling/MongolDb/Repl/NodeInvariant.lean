import MongolDb.Lib.Ballots
import MongolDb.Repl.Node

/-! What a member's memory keeps of its votes: at most one for a term, none after the last. -/
namespace MongolDb.Repl
open Ballots VoteState

variable {cfg : ReplicaSetConfig} {self : Nat} {n n' : Node} {B B' : Set (Int × Int)}
  {events : List Event} {s : VoteState} {args : RequestVotesArgs}

namespace VoteState

theorem lastVote_updateTermInCallback (s : VoteState) (term : Int) :
    (s.updateTermInCallback cfg term).lastVote = s.lastVote := by
  unfold updateTermInCallback updateTerm
  split <;> [split; skip] <;> rfl

theorem le_term_updateTermInCallback (s : VoteState) (term : Int) :
    s.term ≤ (s.updateTermInCallback cfg term).term := by
  unfold updateTermInCallback updateTerm
  split <;> [split; skip]
  · exact le_rfl
  · exact (not_le.mp ‹_›).le
  · exact le_rfl

theorem term_updateTermInCallback (hv : cfg.isV1ElectionProtocol = true) (term : Int) :
    (s.updateTermInCallback cfg term).term = max s.term term := by
  rw [updateTermInCallback, if_pos hv, updateTerm]
  split
  · exact (max_eq_left ‹_›).symm
  · exact (max_eq_right (not_le.mp ‹_›).le).symm

/-- A restarted node is in a term that is not before its last vote's. -/
theorem lastVote_le_finishLoadLocalConfig (hv : cfg.isV1ElectionProtocol = true)
    (lastOpTime : OpTime) (document : Option LastVote) :
    (finishLoadLocalConfig cfg lastOpTime document).lastVote = document.getD {} ∧
      (document.getD {}).term ≤ (finishLoadLocalConfig cfg lastOpTime document).term := by
  refine ⟨lastVote_updateTermInCallback _ _, ?_⟩
  simp only [finishLoadLocalConfig, term_updateTermInCallback hv, if_pos hv]
  cases document with
  | none => exact le_max_of_le_left (by decide)
  | some vote =>
    refine le_max_of_le_right ?_
    show vote.term ≤ if lastOpTime.term < vote.term then vote.term else lastOpTime.term
    split <;> omega

/-- A granted real request is of a term not before the node's, in which it has not voted last. -/
theorem of_voteGranted (cfg : ReplicaSetConfig) (args : RequestVotesArgs)
    (lastApplied : OpTime) (s : VoteState)
    (h : (s.processReplSetRequestVotes cfg args lastApplied).1.voteGranted = true) :
    s.term ≤ args.term ∧ (args.dryRun = false → s.lastVote.term ≠ args.term) := by
  unfold processReplSetRequestVotes at h
  split at h
  · cases h
  · next hr =>
    unfold refusal at hr
    split at hr
    · cases hr
    · refine ⟨by omega, fun hd => ?_⟩
      simp only [hd, Bool.not_false, Bool.true_and] at hr
      split at hr <;> try cases hr
      split at hr <;> try cases hr
      split at hr <;> try cases hr
      split at hr <;> try cases hr
      next hne => simpa using hne

/-- Only a granted real request changes the votes. -/
theorem processReplSetRequestVotes_snd (cfg : ReplicaSetConfig) (args : RequestVotesArgs)
    (lastApplied : OpTime) (s : VoteState) :
    (s.processReplSetRequestVotes cfg args lastApplied).2 =
      if (s.processReplSetRequestVotes cfg args lastApplied).1.voteGranted && !args.dryRun then
        { s with lastVote := ⟨args.candidateIndex, args.term⟩ }
      else s := by
  unfold processReplSetRequestVotes
  split
  · rfl
  · cases args.dryRun <;> rfl

end VoteState

def votedIn (events : List Event) : Set (Int × Int) := {b | .voted b.1 b.2 ∈ events}

@[simp] theorem votedIn_nil : votedIn [] = ∅ := by
  simp [votedIn]

@[simp] theorem votedIn_voted {t c : Int} : votedIn [.voted t c] = {(t, c)} := by
  ext ⟨t', c'⟩
  simp [votedIn]

theorem votedIn_append {events' : List Event} :
    votedIn (events ++ events') = votedIn events ∪ votedIn events' := by
  ext b
  simp [votedIn]

/-- The node's own vote stands behind an election that it runs. -/
def OwnVote (self : Nat) (B : Set (Int × Int)) (term : Int) : Election → Prop
  | .idle | .dryRun .. => True
  | .writingLastVote lastVote =>
    lastVote.candidateIndex = self ∧ (lastVote.term, (self : Int)) ∈ B
  | .startingVoteRequester newTerm => (newTerm, (self : Int)) ∈ B
  | .requestingVotes newTerm r =>
    (newTerm, (self : Int)) ∈ B ∧ newTerm ≤ r.algorithm.term ∧ r.algorithm.term ≤ term

/-- What a thread's stage says of the node. -/
def Backed (B : Set (Int × Int)) (term : Int) (t : Thread) : Prop :=
  match t.stage with
  | .updated => t.args.term ≤ term
  | .answered r | .stored r _ =>
    r.voteGranted = true → t.args.dryRun = false → (t.args.term, t.args.candidateIndex) ∈ B

/-- `B` holds the votes that the node has cast since it started, or that it has loaded. -/
structure NodeInv (selfIndex : Nat) (B : Set (Int × Int)) (n : Node) : Prop where
  le_term : n.votes.lastVote.term ≤ n.votes.term
  once : OnePerTerm B n.votes.lastVote.term
  threads : ∀ t ∈ n.threads, Backed B n.votes.term t
  own : OwnVote selfIndex B n.votes.term n.election

theorem OwnVote.mono {e : Election} {term term' : Int} (h : OwnVote self B term e)
    (hB : B ⊆ B') (ht : term ≤ term') : OwnVote self B' term' e := by
  cases e with
  | idle | dryRun => trivial
  | writingLastVote => exact ⟨h.1, hB h.2⟩
  | startingVoteRequester => exact hB h
  | requestingVotes => exact ⟨hB h.1, h.2.1, h.2.2.trans ht⟩

theorem Backed.mono {t : Thread} {term term' : Int} (h : Backed B term t)
    (hB : B ⊆ B') (ht : term ≤ term') : Backed B' term' t := by
  unfold Backed at h ⊢
  cases hs : t.stage with
  | updated =>
    simp only [hs] at h ⊢
    exact h.trans ht
  | answered r | stored r =>
    simp only [hs] at h ⊢
    exact fun hg hd => hB (h hg hd)

namespace NodeInv
variable (h : NodeInv self B n) {r : VoteRequester} {round : Node.Round}
include h

/-- The votes change by a later term, or by a ballot in a term after the last vote's. -/
theorem setVotes {votes : VoteState} (hB : B ⊆ B')
    (ht : n.votes.term ≤ votes.term) (hle : votes.lastVote.term ≤ votes.term)
    (honce : OnePerTerm B' votes.lastVote.term) : NodeInv self B' { n with votes } where
  le_term := hle
  once := honce
  threads := fun t hm => (h.threads t hm).mono hB ht
  own := h.own.mono hB ht

theorem setThreads {threads : List Thread}
    (ht : ∀ t ∈ threads, Backed B n.votes.term t) : NodeInv self B { n with threads } :=
  ⟨h.le_term, h.once, ht, h.own⟩

theorem setElection {e : Election} (he : OwnVote self B n.votes.term e) :
    NodeInv self B { n with election := e } :=
  ⟨h.le_term, h.once, h.threads, he⟩

theorem setDocument {document : Option LastVote} :
    NodeInv self B { n with document } :=
  ⟨h.le_term, h.once, h.threads, h.own⟩

theorem setNextSerial (nextSerial : Nat) :
    NodeInv self B { n with nextSerial } :=
  ⟨h.le_term, h.once, h.threads, h.own⟩

theorem updateTerm (term : Int) :
    NodeInv self B { n with votes := n.votes.updateTermInCallback cfg term } := by
  have hlast : (n.votes.updateTermInCallback cfg term).lastVote = n.votes.lastVote :=
    lastVote_updateTermInCallback n.votes term
  have hle : n.votes.term ≤ (n.votes.updateTermInCallback cfg term).term :=
    le_term_updateTermInCallback n.votes term
  refine h.setVotes subset_rfl hle ?_ ?_ <;> rw [hlast]
  · exact h.le_term.trans hle
  · exact h.once

theorem receive {rpc : Rpc} (hs : n.receive cfg rpc args = some n') :
    NodeInv self B n' := by
  unfold Node.receive at hs
  split at hs
  · next hv =>
    cases hs
    refine (h.updateTerm args.term).setThreads fun t ht => ?_
    rcases List.mem_cons.mp ht with rfl | ht
    · show args.term ≤ (n.votes.updateTermInCallback cfg args.term).term
      rw [term_updateTermInCallback hv]
      exact le_max_right _ _
    · exact (h.updateTerm args.term).threads t ht
  · cases hs

omit h in
/-- Erasing a thread for one that is backed. -/
theorem backed_replace {t : Thread} {thread thread' : Thread} {term : Int}
    (h : ∀ t ∈ n.threads, Backed B term t) (hb : Backed B term thread')
    (ht : t ∈ thread' :: n.threads.erase thread) : Backed B term t := by
  rcases List.mem_cons.mp ht with rfl | ht
  · exact hb
  · exact h t (List.mem_of_mem_erase ht)

theorem finish {thread : Thread} {lastApplied : OpTime}
    (hs : n.finish cfg thread lastApplied = some (n', events)) :
    NodeInv self (B ∪ votedIn events) n' := by
  unfold Node.finish at hs
  split at hs
  swap
  · cases hs
  next hmem =>
  obtain ⟨hmem, hstage⟩ := hmem
  have hterm : thread.args.term ≤ n.votes.term := by
    simpa [Backed, hstage] using h.threads thread hmem
  have hsnd := processReplSetRequestVotes_snd cfg thread.args lastApplied n.votes
  have hgrant := of_voteGranted cfg thread.args lastApplied n.votes
  generalize n.votes.processReplSetRequestVotes cfg thread.args lastApplied = p at *
  obtain ⟨response, votes⟩ := p
  simp only at hs hsnd hgrant
  split at hsnd
  · next hvote =>
    rw [if_pos hvote] at hs
    cases hs
    subst hsnd
    simp only [Bool.and_eq_true, Bool.not_eq_true'] at hvote
    obtain ⟨hge, hne⟩ := hgrant hvote.1
    -- the request's term is the node's own, and the last vote is of an earlier one
    have hlt : n.votes.lastVote.term < thread.args.term := by
      have := h.le_term
      have := hne hvote.2
      omega
    have hcast := h.once.cast (c := thread.args.candidateIndex) hlt
    rw [votedIn_voted, Set.union_singleton]
    have hvotes : NodeInv self (insert (thread.args.term, thread.args.candidateIndex) B)
        { n with votes := ⟨n.votes.term, ⟨thread.args.candidateIndex, thread.args.term⟩⟩ } :=
      h.setVotes (Set.subset_insert _ _) le_rfl hterm hcast
    refine hvotes.setThreads fun t ht => ?_
    refine backed_replace (fun t ht => ?_) ?_ ht
    · exact (h.threads t ht).mono (Set.subset_insert _ _) le_rfl
    · exact fun _ _ => Set.mem_insert _ _
  · next hvote =>
    rw [if_neg hvote] at hs
    cases hs
    subst hsnd
    rw [votedIn_nil, Set.union_empty]
    refine h.setThreads fun t ht => backed_replace h.threads ?_ ht
    intro hg hd
    simp_all

theorem store {thread : Thread} {ok : Bool}
    (hs : n.store thread ok = some n') : NodeInv self B n' := by
  unfold Node.store at hs
  split at hs <;> try cases hs
  next response hstage =>
  split at hs <;> cases hs
  next hmem =>
  have hb : Backed B n.votes.term { thread with stage := .stored response ok } := by
    simpa [Backed, hstage] using h.threads thread hmem.1
  exact (h.setThreads fun t ht => backed_replace h.threads hb ht).setDocument

theorem reply {thread : Thread}
    (hs : n.reply thread = some (n', events)) :
    NodeInv self B n' ∧ votedIn events = ∅ := by
  have hreturned : ∀ {response ok}, n.returned thread response ok = some (n', events) →
      NodeInv self B n' ∧ votedIn events = ∅ := by
    intro response ok hs
    unfold Node.returned at hs
    split at hs <;> cases hs
    exact ⟨h.setThreads fun t ht => h.threads t (List.mem_of_mem_erase ht), by simp [votedIn]⟩
  unfold Node.reply at hs
  split at hs
  · cases hs
  · split at hs
    · cases hs
    · exact hreturned hs
  · exact hreturned hs

theorem lose (hs : n.lose = (n', events)) :
    NodeInv self (B ∪ votedIn events) n' := by
  cases hs
  have hidle : NodeInv self B { n with election := .idle } := h.setElection trivial
  simpa using hidle

theorem onVoteRequestComplete {originalTerm : Int}
    (hs : n.onVoteRequestComplete cfg originalTerm r = (n', events)) :
    NodeInv self (B ∪ votedIn events) n' := by
  unfold Node.onVoteRequestComplete at hs
  split at hs
  · exact h.lose hs
  · split at hs
    · cases hs
      have hidle : NodeInv self B { n with election := .idle } := h.setElection trivial
      simpa [votedIn] using hidle
    · exact h.lose hs
    · exact h.lose hs

theorem own_of_round
    (hr : n.round? = some (round, r)) : OwnVote self B n.votes.term (round.election r) := by
  have hown := h.own
  unfold Node.round? at hr
  split at hr <;> cases hr
  all_goals simp_all [Node.Round.election]

theorem writeLastVote {ok : Bool}
    (hs : n.writeLastVote ok = some (n', events)) : NodeInv self (B ∪ votedIn events) n' := by
  have hown := h.own
  unfold Node.writeLastVote at hs
  split at hs <;> try cases hs
  next lastVote he =>
  split at hs
  · cases hs
    rw [he] at hown
    have hn : NodeInv self B { n with election := .startingVoteRequester lastVote.term } :=
      h.setElection hown.2
    simpa [votedIn] using hn.setDocument
  · exact h.lose (Option.some.inj hs)

variable (hv : cfg.isV1ElectionProtocol = true)
include hv

theorem onDryRunComplete {originalTerm : Int}
    (hs : n.onDryRunComplete cfg self originalTerm r = (n', events)) :
    NodeInv self (B ∪ votedIn events) n' := by
  unfold Node.onDryRunComplete at hs
  split at hs
  · exact h.lose hs
  next hterm =>
  split at hs
  · -- the term is a new one, so the node cannot have voted in it
    have hnew : (n.votes.updateTermInCallback cfg (originalTerm + 1)).term = originalTerm + 1 := by
      rw [term_updateTermInCallback hv]
      omega
    have hlt : n.votes.lastVote.term < originalTerm + 1 := by
      have := h.le_term
      omega
    have hcast := h.once.cast (c := (self : Int)) hlt
    cases hs
    simp only [voteForMyselfV1, hnew, votedIn_voted, Set.union_singleton]
    refine NodeInv.setElection (h.setVotes (Set.subset_insert _ _) ?_ le_rfl hcast) ?_
    · show n.votes.term ≤ originalTerm + 1
      omega
    · exact ⟨rfl, Set.mem_insert _ _⟩
  · exact h.lose hs
  · exact h.lose hs

theorem onCompletion (hs : n.onCompletion cfg self round r = (n', events)) :
    NodeInv self (B ∪ votedIn events) n' := by
  cases round with
  | dryRun originalTerm => exact h.onDryRunComplete hv hs
  | real newTerm => exact h.onVoteRequestComplete hs

theorem checkResponses (hr : OwnVote self B n.votes.term (round.election r))
    (hs : n.checkResponses cfg self round r = (n', events)) :
    NodeInv self (B ∪ votedIn events) n' := by
  unfold Node.checkResponses at hs
  split at hs
  · exact h.onCompletion hv hs
  · cases hs
    simpa using h.setElection hr

theorem startRequester {dryRun : Bool} {lastOplogEntry : OpTime} (hr : OwnVote self B n.votes.term
      (round.election (.start cfg n.nextSerial self n.votes.term dryRun lastOplogEntry)))
    (hs : n.startRequester cfg self round dryRun lastOplogEntry = (n', events)) :
    NodeInv self (B ∪ votedIn events) n' := by
  have hc := (h.setNextSerial (n.nextSerial + 1)).checkResponses hv hr rfl
  cases hs
  rw [votedIn_append]
  have hnone : ∀ targets : List HostAndPort, votedIn (targets.map fun target =>
      .requested ⟨self, n.nextSerial, target⟩ (Algorithm.requestVotesCmd cfg
        (.make cfg self n.votes.term dryRun lastOplogEntry))) = ∅ := by
    intro targets
    simp [votedIn]
  simpa [hnone, VoteRequester.start] using hc

omit hv in
theorem startElectSelf {lastOp : OpTime}
    (hs : n.startElectSelf cfg self lastOp = some (n', events)) :
    NodeInv self (B ∪ votedIn events) n' := by
  unfold Node.startElectSelf at hs
  split at hs <;> try cases hs
  split at hs <;> try cases hs
  next hg =>
  split at hs
  · exact h.lose (Option.some.inj hs)
  · refine h.startRequester (Bool.and_eq_true_iff.mp hg).1 ?_ (Option.some.inj hs)
    trivial

theorem processResponse {serial : Nat}
    {target : HostAndPort} {response : ResponseStatus}
    (hs : n.processResponse cfg self serial target response = some (n', events)) :
    NodeInv self (B ∪ votedIn events) n' := by
  unfold Node.processResponse at hs
  split at hs
  · cases hs
  next round r hr =>
  split at hs
  swap
  · cases hs
  refine h.checkResponses hv ?_ (Option.some.inj hs)
  have hown := h.own_of_round hr
  cases round with
  | dryRun => trivial
  | real newTerm => cases response <;> exact hown

theorem cancel
    (hs : n.cancel cfg self = some (n', events)) : NodeInv self (B ∪ votedIn events) n' := by
  unfold Node.cancel at hs
  split at hs
  · cases hs
  · exact h.onCompletion hv (Option.some.inj hs)

theorem startVoteRequester {lastOp : OpTime}
    (hs : n.startVoteRequester cfg self lastOp = some (n', events)) :
    NodeInv self (B ∪ votedIn events) n' := by
  have hown := h.own
  unfold Node.startVoteRequester at hs
  split at hs
  swap
  · cases hs
  next newTerm he =>
  rw [he] at hown
  refine h.startRequester hv ?_ (Option.some.inj hs)
  exact ⟨hown, (h.once.le_last hown).trans h.le_term, le_rfl⟩

/-- Every step keeps the votes in order. -/
theorem step {a : Action}
    (hs : n.step cfg self a = some (n', events)) : NodeInv self (B ∪ votedIn events) n' := by
  cases a with
  | updateTerm term =>
    cases hs
    simpa using h.updateTerm term
  | receive rpc args =>
    obtain ⟨m, hm, he⟩ := Option.map_eq_some_iff.mp hs
    cases he
    simpa using h.receive hm
  | finish thread lastApplied => exact h.finish hs
  | store thread ok =>
    obtain ⟨m, hm, he⟩ := Option.map_eq_some_iff.mp hs
    cases he
    simpa using h.store hm
  | reply thread =>
    obtain ⟨hinv, hvoted⟩ := h.reply hs
    rwa [hvoted, Set.union_empty]
  | startElectSelf lastOp => exact h.startElectSelf hs
  | processResponse serial target response => exact h.processResponse hv hs
  | cancel => exact h.cancel hv hs
  | writeLastVote ok => exact h.writeLastVote hs
  | startVoteRequester lastOp => exact h.startVoteRequester hv hs

omit h in
/-- A node that starts has its loaded votes behind it. -/
theorem start {lastOpTime : OpTime}
    {document : Option LastVote} (h : OnePerTerm B (document.getD {}).term) :
    NodeInv self B (Node.start cfg lastOpTime document) := by
  obtain ⟨hlast, hle⟩ := lastVote_le_finishLoadLocalConfig hv lastOpTime document
  refine ⟨?_, ?_, by simp [Node.start], trivial⟩
  · show (finishLoadLocalConfig cfg lastOpTime document).lastVote.term ≤ _
    rw [hlast]
    exact hle
  · show OnePerTerm B (finishLoadLocalConfig cfg lastOpTime document).lastVote.term
    rw [hlast]
    exact h

end NodeInv
end MongolDb.Repl
