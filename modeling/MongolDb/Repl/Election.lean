import MongolDb.Lib.Reach
import MongolDb.Repl.NodeInvariant

/-! The members of a replica set and the network between them. What has happened is never
forgotten, so a request or a reply may arrive late, several times, out of order or not at all. -/
namespace MongolDb.Repl
open List

structure System where
  nodes : Nat → Node
  /-- What each node has done, oldest first. -/
  log : List (Nat × Event)

variable (cfg : ReplicaSetConfig)

def hostOf (i : Nat) : Option HostAndPort := cfg.members[i]?.map (·.host)

namespace System

/-- The members as they start up, each with the optime and the document that it loads. -/
def initial (loaded : Nat → OpTime × Option LastVote) : System :=
  ⟨fun i => .start cfg (loaded i).1 (loaded i).2, []⟩

/-- What the network brings has been sent; a remote command can always fail, and the reply of one
that has failed is malformed for the candidate. -/
def arrives (s : System) (i : Nat) : Action → Bool
  | .receive rpc args =>
    s.log.contains (rpc.candidate, .requested rpc args) && hostOf cfg i == some rpc.target
  | .processResponse serial target (.reply response) =>
    s.log.any fun
      | (_, .replied rpc _ response' true) =>
        rpc == ⟨i, serial, target⟩ && response' == response
      | _ => false
  | _ => true

def step (a : Nat × Action) (s : System) : Option System :=
  if a.1 < cfg.members.length ∧ s.arrives cfg a.1 a.2 = true then
    ((s.nodes a.1).step cfg a.1 a.2).map fun r =>
      ⟨Function.update s.nodes a.1 r.1, s.log ++ r.2.map (a.1, ·)⟩
  else none

def ballots (log : List (Nat × Event)) (i : Nat) : Set (Int × Int) :=
  {b | (i, .voted b.1 b.2) ∈ log}

end System

/-- The requester whose votes decide the real election that a step ends or goes on with. -/
inductive Decides (selfIndex : Nat) (n : Node) (a : Action) (newTerm : Int) :
    VoteRequester → Prop where
  | kept {r : VoteRequester} (he : n.election = .requestingVotes newTerm r) :
      Decides selfIndex n a newTerm r
  | response {r : VoteRequester} {target : HostAndPort} {response : ResponseStatus}
      (he : n.election = .requestingVotes newTerm r)
      (ha : a = .processResponse r.serial target response) (ht : target ∈ r.callbacks) :
      Decides selfIndex n a newTerm (r.processResponse target response)
  | started {lastOp : OpTime} (he : n.election = .startingVoteRequester newTerm)
      (ha : a = .startVoteRequester lastOp) :
      Decides selfIndex n a newTerm
        (.start cfg n.nextSerial selfIndex n.votes.term false lastOp)

/-- Where a thread of the node comes from after a step that leaves it with `document`. -/
inductive ThreadFrom (n : Node) (a : Action) (document : Option LastVote) : Thread → Prop where
  | old {t : Thread} (ht : t ∈ n.threads) : ThreadFrom n a document t
  | received {rpc : Rpc} {args : RequestVotesArgs} (ha : a = .receive rpc args) :
      ThreadFrom n a document ⟨rpc, args, .updated⟩
  | answered {t : Thread} {response : RequestVotesResponse} (ht : t ∈ n.threads) :
      ThreadFrom n a document { t with stage := .answered response }
  | stored {t : Thread} {response : RequestVotesResponse} {ok : Bool} (ht : t ∈ n.threads)
      (ha : a = .store t ok)
      (hd : ok = true → document = some ⟨t.args.candidateIndex, t.args.term⟩) :
      ThreadFrom n a document { t with stage := .stored response ok }

/-- Where the last vote document after a step comes from. -/
inductive DocumentFrom (n : Node) (a : Action) : Option LastVote → Prop where
  | old : DocumentFrom n a n.document
  | thread {t : Thread} (ha : a = .store t true) :
      DocumentFrom n a (some ⟨t.args.candidateIndex, t.args.term⟩)
  | own {lastVote : LastVote} (ha : a = .writeLastVote true)
      (he : n.election = .writingLastVote lastVote) : DocumentFrom n a (some lastVote)

/-- What a step of a node can do. -/
structure StepFacts (selfIndex : Nat) (n : Node) (a : Action) (n' : Node) (events : List Event) :
    Prop where
  serial_le : n.nextSerial ≤ n'.nextSerial
  /-- Requests are sent for a new requester, which takes the next serial. -/
  requested : ∀ rpc args, .requested rpc args ∈ events → rpc.serial = n.nextSerial ∧
    (∀ newTerm r, n.election ≠ .requestingVotes newTerm r) ∧
    ∀ lastOp, a = .startVoteRequester lastOp →
      args = (Algorithm.make cfg selfIndex n.votes.term false lastOp).requestVotesCmd cfg
  bumped : n.nextSerial < n'.nextSerial ∨
    (∀ rpc args, .requested rpc args ∉ events) ∧ ∀ lastOp, a ≠ .startVoteRequester lastOp
  threads : ∀ t ∈ n'.threads, ThreadFrom n a n'.document t
  document : DocumentFrom n a n'.document
  storedOwnVote : ∀ lastVote, .storedOwnVote lastVote ∈ events →
    n.election = .writingLastVote lastVote ∧ n'.document = some lastVote
  replied : ∀ rpc args response ok, .replied rpc args response ok ∈ events →
    ∃ t ∈ n.threads, t.rpc = rpc ∧ t.args = args ∧
      (response.voteGranted = true → t.stage = .stored response ok)
  round : ∀ newTerm r, n'.election = .requestingVotes newTerm r →
    Decides cfg selfIndex n a newTerm r
  won : ∀ t, .won t ∈ events → ∃ r, Decides cfg selfIndex n a t r ∧ n.votes.term = t ∧
    r.algorithm.getResult cfg = .kSuccessfullyElected
  electable : n'.election ≠ .idle → n.election ≠ .idle ∨
    ∃ m, cfg.members[selfIndex]? = some m ∧ m.isElectable = true

variable {cfg} {self : Nat} {n n' : Node} {a : Action} {events : List Event}
  {round : Node.Round} {r : VoteRequester}

/-- What becomes of a round whose responses are checked. -/
structure RoundFacts (cfg : ReplicaSetConfig) (n : Node) (round : Node.Round) (r : VoteRequester)
    (n' : Node) (events : List Event) : Prop where
  threads : n'.threads = n.threads
  document : n'.document = n.document
  nextSerial : n'.nextSerial = n.nextSerial
  event : ∀ e ∈ events, (∃ t c, e = .voted t c) ∨
    ∃ t, e = .won t ∧ round = .real t ∧ n.votes.term = t ∧
      r.algorithm.getResult cfg = .kSuccessfullyElected
  election : ∀ newTerm r', n'.election = .requestingVotes newTerm r' →
    round = .real newTerm ∧ r' = r

theorem roundFacts_lose (hs : n.lose = (n', events)) : RoundFacts cfg n round r n' events := by
  cases hs
  exact ⟨rfl, rfl, rfl, by simp, nofun⟩

theorem roundFacts_onCompletion (hs : n.onCompletion cfg self round r = (n', events)) :
    RoundFacts cfg n round r n' events := by
  cases round with
  | dryRun originalTerm =>
    simp only [Node.onCompletion, Node.onDryRunComplete] at hs
    split at hs
    · exact roundFacts_lose hs
    · split at hs
      · cases hs
        exact ⟨rfl, rfl, rfl, fun e he => .inl ⟨_, _, mem_singleton.mp he⟩, nofun⟩
      · exact roundFacts_lose hs
      · exact roundFacts_lose hs
  | real newTerm =>
    simp only [Node.onCompletion, Node.onVoteRequestComplete] at hs
    split at hs
    · exact roundFacts_lose hs
    next hterm =>
    split at hs
    · next hwin =>
      cases hs
      have hterm : n.votes.term = newTerm := not_not.mp hterm
      refine ⟨rfl, rfl, rfl, fun e he => .inr ⟨newTerm, ?_, rfl, hterm, hwin⟩, nofun⟩
      rw [mem_singleton.mp he, hterm]
    · exact roundFacts_lose hs
    · exact roundFacts_lose hs

theorem roundFacts_checkResponses (hs : n.checkResponses cfg self round r = (n', events)) :
    RoundFacts cfg n round r n' events := by
  unfold Node.checkResponses at hs
  split at hs
  · exact roundFacts_onCompletion hs
  · cases hs
    refine ⟨rfl, rfl, rfl, by simp, fun newTerm r' he => ?_⟩
    cases round <;> cases he
    exact ⟨rfl, rfl⟩

namespace StepFacts

/-- A step that neither sends requests nor ends a real election, and leaves the election as it is
or turns it to a phase without a real round. -/
theorem of_quiet (hevents : ∀ e ∈ events, (∀ rpc args, e ≠ .requested rpc args) ∧ ∀ t, e ≠ .won t)
    (hthreads : ∀ t ∈ n'.threads, ThreadFrom n a n'.document t) (hdocument : DocumentFrom n a n'.document)
    (hown : ∀ lastVote, .storedOwnVote lastVote ∈ events →
      n.election = .writingLastVote lastVote ∧ n'.document = some lastVote)
    (hreplied : ∀ rpc args response ok, .replied rpc args response ok ∈ events →
      ∃ t ∈ n.threads, t.rpc = rpc ∧ t.args = args ∧
        (response.voteGranted = true → t.stage = .stored response ok))
    (he : n'.election = n.election ∨ (∀ newTerm r, n'.election ≠ .requestingVotes newTerm r) ∧
      n.election ≠ .idle)
    (hserial : n'.nextSerial = n.nextSerial)
    (ha : ∀ lastOp, a ≠ .startVoteRequester lastOp) :
    StepFacts cfg self n a n' events where
  serial_le := hserial.ge
  requested := fun rpc args hm => absurd rfl ((hevents _ hm).1 rpc args)
  bumped := .inr ⟨fun rpc args hm => (hevents _ hm).1 rpc args rfl, ha⟩
  threads := hthreads
  document := hdocument
  storedOwnVote := hown
  replied := hreplied
  round := by
    intro newTerm r hr
    rcases he with he | he
    · exact .kept (he ▸ hr)
    · exact absurd hr (he.1 newTerm r)
  won := fun t hm => absurd rfl ((hevents _ hm).2 t)
  electable := by
    intro hne
    rcases he with he | he
    · exact .inl (he ▸ hne)
    · exact .inl he.2

theorem of_silent (hthreads : ∀ t ∈ n'.threads, ThreadFrom n a n'.document t)
    (hdocument : DocumentFrom n a n'.document)
    (he : n'.election = n.election ∨ (∀ newTerm r, n'.election ≠ .requestingVotes newTerm r) ∧
      n.election ≠ .idle)
    (hserial : n'.nextSerial = n.nextSerial)
    (ha : ∀ lastOp, a ≠ .startVoteRequester lastOp) : StepFacts cfg self n a n' [] :=
  of_quiet (by simp) hthreads hdocument (by simp) (by simp) he hserial ha

theorem of_erase {thread t : Thread} {document : Option LastVote}
    (ht : t ∈ n.threads.erase thread) : ThreadFrom n a document t :=
  .old (mem_of_mem_erase ht)

theorem of_replace {thread thread' t : Thread} {document : Option LastVote}
    (hm : ThreadFrom n a document thread') (ht : t ∈ thread' :: n.threads.erase thread) :
    ThreadFrom n a document t := by
  rcases mem_cons.mp ht with rfl | ht
  · exact hm
  · exact of_erase ht

theorem receive {rpc : Rpc} {args : RequestVotesArgs} (hs : n.receive cfg rpc args = some n') :
    StepFacts cfg self n (.receive rpc args) n' [] := by
  unfold Node.receive at hs
  split at hs <;> cases hs
  refine of_silent (fun t ht => ?_) .old (.inl rfl) rfl nofun
  rcases mem_cons.mp ht with rfl | ht
  · exact .received rfl
  · exact .old ht

theorem finish {thread : Thread} {lastApplied : OpTime}
    (hs : n.finish cfg thread lastApplied = some (n', events)) :
    StepFacts cfg self n (.finish thread lastApplied) n' events := by
  unfold Node.finish at hs
  split at hs
  swap
  · cases hs
  next hm =>
  cases hs
  have hvoted : ∀ e ∈ (if ((n.votes.processReplSetRequestVotes cfg thread.args
      lastApplied).1.voteGranted && !thread.args.dryRun) = true then
      [Event.voted thread.args.term thread.args.candidateIndex] else []),
      e = .voted thread.args.term thread.args.candidateIndex := by
    intro e he
    split at he
    · exact mem_singleton.mp he
    · cases he
  refine of_quiet (fun e he => ?_) (fun t ht => of_replace (.answered hm.1) ht) .old ?_ ?_
    (.inl rfl) rfl nofun
  · rw [hvoted e he]
    exact ⟨nofun, nofun⟩
  · intro lastVote hr
    cases hvoted _ hr
  · intro rpc args response ok hr
    cases hvoted _ hr

theorem store {thread : Thread} {ok : Bool} (hs : n.store thread ok = some n') :
    StepFacts cfg self n (.store thread ok) n' [] := by
  unfold Node.store at hs
  split at hs <;> try cases hs
  split at hs <;> cases hs
  next hm =>
  refine of_silent (fun t ht => of_replace (.stored hm.1 rfl fun hok => if_pos hok) ht) ?_
    (.inl rfl) rfl nofun
  cases ok with
  | true => exact .thread rfl
  | false => exact .old

theorem returned {thread : Thread} {response : RequestVotesResponse} {ok : Bool}
    (hs : n.returned thread response ok = some (n', events))
    (hg : response.voteGranted = true → thread.stage = .stored response ok) :
    StepFacts cfg self n (.reply thread) n' events := by
  unfold Node.returned at hs
  split at hs <;> cases hs
  next hm =>
  refine of_quiet (fun e he => ?_) (fun t ht => of_erase ht) .old ?_ ?_ (.inl rfl) rfl nofun
  · rw [mem_singleton.mp he]
    exact ⟨nofun, nofun⟩
  · intro lastVote hr
    cases mem_singleton.mp hr
  · intro rpc args r ok hr
    cases mem_singleton.mp hr
    exact ⟨thread, hm, rfl, rfl, hg⟩

theorem reply {thread : Thread} (hs : n.reply thread = some (n', events)) :
    StepFacts cfg self n (.reply thread) n' events := by
  unfold Node.reply at hs
  split at hs
  · cases hs
  · split at hs
    · cases hs
    next hg => exact returned hs fun h => absurd h hg
  next hstage => exact returned hs fun _ => hstage

theorem writeLastVote {ok : Bool} (hs : n.writeLastVote ok = some (n', events)) :
    StepFacts cfg self n (.writeLastVote ok) n' events := by
  unfold Node.writeLastVote at hs
  split at hs <;> try cases hs
  next he =>
  have hne : n.election ≠ .idle := by simp [he]
  split at hs <;> cases hs
  · next hok =>
    subst hok
    refine of_quiet (fun e hm => ?_) (fun t ht => .old ht) (.own rfl he) ?_ ?_ (.inr ⟨nofun, hne⟩)
      rfl nofun
    · rw [mem_singleton.mp hm]
      exact ⟨nofun, nofun⟩
    · intro lastVote hr
      cases mem_singleton.mp hr
      exact ⟨he, rfl⟩
    · intro rpc args r ok hr
      cases mem_singleton.mp hr
  · exact of_silent (fun t ht => .old ht) .old (.inr ⟨nofun, hne⟩) rfl nofun

/-- A step on the responses of the round in progress. -/
theorem of_round {r' : VoteRequester} (ha : ∀ lastOp, a ≠ .startVoteRequester lastOp)
    (hr : n.round? = some (round, r)) (hf : RoundFacts cfg n round r' n' events)
    (hd : ∀ newTerm, n.election = .requestingVotes newTerm r →
      Decides cfg self n a newTerm r') : StepFacts cfg self n a n' events := by
  have hreal : ∀ newTerm, round = .real newTerm → n.election = .requestingVotes newTerm r := by
    intro newTerm hround
    unfold Node.round? at hr
    split at hr <;> cases hr <;> cases hround
    assumption
  have hne : n.election ≠ .idle := by
    intro he
    simp [Node.round?, he] at hr
  have hkind : ∀ e ∈ events, ∀ rpc args, e ≠ .requested rpc args := by
    intro e he rpc args heq
    rcases hf.event e he with ⟨t, c, rfl⟩ | ⟨t, rfl, -⟩ <;> cases heq
  refine ⟨hf.nextSerial.ge, ?_, .inr ⟨?_, ha⟩, ?_, hf.document ▸ .old, ?_, ?_, ?_, ?_,
    fun _ => .inl hne⟩
  · exact fun rpc args hm => absurd rfl (hkind _ hm rpc args)
  · exact fun rpc args hm => hkind _ hm rpc args rfl
  · intro t ht
    exact .old (hf.threads ▸ ht)
  · intro lastVote hm
    rcases hf.event _ hm with ⟨t, c, he⟩ | ⟨t, he, -⟩ <;> cases he
  · intro rpc args response ok hm
    rcases hf.event _ hm with ⟨t, c, he⟩ | ⟨t, he, -⟩ <;> cases he
  · intro newTerm q he
    obtain ⟨hround, rfl⟩ := hf.election newTerm q he
    exact hd newTerm (hreal newTerm hround)
  · intro t hm
    rcases hf.event _ hm with ⟨t, c, he⟩ | ⟨t, he, hround, hterm, hwin⟩ <;> cases he
    exact ⟨r', hd t (hreal t hround), hterm, hwin⟩

theorem processResponse {serial : Nat} {target : HostAndPort} {response : ResponseStatus}
    (hs : n.processResponse cfg self serial target response = some (n', events)) :
    StepFacts cfg self n (.processResponse serial target response) n' events := by
  unfold Node.processResponse at hs
  split at hs
  · cases hs
  next round r hr =>
  split at hs
  swap
  · cases hs
  next hm =>
  obtain ⟨rfl, ht⟩ := hm
  refine of_round nofun hr (roundFacts_checkResponses (Option.some.inj hs)) ?_
  exact fun newTerm he => .response he rfl ht

theorem cancel (hs : n.cancel cfg self = some (n', events)) :
    StepFacts cfg self n .cancel n' events := by
  unfold Node.cancel at hs
  split at hs
  · cases hs
  next round r hr =>
  refine of_round nofun hr (roundFacts_onCompletion (Option.some.inj hs)) ?_
  exact fun newTerm he => .kept he

/-- A requester is started where no real round is in progress. -/
theorem startRequester {dryRun : Bool} {lastOp : OpTime}
    (hs : n.startRequester cfg self round dryRun lastOp = (n', events))
    (hidle : ∀ newTerm r, n.election ≠ .requestingVotes newTerm r)
    (ha : ∀ lastOp', a = .startVoteRequester lastOp' → dryRun = false ∧ lastOp = lastOp')
    (hd : ∀ newTerm, round = .real newTerm →
      Decides cfg self n a newTerm (.start cfg n.nextSerial self n.votes.term dryRun lastOp))
    (hel : n.election ≠ .idle ∨ ∃ m, cfg.members[self]? = some m ∧ m.isElectable = true) :
    StepFacts cfg self n a n' events := by
  set r : VoteRequester := .start cfg n.nextSerial self n.votes.term dryRun lastOp with hr
  let m : Node := { n with nextSerial := n.nextSerial + 1 }
  have hn : n' = (m.checkResponses cfg self round r).1 := (congrArg Prod.fst hs).symm
  have hf : RoundFacts cfg m round r n' (m.checkResponses cfg self round r).2 :=
    hn ▸ roundFacts_checkResponses rfl
  have hevents : events = r.callbacks.map (fun target =>
      .requested ⟨self, r.serial, target⟩ (r.algorithm.requestVotesCmd cfg)) ++
      (m.checkResponses cfg self round r).2 := (congrArg Prod.snd hs).symm
  have hmem : ∀ {e}, e ∈ events → (∃ target, e = .requested ⟨self, r.serial, target⟩
      (r.algorithm.requestVotesCmd cfg)) ∨ (∃ t c, e = .voted t c) ∨
      ∃ t, e = .won t ∧ round = .real t ∧ n.votes.term = t ∧
        r.algorithm.getResult cfg = .kSuccessfullyElected := by
    intro e he
    rw [hevents] at he
    rcases mem_append.mp he with he | he
    · obtain ⟨target, -, rfl⟩ := mem_map.mp he
      exact .inl ⟨target, rfl⟩
    · exact .inr (hf.event e he)
  have hlt : n.nextSerial < n'.nextSerial := by
    rw [hf.nextSerial]
    exact Nat.lt_succ_self _
  refine ⟨hlt.le, ?_, .inl hlt, ?_, hf.document ▸ .old, ?_, ?_, ?_, ?_, fun _ => hel⟩
  · intro rpc args hm
    rcases hmem hm with ⟨target, he⟩ | ⟨t, c, he⟩ | ⟨t, he, -⟩ <;> cases he
    refine ⟨rfl, hidle, fun lastOp' hl => ?_⟩
    obtain ⟨rfl, rfl⟩ := ha lastOp' hl
    rfl
  · intro t ht
    exact .old (hf.threads ▸ ht)
  · intro lastVote hm
    rcases hmem hm with ⟨target, he⟩ | ⟨t, c, he⟩ | ⟨t, he, -⟩ <;> cases he
  · intro rpc args response ok hm
    rcases hmem hm with ⟨target, he⟩ | ⟨t, c, he⟩ | ⟨t, he, -⟩ <;> cases he
  · intro newTerm q he
    obtain ⟨hround, rfl⟩ := hf.election newTerm q he
    exact hd newTerm hround
  · intro t hm
    rcases hmem hm with ⟨target, he⟩ | ⟨t, c, he⟩ | ⟨t, he, hround, hterm, hwin⟩ <;> cases he
    exact ⟨r, hd t hround, hterm, hwin⟩

theorem startElectSelf {lastOp : OpTime}
    (hs : n.startElectSelf cfg self lastOp = some (n', events)) :
    StepFacts cfg self n (.startElectSelf lastOp) n' events := by
  unfold Node.startElectSelf at hs
  split at hs <;> try cases hs
  next m he hm =>
  split at hs
  swap
  · cases hs
  next hg =>
  have hel : ∃ m, cfg.members[self]? = some m ∧ m.isElectable = true :=
    ⟨m, hm, (Bool.and_eq_true_iff.mp hg).2⟩
  split at hs
  · cases hs
    exact of_silent (fun t ht => .old ht) .old (.inl he.symm) rfl nofun
  · refine startRequester (Option.some.inj hs) ?_ nofun nofun (.inr hel)
    simp [he]

theorem startVoteRequester {lastOp : OpTime}
    (hs : n.startVoteRequester cfg self lastOp = some (n', events)) :
    StepFacts cfg self n (.startVoteRequester lastOp) n' events := by
  unfold Node.startVoteRequester at hs
  split at hs
  swap
  · cases hs
  next newTerm he =>
  refine startRequester (Option.some.inj hs) (by simp [he]) ?_ ?_ (.inl (by simp [he]))
  · rintro _ ⟨⟩
    exact ⟨rfl, rfl⟩
  · rintro _ ⟨⟩
    exact .started he rfl

theorem step (hs : n.step cfg self a = some (n', events)) : StepFacts cfg self n a n' events := by
  cases a with
  | updateTerm term =>
    cases hs
    exact of_silent (fun t ht => .old ht) .old (.inl rfl) rfl nofun
  | receive rpc args =>
    obtain ⟨m, hm, he⟩ := Option.map_eq_some_iff.mp hs
    cases he
    exact receive hm
  | finish thread lastApplied => exact finish hs
  | store thread ok =>
    obtain ⟨m, hm, he⟩ := Option.map_eq_some_iff.mp hs
    cases he
    exact store hm
  | reply thread => exact reply hs
  | startElectSelf lastOp => exact startElectSelf hs
  | processResponse serial target response => exact processResponse hs
  | cancel => exact cancel hs
  | writeLastVote ok => exact writeLastVote hs
  | startVoteRequester lastOp => exact startVoteRequester hs

end StepFacts
end MongolDb.Repl
