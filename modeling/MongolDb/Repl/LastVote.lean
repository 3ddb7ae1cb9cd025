import MongolDb.Repl.Election

/-! The durability of a member's votes: its whole history, through crashes and restarts. -/
namespace MongolDb.Repl
open Ballots Transition

/-- One member, with what the journal has of its last vote document and all it has done. -/
structure Member where
  node : Node
  durable : Option LastVote
  log : List Event
  deriving DecidableEq

inductive Life where
  | act (a : Action)
  /-- The journal is flushed; `storeLocalLastVoteDocument` does not wait for it. -/
  | flush
  /-- A crash, and the restart with the last optime of the oplog. -/
  | crash (lastOpTime : OpTime)
  deriving DecidableEq

namespace Member

variable (cfg : ReplicaSetConfig) (self : Nat)

def initial (lastOpTime : OpTime) (document : Option LastVote) : Member :=
  ⟨.start cfg lastOpTime document, document, []⟩

def step : Life → Member → Option Member
  | .act a, m =>
    (m.node.step cfg self a).map fun r => { m with node := r.1, log := m.log ++ r.2 }
  | .flush, m => some { m with durable := m.node.document }
  | .crash lastOpTime, m => some ⟨.start cfg lastOpTime m.durable, m.durable, m.log⟩

/-- `vote` does not replace a last vote document of a later term. -/
def keepsTerm (vote : Int) (document : Option LastVote) : Bool :=
  document.all fun d => decide (d.term ≤ vote)

/-- No store of a real vote fails or replaces a later vote by an earlier one, and a crash finds the
document flushed. -/
def inOrder (m : Member) : Life → Bool
  | .act (.store thread true) => keepsTerm thread.args.term m.node.document
  | .act (.store thread false) => thread.args.dryRun
  | .act (.writeLastVote true) =>
    match m.node.election with
    | .writingLastVote lastVote => keepsTerm lastVote.term m.node.document
    | _ => true
  | .crash _ => m.durable == m.node.document
  | _ => true

end Member

variable {cfg : ReplicaSetConfig} {self : Nat} {m m' : Member} {B : Set (Int × Int)}
  {log events : List Event} {a : Life} {n' : Node} {t c : Int} {document : Option LastVote}

/-- `voteGranted = true` was returned for a real request, in the reply of a command that has failed
or not. -/
def Granted (log : List Event) (t c : Int) : Prop :=
  ∃ rpc args response ok, .replied rpc args response ok ∈ log ∧ response.voteGranted = true ∧
    args.dryRun = false ∧ args.term = t ∧ args.candidateIndex = c

/-- What a history of durable votes looks like. -/
structure VotesDurable (selfIndex : Nat) (log : List Event) : Prop where
  once : ∀ t c c', Granted log t c → Granted log t c' → c = c'
  /-- No request of another candidate is granted in a term in which the node has voted for itself
  and stored that vote, -/
  own : ∀ t c, Granted log t c → .storedOwnVote ⟨selfIndex, t⟩ ∈ log → c = selfIndex
  /-- nor is such a vote cast after it, returned or not. -/
  later : log.Pairwise fun earlier later => ∀ t c : Int, earlier = .storedOwnVote ⟨selfIndex, t⟩ →
    later = .voted t c → c = selfIndex

/-- The votes that a restart must not lose. -/
def persisted (self : Nat) (log : List Event) : Set (Int × Int) :=
  {b | Granted log b.1 b.2 ∨ b.2 = self ∧ .storedOwnVote ⟨self, b.1⟩ ∈ log}

/-- The last vote document is of term `t` or a later one. -/
def Reaches (document : Option LastVote) (t : Int) : Prop := ∃ d ∈ document, t ≤ d.term

theorem mem_persisted_append {b : Int × Int} (hb : b ∈ persisted self (log ++ events)) :
    b ∈ persisted self log ∨
      (∃ rpc args response ok, .replied rpc args response ok ∈ events ∧
        response.voteGranted = true ∧ args.dryRun = false ∧
        b = (args.term, args.candidateIndex)) ∨
      b.2 = self ∧ .storedOwnVote ⟨self, b.1⟩ ∈ events := by
  rcases hb with ⟨rpc, args, response, ok, hm, hg, hd, ht, hc⟩ | ⟨hself, hm⟩
  · rcases List.mem_append.mp hm with hm | hm
    · exact .inl (.inl ⟨rpc, args, response, ok, hm, hg, hd, ht, hc⟩)
    · exact .inr (.inl ⟨rpc, args, response, ok, hm, hg, hd, Prod.ext ht.symm hc.symm⟩)
  · rcases List.mem_append.mp hm with hm | hm
    · exact .inl (.inr ⟨hself, hm⟩)
    · exact .inr (.inr ⟨hself, hm⟩)

theorem Reaches.of_keepsTerm {vote : LastVote}
    (h : Reaches document t) (hk : Member.keepsTerm vote.term document = true) :
    Reaches (some vote) t := by
  obtain ⟨d, hd, hle⟩ := h
  cases hd
  exact ⟨vote, rfl, hle.trans (of_decide_eq_true hk)⟩

/-- Stores in order never take the document back to an earlier term. -/
theorem Reaches.step {a : Action} (h : Reaches m.node.document t)
    (ho : m.inOrder (.act a) = true) (hd : DocumentFrom m.node a document) :
    Reaches document t := by
  cases hd with
  | old => exact h
  | thread ha =>
    subst ha
    exact h.of_keepsTerm ho
  | own ha he =>
    subst ha
    simp only [Member.inOrder, he] at ho
    exact h.of_keepsTerm ho

/-- What holds of a member that stores its votes in order. -/
structure MemberInv (selfIndex : Nat) (m : Member) : Prop where
  votes : ∃ B, NodeInv selfIndex B m.node ∧ persisted selfIndex m.log ⊆ B
  document : ∀ b ∈ persisted selfIndex m.log, Reaches m.node.document b.1
  stored : ∀ t ∈ m.node.threads, ∀ response ok, t.stage = .stored response ok →
    t.args.dryRun = false → Reaches m.node.document t.args.term
  later : m.log.Pairwise fun earlier later => ∀ t c : Int,
    earlier = .storedOwnVote ⟨selfIndex, t⟩ → later = .voted t c → c = selfIndex

namespace MemberInv

section
variable (hv : cfg.isV1ElectionProtocol = true)
include hv

theorem initial (lastOpTime : OpTime)
    (document : Option LastVote) : MemberInv self (.initial cfg lastOpTime document) := by
  have hnone : persisted self (Member.initial cfg lastOpTime document).log = ∅ := by
    simp [persisted, Member.initial, Granted]
  refine ⟨⟨∅, NodeInv.start hv onePerTerm_empty, hnone.le⟩, by simp [hnone], ?_, .nil⟩
  simp [Member.initial, Node.start]

omit hv in
/-- A vote cast now is not of a term in which the node has stored its own. -/
theorem pairwise_append (h : MemberInv self m) {B : Set (Int × Int)} {last : Int}
    (honce : OnePerTerm (B ∪ votedIn events) last) (hB : persisted self m.log ⊆ B)
    (hevents : events.Pairwise fun earlier later => ∀ t c : Int,
      earlier = .storedOwnVote ⟨self, t⟩ → later = .voted t c → c = self) :
    (m.log ++ events).Pairwise fun earlier later => ∀ t c : Int,
      earlier = .storedOwnVote ⟨self, t⟩ → later = .voted t c → c = self := by
  refine List.pairwise_append.mpr ⟨h.later, hevents, ?_⟩
  rintro _ hearlier _ hlater t c rfl rfl
  have hown : (t, (self : Int)) ∈ B := hB (.inr ⟨rfl, hearlier⟩)
  exact honce.unique (.inr hlater) (.inl hown)

theorem act {a : Action} (h : MemberInv self m)
    (ho : m.inOrder (.act a) = true) (hs : m.node.step cfg self a = some (n', events)) :
    MemberInv self { m with node := n', log := m.log ++ events } := by
  obtain ⟨B, hnode, hB⟩ := h.votes
  have hf := StepFacts.step hs
  have hnode' := hnode.step hv hs
  have hsingle : events.Pairwise fun earlier later => ∀ t c : Int,
      earlier = .storedOwnVote ⟨self, t⟩ → later = .voted t c → c = self := by
    refine List.pairwise_of_forall_mem_list ?_
    rintro _ hown _ hvoted t c rfl rfl
    have he := (hf.storedOwnVote _ hown).1
    have hvote := hnode.own
    rw [he] at hvote
    exact hnode'.once.unique (.inr hvoted) (.inl hvote.2)
  refine ⟨⟨B ∪ votedIn events, hnode', fun b hb => .inl ?_⟩, fun b hb => ?_, ?_,
    h.pairwise_append hnode'.once hB hsingle⟩
  · rcases mem_persisted_append hb with
      hb | ⟨rpc, args, response, ok, hm, hg, hd, rfl⟩ | ⟨hself, hm⟩
    · exact hB hb
    · obtain ⟨t, ht, rfl, rfl, hstage⟩ := hf.replied rpc args response ok hm
      have hback := hnode.threads t ht
      rw [Backed, hstage hg] at hback
      exact hback hg hd
    · have hown := hnode.own
      rw [(hf.storedOwnVote _ hm).1] at hown
      obtain ⟨t, c⟩ := b
      cases hself
      exact hown.2
  · rcases mem_persisted_append hb with
      hb | ⟨rpc, args, response, ok, hm, hg, hd, rfl⟩ | ⟨hself, hm⟩
    · exact (h.document b hb).step ho hf.document
    · obtain ⟨t, ht, rfl, rfl, hstage⟩ := hf.replied rpc args response ok hm
      exact (h.stored t ht response ok (hstage hg) hd).step ho hf.document
    · exact ⟨_, (hf.storedOwnVote _ hm).2, le_rfl⟩
  · intro t ht response ok hstage hreal
    cases hf.threads t ht with
    | old hold => exact (h.stored t hold response ok hstage hreal).step ho hf.document
    | received | answered => cases hstage
    | @stored t _ ok _ ha hd =>
      subst ha
      cases ok with
      | true => exact ⟨_, hd rfl, le_rfl⟩
      | false => exact absurd ho (by simpa [Member.inOrder] using hreal)

/-- A restart finds every vote that has left the node. -/
theorem crash (h : MemberInv self m) (hd : m.durable = m.node.document) (lastOpTime : OpTime) :
    MemberInv self ⟨.start cfg lastOpTime m.durable, m.durable, m.log⟩ := by
  obtain ⟨B, hnode, hB⟩ := h.votes
  have honce : OnePerTerm (persisted self m.log) (m.durable.getD {}).term := by
    refine ⟨fun {t c} hb => ?_, fun hb hb' => hnode.once.unique (hB hb) (hB hb')⟩
    obtain ⟨d, hmem, hle⟩ := h.document (t, c) hb
    rw [hd, Option.mem_def.mp hmem]
    exact hle
  refine ⟨⟨_, NodeInv.start hv honce, subset_rfl⟩, fun b hb => ?_, by simp [Node.start], h.later⟩
  rw [hd]
  exact h.document b hb

theorem step (h : MemberInv self m)
    (ho : m.inOrder a = true) (hs : Member.step cfg self a m = some m') : MemberInv self m' := by
  cases a with
  | act a =>
    obtain ⟨⟨n', events⟩, hn, rfl⟩ := Option.map_eq_some_iff.mp hs
    exact h.act hv ho hn
  | flush =>
    cases hs
    exact ⟨h.votes, h.document, h.stored, h.later⟩
  | crash lastOpTime =>
    cases hs
    exact h.crash hv (beq_iff_eq.mp ho) lastOpTime

end

theorem votesDurable (h : MemberInv self m) : VotesDurable self m.log := by
  obtain ⟨B, hnode, hB⟩ := h.votes
  refine ⟨fun t c c' hc hc' => ?_, fun t c hc hown => ?_, h.later⟩
  · exact hnode.once.unique (hB (.inl hc)) (hB (.inl hc'))
  · exact hnode.once.unique (hB (.inl hc)) (hB (.inr ⟨rfl, hown⟩))

end MemberInv

/-- Without protocol version 1 a node neither votes nor stands for election. -/
theorem log_eq_nil_of_not_v1 (hv : cfg.isV1ElectionProtocol = false) {lastOpTime : OpTime}
    {allowed : Member → Life → Prop}
    (h : Reach (Member.step cfg self) allowed (.initial cfg lastOpTime document) m) :
    m.node.threads = [] ∧ m.node.election = .idle ∧ m.log = [] := by
  refine Reach.invariant (I := fun m => m.node.threads = [] ∧ m.node.election = .idle ∧ m.log = [])
    h ⟨rfl, rfl, rfl⟩ ?_
  rintro m m' a ⟨ht, he, hl⟩ - hs
  cases a with
  | flush =>
    cases hs
    exact ⟨ht, he, hl⟩
  | crash lastOpTime =>
    cases hs
    exact ⟨rfl, rfl, hl⟩
  | act a =>
    obtain ⟨⟨n', events⟩, hn, rfl⟩ := Option.map_eq_some_iff.mp hs
    cases a with
    | updateTerm term =>
      cases hn
      exact ⟨ht, he, by simp [hl]⟩
    | store thread ok =>
      simp only [Node.step, Node.store, ht] at hn
      split at hn <;> simp at hn
    | reply thread =>
      simp only [Node.step, Node.reply, Node.returned, ht] at hn
      split at hn <;> simp at hn
    | startElectSelf =>
      simp only [Node.step, Node.startElectSelf, he, hv] at hn
      split at hn <;> simp_all
    | _ =>
      simp [Node.step, Node.receive, Node.finish, Node.processResponse, Node.cancel, Node.round?,
        Node.writeLastVote, Node.startVoteRequester, hv, ht, he] at hn

/-- Votes that are stored in order, and flushed before a crash, are durable. -/
theorem votes_durable {lastOpTime : OpTime} {document : Option LastVote}
    (h : Reach (Member.step cfg self) (fun m a => m.inOrder a = true)
      (.initial cfg lastOpTime document) m) : VotesDurable self m.log := by
  cases hv : cfg.isV1ElectionProtocol with
  | false =>
    rw [(log_eq_nil_of_not_v1 hv h).2.2]
    exact ⟨by simp [Granted], by simp [Granted], .nil⟩
  | true =>
    have hinv : MemberInv self m :=
      Reach.invariant h (.initial hv lastOpTime document) fun hi ho hs => hi.step hv ho hs
    exact hinv.votesDurable

variable (candidate : Nat) (term : Int)

/-- A real request that arrives at member 0 of `threeMembers`. -/
def voteRequest : Thread :=
  ⟨⟨candidate, 0, ⟨"localhost", 27017⟩⟩, ⟨"rs0", false, term, candidate, 1, ⟨1, 0⟩⟩, .updated⟩

def grantVote : List Life :=
  let t := voteRequest candidate term
  [.act (.receive t.rpc t.args), .act (.finish t ⟨1, 0⟩)]

def returnVote : List Life :=
  let t := voteRequest candidate term
  [.act (.store { t with stage := .answered ⟨term, true, ""⟩ } true),
    .act (.reply { t with stage := .stored ⟨term, true, ""⟩ true })]

/-- The vote was returned. -/
def repliedVote : Event :=
  .replied (voteRequest candidate term).rpc (voteRequest candidate term).args ⟨term, true, ""⟩ true

theorem granted_of_repliedVote {candidate : Nat} {term : Int}
    (h : repliedVote candidate term ∈ log) : Granted log term candidate :=
  ⟨_, _, _, _, h, rfl, rfl, rfl, rfl⟩

/-- A vote of an earlier term is returned, and its restart refuses a second one. -/
theorem votes_durable_restarted :
    ∃ m, run (guarded (Member.step threeMembers 0) Member.inOrder)
        (grantVote 1 5 ++ returnVote 1 5 ++ grantVote 2 6 ++ returnVote 2 6 ++
          [.flush, .crash ⟨1, 0⟩] ++ grantVote 1 6)
        (.initial threeMembers ⟨1, 0⟩ none) = some m ∧
      Granted m.log 5 1 ∧ Granted m.log 6 2 ∧ VotesDurable 0 m.log := by
  have hrun : ((run (guarded (Member.step threeMembers 0) Member.inOrder)
      (grantVote 1 5 ++ returnVote 1 5 ++ grantVote 2 6 ++ returnVote 2 6 ++
        [.flush, .crash ⟨1, 0⟩] ++ grantVote 1 6) (.initial threeMembers ⟨1, 0⟩ none)).map
      fun m => decide (repliedVote 1 5 ∈ m.log ∧ repliedVote 2 6 ∈ m.log)) = some true := by
    decide +kernel
  obtain ⟨m, hm, hlog⟩ := Option.map_eq_some_iff.mp hrun
  obtain ⟨hfive, hsix⟩ := of_decide_eq_true hlog
  exact ⟨m, hm, granted_of_repliedVote hfive, granted_of_repliedVote hsix,
    votes_durable (reach_of_guarded_run hm)⟩

/-- The vote of term 6 is stored and returned before the vote of term 5 is stored over it; after a
restart the member votes in term 6 again. -/
def swappedStores : List Life :=
  grantVote 1 5 ++ grantVote 2 6 ++ returnVote 2 6 ++ returnVote 1 5 ++
    [.flush, .crash ⟨1, 0⟩] ++ grantVote 1 6 ++ returnVote 1 6

theorem swappedStores_not_votesDurable :
    ∃ m, Reach (Member.step threeMembers 0) (fun _ _ => True)
        (.initial threeMembers ⟨1, 0⟩ none) m ∧
      Granted m.log 6 2 ∧ Granted m.log 6 1 ∧ ¬ VotesDurable 0 m.log := by
  have hrun : ((run (Member.step threeMembers 0) swappedStores
      (.initial threeMembers ⟨1, 0⟩ none)).map fun m =>
        decide (repliedVote 2 6 ∈ m.log ∧ repliedVote 1 6 ∈ m.log)) = some true := by
    decide +kernel
  obtain ⟨m, hm, hlog⟩ := Option.map_eq_some_iff.mp hrun
  obtain ⟨htwo, hone⟩ := of_decide_eq_true hlog
  have htwo := granted_of_repliedVote htwo
  have hone := granted_of_repliedVote hone
  refine ⟨m, reach_of_run hm fun _ _ _ => trivial, htwo, hone, fun hd => ?_⟩
  exact absurd (hd.once 6 _ _ htwo hone) (by decide)

end MongolDb.Repl
