import MongolDb.Repl.Election

/-! Election safety: a term is won by at most one member. -/
namespace MongolDb.Repl
open Ballots Transition List

variable {cfg : ReplicaSetConfig} {configsvr : Bool} {s t : System} {self i : Nat}
  {log log' : List (Nat × Event)} {r : VoteRequester}

theorem mem_voteTargets {h : HostAndPort} :
    h ∈ voteTargets cfg self ↔
      ∃ v m, cfg.members[v]? = some m ∧ m.isVoter = true ∧ v ≠ self ∧ m.host = h := by
  simp only [voteTargets, mem_map, mem_filter, Bool.and_eq_true, bne_iff_ne, Prod.exists,
    mk_mem_zipIdx_iff_getElem?]
  constructor
  · rintro ⟨m, v, ⟨hm, hv, hne⟩, rfl⟩
    exact ⟨v, m, hm, hv, hne, rfl⟩
  · rintro ⟨v, m, hm, hv, hne, rfl⟩
    exact ⟨m, v, ⟨hm, hv, hne⟩, rfl⟩

theorem nodup_voteTargets (hc : cfg.validate configsvr = .ok ()) :
    (voteTargets cfg self).Nodup := by
  have hz : cfg.members.zipIdx.Nodup :=
    List.Nodup.of_map Prod.snd (by rw [zipIdx_map_snd]; exact nodup_range')
  refine List.Nodup.map_on ?_ (hz.filter _)
  rintro ⟨m, v⟩ hm ⟨m', v'⟩ hm' he
  have hv := mk_mem_zipIdx_iff_getElem?.mp (mem_of_mem_filter hm)
  have hv' := mk_mem_zipIdx_iff_getElem?.mp (mem_of_mem_filter hm')
  obtain rfl := ReplicaSetConfig.host_injective hc hv hv' he
  rw [hv] at hv'
  cases hv'
  rfl

/-- The voter behind a target is one member only, and another than the candidate. -/
theorem voter_of_target (hc : cfg.validate configsvr = .ok ()) {v : Nat} {h : HostAndPort}
    (ht : h ∈ voteTargets cfg self) (hv : hostOf cfg v = some h) : v ∈ cfg.voters.erase self := by
  obtain ⟨w, m, hm, hvoter, hne, hhost⟩ := mem_voteTargets.mp ht
  obtain ⟨m', hm', hhost'⟩ := Option.map_eq_some_iff.mp hv
  obtain rfl := ReplicaSetConfig.host_injective hc hm hm' (hhost.trans hhost'.symm)
  exact Finset.mem_erase.mpr ⟨hne, ReplicaSetConfig.mem_voters.mpr ⟨m, hm, hvoter⟩⟩

/-- A real round counts the votes of distinct voters, other than the candidate, who have voted for
it in the requested term and whose callbacks have run. -/
structure Tally (cfg : ReplicaSetConfig) (log : List (Nat × Event)) (selfIndex : Nat)
    (r : VoteRequester) : Prop where
  command : r.algorithm.dryRun = false ∧ r.algorithm.candidateIndex = selfIndex
  requests : ∀ rpc args, (selfIndex, .requested rpc args) ∈ log → rpc.serial = r.serial →
    args = r.algorithm.requestVotesCmd cfg
  nodup : r.callbacks.Nodup
  targets : ∀ h ∈ r.callbacks, h ∈ voteTargets cfg selfIndex
  counted : ∃ Q ⊆ cfg.voters.erase selfIndex, Q.card + 1 = r.algorithm.votes ∧
    ∀ v ∈ Q, (r.algorithm.term, (selfIndex : Int)) ∈ System.ballots log v ∧
      ∀ h ∈ r.callbacks, hostOf cfg v ≠ some h

theorem term_processResponse (target : HostAndPort) (response : ResponseStatus) :
    (r.processResponse target response).algorithm.term = r.algorithm.term := by
  cases response <;> rfl

theorem ballots_mono {v : Nat} (hl : ∀ e ∈ log, e ∈ log') :
    System.ballots log v ⊆ System.ballots log' v :=
  fun _ hb => hl _ hb

namespace Tally

theorem mono (h : Tally cfg log self r) (hl : ∀ e ∈ log, e ∈ log')
    (hq : ∀ rpc args, (self, .requested rpc args) ∈ log' → rpc.serial = r.serial →
      (self, .requested rpc args) ∈ log) : Tally cfg log' self r := by
  obtain ⟨Q, hQ, hcard, hvote⟩ := h.counted
  refine ⟨h.command, fun rpc args hm hr => h.requests rpc args (hq rpc args hm hr) hr, h.nodup,
    h.targets, Q, hQ, hcard, fun v hv => ⟨ballots_mono hl (hvote v hv).1, (hvote v hv).2⟩⟩

/-- A new requester has the candidate's own vote only. -/
theorem start (hc : cfg.validate configsvr = .ok ()) {serial : Nat} {term : Int} {lastOp : OpTime}
    (hq : ∀ rpc args, (self, .requested rpc args) ∈ log → rpc.serial = serial →
      args = (Algorithm.make cfg self term false lastOp).requestVotesCmd cfg) :
    Tally cfg log self (.start cfg serial self term false lastOp) where
  command := ⟨rfl, rfl⟩
  requests := hq
  nodup := nodup_voteTargets hc
  targets := fun _ hm => hm
  counted := ⟨∅, Finset.empty_subset _, rfl, by simp⟩

/-- A response without a vote. -/
theorem skip (h : Tally cfg log self r) {target : HostAndPort} {algorithm : Algorithm}
    (hcmd : algorithm.requestVotesCmd cfg = r.algorithm.requestVotesCmd cfg)
    (hvotes : algorithm.votes = r.algorithm.votes)
    (hsame : algorithm.candidateIndex = r.algorithm.candidateIndex) :
    Tally cfg log self { r with algorithm, callbacks := r.callbacks.erase target } := by
  obtain ⟨Q, hQ, hcard, hvote⟩ := h.counted
  have hterm : algorithm.term = r.algorithm.term := congrArg RequestVotesArgs.term hcmd
  have hdry : algorithm.dryRun = r.algorithm.dryRun := congrArg RequestVotesArgs.dryRun hcmd
  refine ⟨⟨hdry.trans h.command.1, hsame.trans h.command.2⟩, ?_, h.nodup.erase _, ?_, Q, hQ,
    hcard.trans hvotes.symm, ?_⟩
  · intro rpc args hm hr
    exact (h.requests rpc args hm hr).trans hcmd.symm
  · exact fun k hk => h.targets k (mem_of_mem_erase hk)
  · intro v hv
    rw [hterm]
    exact ⟨(hvote v hv).1, fun k hk => (hvote v hv).2 k (mem_of_mem_erase hk)⟩

/-- A vote that was cast for the request, by the voter behind the target. -/
theorem count (hc : cfg.validate configsvr = .ok ()) (h : Tally cfg log self r)
    {target : HostAndPort} {response : RequestVotesResponse} {v : Nat}
    (ht : target ∈ r.callbacks) (hv : hostOf cfg v = some target)
    (hb : (r.algorithm.term, (self : Int)) ∈ System.ballots log v)
    (hg : response.voteGranted = true) :
    Tally cfg log self (r.processResponse target (.reply response)) := by
  obtain ⟨Q, hQ, hcard, hvote⟩ := h.counted
  have hnew : v ∉ Q := fun hm => (hvote v hm).2 target ht hv
  refine ⟨h.command, h.requests, h.nodup.erase _, ?_, insert v Q, ?_, ?_, ?_⟩
  · exact fun k hk => h.targets k (mem_of_mem_erase hk)
  · exact Finset.insert_subset (voter_of_target hc (h.targets target ht) hv) hQ
  · rw [Finset.card_insert_of_notMem hnew, hcard]
    simp [VoteRequester.processResponse, Algorithm.processResponse, Algorithm.processVotes, hg]
  · intro w hw
    rcases Finset.mem_insert.mp hw with rfl | hw
    · refine ⟨hb, fun k hk he => ?_⟩
      rw [hv] at he
      cases he
      exact h.nodup.not_mem_erase hk
    · exact ⟨(hvote w hw).1, fun k hk => (hvote w hw).2 k (mem_of_mem_erase hk)⟩

/-- With its own vote, a candidate that has the votes of a majority is elected. -/
theorem elected (h : Tally cfg log self r) (hself : self ∈ cfg.voters)
    (hown : (r.algorithm.term, (self : Int)) ∈ System.ballots log self)
    (hwin : r.algorithm.getResult cfg = .kSuccessfullyElected) :
    Elected cfg.voters (System.ballots log) r.algorithm.term (self : Int) := by
  obtain ⟨Q, hQ, hcard, hvote⟩ := h.counted
  have hmaj : cfg.majorityVoteCount ≤ r.algorithm.votes := by
    unfold Algorithm.getResult at hwin
    split at hwin
    · cases hwin
    · split at hwin
      · assumption
      · cases hwin
  have hnot : self ∉ Q := fun hm => (Finset.mem_erase.mp (hQ hm)).1 rfl
  refine ⟨insert self Q, ?_, ?_, ?_⟩
  · exact Finset.insert_subset hself (hQ.trans (Finset.erase_subset _ _))
  · rw [Finset.card_insert_of_notMem hnot, hcard, ReplicaSetConfig.card_voters]
    exact hmaj
  · intro v hv
    rcases Finset.mem_insert.mp hv with rfl | hv
    · exact hown
    · exact (hvote v hv).1

end Tally

namespace System

/-- What holds of the members and of all that has happened. -/
structure Inv (cfg : ReplicaSetConfig) (s : System) : Prop where
  node : ∀ i, NodeInv i (ballots s.log i) (s.nodes i)
  threads : ∀ i, ∀ t ∈ (s.nodes i).threads,
    (t.rpc.candidate, .requested t.rpc t.args) ∈ s.log ∧ hostOf cfg i = some t.rpc.target
  replied : ∀ v rpc args response ok, (v, .replied rpc args response ok) ∈ s.log →
    (rpc.candidate, .requested rpc args) ∈ s.log ∧ hostOf cfg v = some rpc.target ∧
      (response.voteGranted = true → args.dryRun = false →
        (args.term, args.candidateIndex) ∈ ballots s.log v)
  serials : ∀ i rpc args, (i, .requested rpc args) ∈ s.log →
    rpc.serial < (s.nodes i).nextSerial
  round : ∀ i newTerm r, (s.nodes i).election = .requestingVotes newTerm r →
    r.serial < (s.nodes i).nextSerial ∧ Tally cfg s.log i r
  electable : ∀ i, (s.nodes i).election ≠ .idle →
    ∃ m, cfg.members[i]? = some m ∧ m.isElectable = true
  won : ∀ i term, (i, .won term) ∈ s.log →
    Elected cfg.voters (ballots s.log) term (i : Int)

variable {a : Action} {n' : Node} {events : List Event}

/-- The system after a step of member `i`. -/
def after (s : System) (i : Nat) (n' : Node) (events : List Event) : System :=
  ⟨Function.update s.nodes i n', s.log ++ events.map (i, ·)⟩

theorem mem_log_after {e : Nat × Event} :
    e ∈ (s.after i n' events).log ↔ e ∈ s.log ∨ e.1 = i ∧ e.2 ∈ events := by
  obtain ⟨j, ev⟩ := e
  simp only [after, mem_append, mem_map, Prod.mk.injEq]
  constructor
  · rintro (h | ⟨_, h, rfl, rfl⟩)
    · exact .inl h
    · exact .inr ⟨rfl, h⟩
  · rintro (h | ⟨rfl, h⟩)
    · exact .inl h
    · exact .inr ⟨ev, h, rfl, rfl⟩

theorem log_subset_after : ∀ e ∈ s.log, e ∈ (s.after i n' events).log :=
  fun _ he => mem_log_after.mpr (.inl he)

theorem ballots_after_self :
    ballots (s.after i n' events).log i = ballots s.log i ∪ votedIn events := by
  ext b
  simp [ballots, mem_log_after, votedIn]

theorem ballots_after_ne {j : Nat} (hj : j ≠ i) :
    ballots (s.after i n' events).log j = ballots s.log j := by
  ext b
  simp [ballots, mem_log_after, hj]

theorem nodes_after_self : (s.after i n' events).nodes i = n' := Function.update_self _ _ _

theorem nodes_after_ne {j : Nat} (hj : j ≠ i) : (s.after i n' events).nodes j = s.nodes j :=
  Function.update_of_ne hj _ _

/-- What a reply has arrived for, and whose vote it brings. -/
theorem Inv.vote_of_arrives (h : Inv cfg s) (hr : Tally cfg s.log i r) {target : HostAndPort}
    {response : RequestVotesResponse} (hg : response.voteGranted = true)
    (ha : s.arrives cfg i (.processResponse r.serial target (.reply response)) = true) :
    ∃ v, hostOf cfg v = some target ∧ (r.algorithm.term, (i : Int)) ∈ ballots s.log v := by
  obtain ⟨⟨v, e⟩, hm, he⟩ := any_eq_true.mp ha
  cases e with
  | replied rpc args response' ok =>
    cases ok <;> simp only [Bool.and_eq_true, beq_iff_eq, Bool.false_eq_true] at he
    obtain ⟨rfl, rfl⟩ := he
    obtain ⟨hreq, hhost, hvote⟩ := h.replied v _ args _ _ hm
    obtain rfl := hr.requests _ args hreq rfl
    have hb := hvote hg hr.command.1
    refine ⟨v, hhost, ?_⟩
    simpa [Algorithm.requestVotesCmd, hr.command.2] using hb
  | _ => simp at he

section
variable (hc : cfg.validate configsvr = .ok ())
include hc

/-- Whatever decides a real round at a step has tallied its votes. -/
theorem Inv.tally_of_decides (h : Inv cfg s)
    (ha : s.arrives cfg i a = true) (hf : StepFacts cfg i (s.nodes i) a n' events)
    {newTerm : Int} (hd : Decides cfg i (s.nodes i) a newTerm r) :
    r.serial < n'.nextSerial ∧ Tally cfg (s.after i n' events).log i r := by
  have hkeep : ∀ {q : VoteRequester}, (s.nodes i).election = .requestingVotes newTerm q →
      q.serial < n'.nextSerial ∧ Tally cfg (s.after i n' events).log i q := by
    intro q he
    obtain ⟨hlt, htally⟩ := h.round i newTerm q he
    refine ⟨hlt.trans_le hf.serial_le, htally.mono log_subset_after fun rpc args hm _ => ?_⟩
    rcases mem_log_after.mp hm with hm | ⟨-, hm⟩
    · exact hm
    · exact absurd he ((hf.requested rpc args hm).2.1 newTerm q)
  cases hd with
  | kept he => exact hkeep he
  | @response q target response he heq ht =>
    obtain ⟨hlt, htally⟩ := hkeep he
    refine ⟨hlt, ?_⟩
    cases response with
    | failed | malformed => exact htally.skip rfl rfl rfl
    | reply response =>
      cases hg : response.voteGranted with
      | false =>
        refine htally.skip rfl ?_ rfl
        simp [Algorithm.processResponse, Algorithm.processVotes, hg]
      | true =>
        obtain ⟨v, hv, hb⟩ :=
          h.vote_of_arrives (h.round i newTerm q he).2 hg (heq ▸ ha)
        exact htally.count hc ht hv (ballots_mono log_subset_after hb) hg
  | @started lastOp he heq =>
    have hlt : (s.nodes i).nextSerial < n'.nextSerial := by
      rcases hf.bumped with hlt | hno
      · exact hlt
      · exact absurd heq (hno.2 lastOp)
    refine ⟨hlt, Tally.start hc fun rpc args hm hserial => ?_⟩
    rcases mem_log_after.mp hm with hm | ⟨-, hm⟩
    · exact absurd hserial (h.serials i rpc args hm).ne
    · exact (hf.requested rpc args hm).2.2 lastOp heq

/-- The winning branch is reached with the votes of a majority. -/
theorem Inv.elected_of_won (h : Inv cfg s)
    (ha : s.arrives cfg i a = true) (hf : StepFacts cfg i (s.nodes i) a n' events)
    {term : Int} (hw : .won term ∈ events) :
    Elected cfg.voters (ballots (s.after i n' events).log) term (i : Int) := by
  obtain ⟨r, hd, hterm, hwin⟩ := hf.won term hw
  have htally := (h.tally_of_decides hc ha hf hd).2
  -- the node's term has not moved since the round was started, so it is the requested one
  have hown : (term, (i : Int)) ∈ ballots s.log i ∧ r.algorithm.term = term ∧
      (s.nodes i).election ≠ .idle := by
    have hnode := (h.node i).own
    cases hd with
    | kept he | response he =>
      rw [he] at hnode
      obtain ⟨hb, hle, hge⟩ := hnode
      refine ⟨hb, ?_, by simp [he]⟩
      simpa only [term_processResponse] using le_antisymm (hterm ▸ hge) hle
    | started he =>
      rw [he] at hnode
      exact ⟨hnode, hterm, by simp [he]⟩
  obtain ⟨hb, rfl, hne⟩ := hown
  obtain ⟨m, hm, hel⟩ := h.electable i hne
  refine htally.elected ?_ (ballots_mono log_subset_after hb) hwin
  have hvalid := ReplicaSetConfig.member_validate hc (mem_of_getElem? hm)
  exact ReplicaSetConfig.mem_voters.mpr ⟨m, hm, MemberConfig.isVoter_of_isElectable hvalid hel⟩

theorem Inv.after (hv : cfg.isV1ElectionProtocol = true)
    (h : Inv cfg s) (ha : s.arrives cfg i a = true)
    (hs : (s.nodes i).step cfg i a = some (n', events)) : Inv cfg (s.after i n' events) := by
  have hf := StepFacts.step hs
  constructor
  case node =>
    intro j
    by_cases hj : j = i
    · subst j
      rw [nodes_after_self, ballots_after_self]
      exact (h.node i).step hv hs
    · rw [nodes_after_ne hj, ballots_after_ne hj]
      exact h.node j
  case threads =>
    intro j t ht
    by_cases hj : j = i
    · subst j
      rw [nodes_after_self] at ht
      cases hf.threads t ht with
      | received heq =>
        subst heq
        simp only [arrives, Bool.and_eq_true, contains_iff_mem, beq_iff_eq] at ha
        exact ⟨log_subset_after _ ha.1, ha.2⟩
      | old hu | answered hu | stored hu =>
        exact ⟨log_subset_after _ (h.threads i _ hu).1, (h.threads i _ hu).2⟩
    · rw [nodes_after_ne hj] at ht
      exact ⟨log_subset_after _ (h.threads j t ht).1, (h.threads j t ht).2⟩
  case replied =>
    intro v rpc args response ok hm
    rcases mem_log_after.mp hm with hold | ⟨rfl, hnew⟩
    · obtain ⟨hreq, hhost, hvote⟩ := h.replied v rpc args response ok hold
      exact ⟨log_subset_after _ hreq, hhost,
        fun hg hd => ballots_mono log_subset_after (hvote hg hd)⟩
    · obtain ⟨t, ht, rfl, rfl, hstage⟩ := hf.replied rpc args response ok hnew
      obtain ⟨hreq, hhost⟩ := h.threads v t ht
      refine ⟨log_subset_after _ hreq, hhost, fun hg hd => ?_⟩
      have hb := (h.node v).threads t ht
      rw [Backed, hstage hg] at hb
      exact ballots_mono log_subset_after (hb hg hd)
  case serials =>
    intro j rpc args hm
    by_cases hj : j = i
    · subst j
      rw [nodes_after_self]
      rcases mem_log_after.mp hm with hm | ⟨-, hm⟩
      · exact (h.serials i rpc args hm).trans_le hf.serial_le
      · rcases hf.bumped with hlt | hno
        · exact (hf.requested rpc args hm).1 ▸ hlt
        · exact absurd hm (hno.1 rpc args)
    · rw [nodes_after_ne hj]
      rcases mem_log_after.mp hm with hm | ⟨he, -⟩
      · exact h.serials j rpc args hm
      · exact absurd he hj
  case round =>
    intro j newTerm r he
    by_cases hj : j = i
    · subst j
      rw [nodes_after_self] at he ⊢
      exact h.tally_of_decides hc ha hf (hf.round newTerm r he)
    · rw [nodes_after_ne hj] at he ⊢
      obtain ⟨hlt, htally⟩ := h.round j newTerm r he
      refine ⟨hlt, htally.mono log_subset_after fun rpc args hm _ => ?_⟩
      rcases mem_log_after.mp hm with hm | ⟨hji, -⟩
      · exact hm
      · exact absurd hji hj
  case electable =>
    intro j hne
    by_cases hj : j = i
    · subst j
      rw [nodes_after_self] at hne
      rcases hf.electable hne with hold | hel
      · exact h.electable i hold
      · exact hel
    · rw [nodes_after_ne hj] at hne
      exact h.electable j hne
  case won =>
    intro j term hm
    rcases mem_log_after.mp hm with hold | ⟨rfl, hnew⟩
    · exact (h.won j term hold).mono fun v => ballots_mono log_subset_after
    · exact h.elected_of_won hc ha hf hnew

omit hc in
theorem inv_initial (hv : cfg.isV1ElectionProtocol = true)
    (loaded : Nat → OpTime × Option LastVote) : Inv cfg (initial cfg loaded) := by
  constructor
  case node =>
    intro i
    refine NodeInv.start hv ?_
    have hnone : ballots (initial cfg loaded).log i = ∅ := by
      simp [ballots, initial]
    rw [hnone]
    exact onePerTerm_empty
  all_goals simp [initial, Node.start]

theorem Inv.step (hv : cfg.isV1ElectionProtocol = true)
    {a : Nat × Action} (h : Inv cfg s) (hs : System.step cfg a s = some t) : Inv cfg t := by
  unfold System.step at hs
  split at hs
  · next hg =>
    obtain ⟨⟨n', events⟩, hn, rfl⟩ := Option.map_eq_some_iff.mp hs
    exact h.after hc hv hg.2 hn
  · cases hs

theorem inv_of_reach (hv : cfg.isV1ElectionProtocol = true)
    {loaded : Nat → OpTime × Option LastVote}
    (h : Reach (System.step cfg) (fun _ _ => True) (initial cfg loaded) s) : Inv cfg s :=
  Reach.invariant h (inv_initial hv loaded) fun hi _ hs => hi.step hc hv hs

end

/-- No two distinct members reach the winning branch of `_onVoteRequestComplete` for one term. -/
theorem election_safety (hc : cfg.validate configsvr = .ok ())
    (hv : cfg.isV1ElectionProtocol = true)
    {loaded : Nat → OpTime × Option LastVote}
    (h : Reach (System.step cfg) (fun _ _ => True) (initial cfg loaded) s) {i j : Nat} {term : Int}
    (hi : (i, .won term) ∈ s.log) (hj : (j, .won term) ∈ s.log) : i = j := by
  have hinv := inv_of_reach hc hv h
  have heq := (hinv.won i term hi).unique (hinv.won j term hj)
    fun v _ => ⟨_, (hinv.node v).once⟩
  exact_mod_cast heq

/-- Member 0 gets the vote of member 1, whose host is the first of its targets. -/
def voteOfMemberOne (serial : Nat) (dryRun : Bool) (term : Int) : List (Nat × Action) :=
  let rpc : Rpc := ⟨0, serial, ⟨"localhost", 27018⟩⟩
  let args : RequestVotesArgs := ⟨"rs0", dryRun, term, 0, 1, ⟨1, 0⟩⟩
  let granted : RequestVotesResponse := ⟨term, true, ""⟩
  [(1, .receive rpc args), (1, .finish ⟨rpc, args, .updated⟩ ⟨1, 0⟩),
    (1, .store ⟨rpc, args, .answered granted⟩ true), (1, .reply ⟨rpc, args, .stored granted true⟩),
    (0, .processResponse serial rpc.target (.reply granted))]

def electionOfMemberZero : List (Nat × Action) :=
  [(0, .startElectSelf ⟨1, 0⟩)] ++ voteOfMemberOne 0 true 0 ++
    [(0, .writeLastVote true), (0, .startVoteRequester ⟨1, 0⟩)] ++ voteOfMemberOne 1 false 1

theorem election_safety_threeMembers :
    ∃ s, run (System.step threeMembers) electionOfMemberZero
        (initial threeMembers fun _ => (⟨1, 0⟩, none)) = some s ∧
      (0, .won 1) ∈ s.log ∧ ∀ j, (j, .won 1) ∈ s.log → j = 0 := by
  have hrun : ((run (System.step threeMembers) electionOfMemberZero
      (initial threeMembers fun _ => (⟨1, 0⟩, none))).map fun s => decide ((0, .won 1) ∈ s.log)) =
      some true := by decide +kernel
  obtain ⟨s, hs, hwon⟩ := Option.map_eq_some_iff.mp hrun
  have hwon : (0, .won 1) ∈ s.log := of_decide_eq_true hwon
  have hvalid : threeMembers.validate false = .ok () := by decide +kernel
  refine ⟨s, hs, hwon, fun j hj => ?_⟩
  exact election_safety hvalid rfl (reach_of_run hs fun _ _ _ => trivial) hj hwon

end System
end MongolDb.Repl
