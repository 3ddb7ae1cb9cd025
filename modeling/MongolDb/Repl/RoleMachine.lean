import MongolDb.Repl.Coordinator
import MongolDb.Repl.RoleInvariant

/-! The role machine over every run of the coordinator's callbacks. -/
namespace MongolDb.Repl
open Option
namespace Coordinator

open Outcome TopologyCoordinator

variable {β : Type} {removed : ReplicaSetConfig → Bool} {e : Env} {s : Coordinator}
  {t u : TopologyCoordinator} {call : Call} {target : HostAndPort}

/-- The failures that count against the topology coordinator. -/
def blamed (a : Abort) : Prop := a = .topologyCoordinator

/-- The terms of the elections won in protocol version 1, in their order. -/
def winTerms (calls : List CallRecord) : List Int :=
  calls.filterMap fun c =>
    if c.call = .processWinElection ∧ c.before.protocolVersion = 1 then some c.before.term else none

/-- A call leaves role and primary index in step, and ends the leader's role only if it is a
step-down or a reconfig. -/
structure CallOk (c : CallRecord) : Prop where
  leader_iff : c.after.role = .leader ↔
    c.after.currentPrimaryIndex = c.after.selfIndex ∧ c.after.selfIndex ≠ none
  leaves : c.before.role = .leader → c.after.role ≠ .leader →
    c.call ∈ [.stepDown, .stepDownIfPending, Call.updateConfig]

/-- What holds after each call of the topology coordinator. -/
structure Core (s : Coordinator) : Prop where
  consistent : s.topCoord.Consistent
  callOk : ∀ c ∈ s.calls, CallOk c
  increasing : (winTerms s.calls).Pairwise (· < ·)
  bound : s.topCoord.protocolVersion = 1 → ∀ w ∈ winTerms s.calls, w ≤ s.topCoord.term

/-- An election in progress belongs to a candidate of its protocol version. -/
def CandidacyOk (s : Coordinator) : Candidacy → Prop
  | .freshnessCheck | .electCmd =>
    s.topCoord.protocolVersion ≠ 1 ∧ s.topCoord.members.length ≠ 1
  | .dryRun _ => s.topCoord.protocolVersion = 1
  | .voteRequest originalTerm =>
    s.topCoord.protocolVersion = 1 ∧ ∀ w ∈ winTerms s.calls, w < originalTerm

/-- The elections in progress are in order. -/
def CandidaciesOk (s : Coordinator) : Prop :=
  ∀ c, s.candidacy = some c → s.topCoord.role = .candidate ∧ CandidacyOk s c

/-- What holds between two callbacks. -/
structure Inv (s : Coordinator) : Prop extends Core s where
  cached : s.memberState = .primary → s.topCoord.role = .leader
  candidacy : ∀ c, s.candidacy = some c → s.topCoord.role = .candidate ∧ CandidacyOk s c

theorem inv_initial : Inv {} where
  consistent := consistent_initial
  callOk := by simp
  increasing := by simp [winTerms]
  bound := by simp [winTerms]
  cached := by simp
  candidacy := by simp

theorem protocolVersion_of_same (h : SameConfig t u) : u.protocolVersion = t.protocolVersion := by
  simp only [protocolVersion, h.rsConfig]

theorem members_of_same (h : SameConfig t u) : u.members = t.members := by
  simp only [members, h.rsConfig]

/-! ### One call -/

theorem winTerms_record (hc : call ≠ .processWinElection) :
    winTerms (s.record call u).calls = winTerms s.calls := by
  simp [winTerms, record, hc]

theorem core_record (h : Core s) (hu : u.Consistent)
    (hl : s.topCoord.role = .leader → u.role ≠ .leader →
      call ∈ [.stepDown, .stepDownIfPending, Call.updateConfig])
    (hb : u.protocolVersion = 1 → ∀ w ∈ winTerms s.calls, w ≤ u.term)
    (hc : call ≠ .processWinElection) : Core (s.record call u) where
  consistent := hu
  callOk := by
    intro c hmem
    rcases List.mem_append.mp hmem with hold | hnew
    · exact h.callOk c hold
    · rw [List.mem_singleton] at hnew
      subst hnew
      exact ⟨hu.leader_iff, hl⟩
  increasing := by
    rw [winTerms_record hc]
    exact h.increasing
  bound := by
    rw [winTerms_record hc]
    exact hb

/-- A call that keeps the config and never ends the leader's role. -/
theorem core_record_same (h : Core s) (hu : u.Consistent) (hs : SameConfig s.topCoord u)
    (hl : s.topCoord.role = .leader → u.role = .leader) (hc : call ≠ .processWinElection) :
    Core (s.record call u) :=
  core_record h hu (fun hr hn => absurd (hl hr) hn)
    (fun hp w hw => hs.term ▸ h.bound (protocolVersion_of_same hs ▸ hp) w hw) hc

/-- A call that keeps config and role keeps what holds between callbacks. -/
theorem inv_record (h : Inv s) (hu : u.Consistent) (hcfg : u.rsConfig = s.topCoord.rsConfig)
    (ht : s.topCoord.term ≤ u.term) (hr : u.role = s.topCoord.role)
    (hc : call ≠ .processWinElection) : Inv (s.record call u) := by
  have hp : u.protocolVersion = s.topCoord.protocolVersion := by simp only [protocolVersion, hcfg]
  have hm : u.members = s.topCoord.members := by simp only [members, hcfg]
  refine ⟨core_record h.toCore hu (fun hl hn => absurd (hr.trans hl) hn) ?_ hc, ?_, ?_⟩
  · exact fun hv w hw => (h.bound (hp ▸ hv) w hw).trans ht
  · exact fun hm => hr.trans (h.cached hm)
  · intro c hcand
    obtain ⟨hrole, hok⟩ := h.candidacy c hcand
    refine ⟨hr.trans hrole, ?_⟩
    cases c <;> simp only [CandidacyOk, winTerms_record hc] at hok ⊢ <;>
      simpa only [record, hp, hm] using hok

theorem inv_record_same (h : Inv s) (hu : u.Consistent) (hs : SameConfig s.topCoord u)
    (hr : u.role = s.topCoord.role) (hc : call ≠ .processWinElection) : Inv (s.record call u) :=
  inv_record h hu hs.rsConfig hs.term.ge hr hc

/-- Once no candidate is left, no election may be in progress. -/
theorem candidacy_eq_none (h : Inv s) (hr : s.topCoord.role ≠ .candidate) : s.candidacy = none := by
  rcases hc : s.candidacy with _ | c
  · rfl
  · exact absurd (h.candidacy c hc).1 hr

theorem perform_holds {Q : β × Coordinator → Prop}
    {f : TopologyCoordinator → Option (β × TopologyCoordinator)}
    (h : Returns (fun r => Q (r.1, s.record call r.2)) (f s.topCoord)) :
    Holds blamed Q (s.perform call f) := by
  obtain ⟨⟨b, u⟩, hf, hq⟩ := h
  simpa only [perform, hf, holds_ok] using hq

theorem performUnit_holds {Q : Coordinator → Prop}
    {f : TopologyCoordinator → Option TopologyCoordinator}
    (h : Returns (fun u => Q (s.record call u)) (f s.topCoord)) :
    Holds blamed Q (s.performUnit call f) := by
  obtain ⟨u, hf, hq⟩ := h
  simpa only [performUnit, hf, holds_ok] using hq

theorem invariant_holds (c : Bool) : Holds blamed (fun _ => c = true) (invariant c) := by
  unfold invariant
  split_ifs with hc
  · exact hc
  · simp [blamed]

/-! ### The parts of callbacks -/

theorem getMemberState_holds (h : s.topCoord.Consistent) :
    Holds blamed (fun state => state = .primary → s.topCoord.role = .leader)
      (s.getMemberState removed e) := by
  obtain ⟨state, hs, hp⟩ : Returns _ (s.topCoord.getMemberState removed e) := h.getMemberState
  simpa only [getMemberState, hs, holds_ok] using hp

/-- What the action after an update of the member state says about the state. -/
def ActionOk (s : Coordinator) : PostAction → Prop
  | .none | .other => True
  | .winElection => s.topCoord.role = .candidate ∧ s.topCoord.protocolVersion ≠ 1 ∧
      s.topCoord.members.length = 1
  | .startSingleNodeElection => s.topCoord.role = .candidate ∧ s.topCoord.protocolVersion = 1

theorem singleNodeAction_holds (hr : s.topCoord.role = .candidate) :
    Holds blamed (ActionOk s) s.singleNodeAction := by
  refine (invariant_holds _).bind fun _ hsingle => ?_
  have hlen : s.topCoord.members.length = 1 := by
    simp only [isSingleNode, Bool.and_eq_true, beq_iff_eq] at hsingle
    exact hsingle.1.1
  split_ifs with hv
  · exact ⟨hr, by simpa [isV1ElectionProtocol] using hv⟩
  · exact ⟨hr, by simpa [isV1ElectionProtocol] using hv, hlen⟩

/-- Only the copy of the member state changes. -/
theorem updateMemberStateFrom_holds (h : s.topCoord.Consistent) :
    Holds blamed (fun r => ActionOk s r.1 ∧ ∃ state, r.2 = { s with memberState := state } ∧
        (state = .primary → s.topCoord.role = .leader))
      (s.updateMemberStateFromTopologyCoordinator removed e) := by
  refine (getMemberState_holds h).bind fun state hstate => ?_
  split_ifs with hsame hcand hcand
  · exact (singleNodeAction_holds hcand).bind fun action ha => ⟨ha, state, by simp [hsame], hstate⟩
  · exact ⟨trivial, state, by simp [hsame], hstate⟩
  · exact (singleNodeAction_holds hcand.2).bind fun action ha => ⟨ha, state, rfl, hstate⟩
  · exact ⟨trivial, state, rfl, hstate⟩

theorem loseElection_holds (h : Inv s) (hr : s.topCoord.role = .candidate) :
    Holds blamed Inv s.loseElection := by
  refine performUnit_holds ((h.consistent.processLoseElection hr).mono fun u hu => ?_)
  obtain ⟨hu, hsame, hrole⟩ := hu
  have hcore : Core { s with candidacy := none } := { h with }
  refine ⟨core_record_same hcore hu hsame (fun hl => ?_) (by simp), ?_, by simp [record]⟩
  · simp [hr] at hl
  · exact fun hm => absurd (h.cached hm) (by simp [hr])

theorem startElection_holds (h : Inv s) (hr : s.topCoord.role = .candidate) {first : Candidacy}
    {nothingApplied : Bool} (hf : CandidacyOk s first) :
    Holds blamed Inv (s.startElection e first nothingApplied) := by
  refine (invariant_holds _).bind fun _ hnone => ?_
  have hinv : Inv { s with candidacy := some first } := { h with
    candidacy := by
      rintro c ⟨⟩
      exact ⟨hr, by cases first <;> exact hf⟩ }
  split_ifs with hsteady hnull
  · -- without an election in progress, losing it changes no more than the loss guards do
    have hs : { s with candidacy := none } = s := by
      rw [← isNone_iff_eq_none.mp hnone]
    have hlose := loseElection_holds h hr
    rwa [loseElection, hs] at hlose
  · refine (invariant_holds _).bind fun _ _ => ?_
    exact loseElection_holds hinv hr
  · refine (invariant_holds _).bind fun _ _ => ?_
    exact hinv

theorem startElectSelfV1_holds (h : Inv s) (hr : s.topCoord.role = .candidate)
    (hv : s.topCoord.protocolVersion = 1) : Holds blamed Inv (s.startElectSelfV1 e) :=
  startElection_holds h hr hv

theorem startElectSelf_holds (h : Inv s) (hr : s.topCoord.role = .candidate)
    (hv : s.topCoord.protocolVersion ≠ 1) (hm : s.topCoord.members.length ≠ 1) :
    Holds blamed Inv (s.startElectSelf e) :=
  startElection_holds h hr ⟨hv, hm⟩

/-- The calls after a win, whose term is later than those of the wins before. -/
theorem core_win (h : Core s) (hu : u.Consistent) (hs : SameConfig s.topCoord u)
    (hl : u.role = .leader)
    (hw : s.topCoord.protocolVersion = 1 → ∀ w ∈ winTerms s.calls, w < s.topCoord.term) :
    Core (s.record .processWinElection u) := by
  have hterms : winTerms (s.record .processWinElection u).calls =
      winTerms s.calls ++ if s.topCoord.protocolVersion = 1 then [s.topCoord.term] else [] := by
    by_cases hv : s.topCoord.protocolVersion = 1 <;> simp [winTerms, record, hv]
  refine ⟨hu, ?_, ?_, ?_⟩
  · intro c hmem
    rcases List.mem_append.mp hmem with hold | hnew
    · exact h.callOk c hold
    · rw [List.mem_singleton] at hnew
      subst hnew
      exact ⟨hu.leader_iff, fun _ hn => absurd hl hn⟩
  · rw [hterms]
    split_ifs with hv
    · exact List.pairwise_append.mpr
        ⟨h.increasing, List.pairwise_singleton .., fun a ha b hb => by
          rw [List.mem_singleton.mp hb]
          exact hw hv a ha⟩
    · simpa using h.increasing
  · intro hv w hmem
    rw [show (s.record .processWinElection u).topCoord = u from rfl,
      protocolVersion_of_same hs] at hv
    rw [hterms, if_pos hv, List.mem_append, List.mem_singleton] at hmem
    change w ≤ u.term
    rw [hs.term]
    rcases hmem with hold | rfl
    · exact h.bound hv w hold
    · exact le_refl _

/-- A win needs a candidate, and in protocol version 1 a term later than all before. -/
theorem winElection_holds (h : Core s) (hr : s.topCoord.role = .candidate)
    (hw : s.topCoord.protocolVersion = 1 → ∀ w ∈ winTerms s.calls, w < s.topCoord.term)
    (electionOpTime : Nat) :
    Holds blamed (fun s' => Core s' ∧ s'.topCoord.role = .leader ∧ s'.candidacy = s.candidacy)
      (s.winElection removed e electionOpTime) := by
  refine (performUnit_holds (Q := fun s' => Core s' ∧ s'.topCoord.role = .leader ∧
    s'.candidacy = s.candidacy) ?_).bind fun s' hs' => ?_
  · refine (h.consistent.processWinElection hr electionOpTime).mono fun u hu => ?_
    exact ⟨core_win h hu.1 hu.2.1 hu.2.2 hw, hu.2.2, rfl⟩
  · obtain ⟨hcore, hl, hcand⟩ := hs'
    refine (updateMemberStateFrom_holds hcore.consistent).bind ?_
    rintro ⟨action, _⟩ ⟨haction, state, rfl, _⟩
    refine (invariant_holds _).bind fun _ _ => ?_
    split_ifs with hstart
    · -- the action is for candidates only
      subst hstart
      exact absurd haction.1 (by simp [hl])
    · exact ⟨{ hcore with }, hl, hcand⟩

/-- A leader without an election in progress. -/
theorem inv_of_leader (h : Core s) (hl : s.topCoord.role = .leader) (hc : s.candidacy = none) :
    Inv s :=
  ⟨h, fun _ => hl, by simp [hc]⟩

theorem updateMemberState_holds (h : Core s) (hc : CandidaciesOk s) (electionOpTime : Nat) :
    Holds blamed Inv (s.updateMemberState removed e electionOpTime) := by
  refine (updateMemberStateFrom_holds h.consistent).bind ?_
  rintro ⟨action, _⟩ ⟨haction, state, rfl, hstate⟩
  have hinv : Inv { s with memberState := state } :=
    ⟨{ h with }, hstate, fun c hs => by
      obtain ⟨hr, hok⟩ := hc c hs
      exact ⟨hr, by cases c <;> exact hok⟩⟩
  cases action with
  | none | other => exact hinv
  | startSingleNodeElection => exact startElectSelfV1_holds hinv haction.1 haction.2
  | winElection =>
    obtain ⟨hr, hv, hlen⟩ := haction
    -- neither version's election can be in progress in a one-node set of version 0
    have hnone : s.candidacy = none := by
      rcases hcand : s.candidacy with _ | c
      · rfl
      · have hok := (hc c hcand).2
        cases c <;> simp_all [CandidacyOk]
    refine (winElection_holds hinv.toCore hr (fun hp => absurd hp hv) electionOpTime).mono ?_
    rintro s' ⟨hcore, hl, hcand⟩
    exact inv_of_leader hcore hl (hcand.trans hnone)

theorem updateMemberState_holds_of_inv (h : Inv s) (electionOpTime : Nat) :
    Holds blamed Inv (s.updateMemberState removed e electionOpTime) :=
  updateMemberState_holds h.toCore h.candidacy electionOpTime

/-- What a change of the term keeps. -/
structure TermUpdated (s s' : Coordinator) : Prop where
  inv : Inv s'
  rsConfig : s'.topCoord.rsConfig = s.topCoord.rsConfig
  selfIndex : s'.topCoord.selfIndex = s.topCoord.selfIndex
  role : s'.topCoord.role = s.topCoord.role
  winTerms : winTerms s'.calls = winTerms s.calls

theorem updateTermInCallback_holds (h : Inv s) (term : Int) :
    Holds blamed (TermUpdated s) (s.updateTermInCallback e term) := by
  unfold updateTermInCallback
  split_ifs with hv
  · refine (perform_holds (Q := fun r => TermUpdated s r.2) ?_).bind ?_
    · obtain ⟨hu, hr, hcfg, hself, hle, _⟩ := h.consistent.updateTerm (e := e) term
      exact returns_some ⟨inv_record h hu hcfg hle hr (by simp), hcfg, hself, hr,
        winTerms_record (by simp)⟩
    · rintro ⟨updated, s'⟩ ⟨hinv, hcfg, hself, hr, hw⟩
      dsimp only at hinv hcfg hself hr hw ⊢
      split_ifs with hup
      · have hl : s'.topCoord.role = .leader := by
          simp only [Bool.and_eq_true, beq_iff_eq] at hup
          exact hinv.cached hup.2
        refine performUnit_holds (returns_some ?_)
        exact ⟨inv_record_same hinv (hinv.consistent.setPending hl) ⟨rfl, rfl, rfl⟩ rfl (by simp),
          hcfg, hself, hr, (winTerms_record (by simp)).trans hw⟩
      · exact ⟨hinv, hcfg, hself, hr, hw⟩
  · exact ⟨h, rfl, rfl, rfl, rfl⟩

theorem handleHeartbeatResponseAction_holds (h : Inv s) {action : HeartbeatAction}
    (ha : action = .startElection → s.topCoord.role = .candidate ∧
      s.topCoord.protocolVersion ≠ 1 ∧ s.topCoord.members.length ≠ 1) :
    Holds blamed Inv (s.handleHeartbeatResponseAction removed e action) := by
  unfold handleHeartbeatResponseAction
  split
  · refine (getMemberState_holds h.consistent).bind fun state _ => ?_
    split_ifs
    · exact updateMemberState_holds_of_inv h 0
    · exact h
  · obtain ⟨hr, hv, hm⟩ := ha rfl
    exact startElectSelf_holds h hr hv hm
  · exact h

/-! ### The callbacks -/

section
variable (h : Inv s)
include h

/-- A follower that becomes a candidate in a call that keeps the config. -/
theorem inv_record_candidate (hf : s.topCoord.role = .follower) (hu : u.Consistent)
    (hs : SameConfig s.topCoord u) (hc : call ≠ .processWinElection) : Inv (s.record call u) := by
  have hnone : s.candidacy = none := candidacy_eq_none h (by simp [hf])
  refine ⟨core_record_same h.toCore hu hs (fun hl => ?_) hc, fun hm => ?_, by simp [record, hnone]⟩
  · simp [hf] at hl
  · exact absurd (h.cached hm) (by simp [hf])

theorem inv_of_standFacts {stands : Prop} (hu : StandFacts s.topCoord stands u)
    (hc : call ≠ .processWinElection) : Inv (s.record call u) := by
  rcases hu.role with hr | ⟨hf, _, _⟩
  · exact inv_record_same h hu.consistent hu.sameConfig hr hc
  · exact inv_record_candidate h hf hu.consistent hu.sameConfig hc

omit h in
/-- Two members have an index each. -/
theorem length_members_ne_one {i : Nat} (h : t.Consistent)
    (hi : t.findMemberIndexByHostAndPort target = some i) (hne : some i ≠ t.selfIndex)
    (hs : t.selfIndex ≠ none) : t.members.length ≠ 1 := by
  obtain ⟨self, hself⟩ := ne_none_iff_exists'.mp hs
  have hself' := h.self_lt self hself
  have hi' : i < t.members.length := by
    obtain ⟨hlt, -⟩ := List.findIdx?_eq_some_iff_getElem.mp hi
    exact hlt
  have : i ≠ self := fun he => hne (he ▸ hself.symm)
  omega

omit h in
theorem isHeartbeatTarget_iff : s.isHeartbeatTarget target = true ↔
      ∀ i, s.topCoord.findMemberIndexByHostAndPort target = some i →
        some i ≠ s.topCoord.selfIndex := by
  unfold isHeartbeatTarget
  cases s.topCoord.findMemberIndexByHostAndPort target <;> simp

theorem processHeartbeat_holds {status : HeartbeatStatus}
    (ht : s.isHeartbeatTarget target = true) : Holds blamed Inv (do
      let (action, s') ← s.perform .processHeartbeatResponse fun t =>
        t.processHeartbeatResponse removed e target status
      s'.handleHeartbeatResponseAction removed e action) := by
  have ht := isHeartbeatTarget_iff.mp ht
  refine (perform_holds (Q := fun r => Inv r.2 ∧ (r.1 = .startElection →
    r.2.topCoord.role = .candidate ∧ r.2.topCoord.protocolVersion ≠ 1 ∧
      r.2.topCoord.members.length ≠ 1)) ?_).bind ?_
  · refine (h.consistent.processHeartbeatResponse ht status).mono ?_
    rintro ⟨action, u⟩ ⟨⟨hu, hsame, hrole⟩, hfind⟩
    rcases hrole with ⟨ha, hr⟩ | ⟨ha, hf, hr, hv⟩
    · exact ⟨inv_record_same h hu hsame hr (by simp), fun hs => absurd hs ha⟩
    · refine ⟨inv_record_candidate h hf hu hsame (by simp), fun _ => ⟨hr, ?_, ?_⟩⟩
      · change u.protocolVersion ≠ 1
        rw [protocolVersion_of_same hsame, hv]
        simp
      · obtain ⟨i, hi⟩ := ne_none_iff_exists'.mp (hfind ha)
        change u.members.length ≠ 1
        rw [members_of_same hsame]
        exact length_members_ne_one h.consistent hi (ht i hi)
          (hsame.selfIndex ▸ hu.candidate_self hr)
  · rintro ⟨action, s'⟩ ⟨hinv, ha⟩
    exact handleHeartbeatResponseAction_holds hinv ha

theorem updateTermIfGiven_holds (ht : s.isHeartbeatTarget target = true) (term : Option Int) :
    Holds blamed (fun s' => Inv s' ∧ s'.isHeartbeatTarget target = true)
      (s.updateTermIfGiven e term) := by
  cases term with
  | none => exact ⟨h, ht⟩
  | some term =>
    refine (updateTermInCallback_holds h term).mono fun s' hs' => ⟨hs'.inv, ?_⟩
    simpa only [isHeartbeatTarget, findMemberIndexByHostAndPort, members, hs'.rsConfig,
      hs'.selfIndex] using ht

theorem handleHeartbeatResponse_holds (target : HostAndPort) (status : HeartbeatStatus)
    (metadataTerm : Option Int) :
    Holds blamed Inv (s.handleHeartbeatResponse removed e target status metadataTerm) := by
  unfold handleHeartbeatResponse
  split_ifs with ht
  · refine (updateTermIfGiven_holds h ht metadataTerm).bind fun s₁ h₁ => ?_
    refine (updateTermIfGiven_holds h₁.1 h₁.2 status.term).bind fun s₂ h₂ => ?_
    exact processHeartbeat_holds h₂.1 h₂.2
  · exact h

theorem handleLivenessTimeout_holds (memberIndex : Nat) :
    Holds blamed Inv (s.handleLivenessTimeout removed e memberIndex) := by
  unfold handleLivenessTimeout
  split_ifs with hif
  · simp only [Bool.and_eq_true, beq_iff_eq, bne_iff_ne] at hif
    have hl := h.cached hif.1.2
    refine (perform_holds (Q := fun r => Inv r.2 ∧ r.1 ≠ .startElection) ?_).bind ?_
    · refine (h.consistent.setMemberAsDown hif.2 hl).mono ?_
      rintro ⟨action, u⟩ ⟨hu, hsame, hrole⟩
      rcases hrole with ⟨ha, hr⟩ | ⟨_, hf, _⟩
      · exact ⟨inv_record_same h hu hsame hr (by simp), ha⟩
      · simp [hl] at hf
    · rintro ⟨action, s'⟩ ⟨hinv, ha⟩
      exact handleHeartbeatResponseAction_holds hinv fun hs => absurd hs ha
  · exact h

/-- Becoming a candidate where that is allowed. -/
theorem becomeCandidateIfElectable_holds :
    Holds blamed (fun r => Inv r.2 ∧ SameConfig s.topCoord r.2.topCoord ∧
        (r.1 = true → r.2.topCoord.role = .candidate))
      (s.perform .becomeCandidateIfElectable fun t => t.becomeCandidateIfElectable removed e) := by
  refine perform_holds (h.consistent.becomeCandidateIfElectable.mono ?_)
  rintro r (rfl | ⟨rfl, hf, hs⟩)
  · exact ⟨inv_record_same h h.consistent (.refl _) rfl (by simp), .refl _, by simp⟩
  · exact ⟨inv_record_candidate h hf (h.consistent.becomeCandidate hf hs) ⟨rfl, rfl, rfl⟩ (by simp),
      ⟨rfl, rfl, rfl⟩, fun _ => rfl⟩

theorem startElectSelfIfEligibleV1_holds :
    Holds blamed Inv (s.startElectSelfIfEligibleV1 removed e) := by
  unfold startElectSelfIfEligibleV1
  split_ifs with hv
  · refine (becomeCandidateIfElectable_holds h).bind ?_
    rintro ⟨stands, s'⟩ ⟨hinv, hsame, hr⟩
    dsimp only at hinv hsame hr ⊢
    split_ifs with hst
    · refine startElectSelfV1_holds hinv (hr hst) ?_
      rw [protocolVersion_of_same hsame]
      simpa [isV1ElectionProtocol] using hv
    · exact hinv
  · exact h

theorem recoverFromElectionTie_holds (hv : s.topCoord.protocolVersion ≠ 1)
    (hm : s.topCoord.members.length ≠ 1) :
    Holds blamed Inv (s.recoverFromElectionTie removed e) := by
  obtain ⟨stands, heq, _⟩ : Returns _ (s.topCoord.checkShouldStandForElection removed e) :=
    h.consistent.checkShouldStandForElection
  unfold recoverFromElectionTie
  rw [heq]
  cases stands with
  | false => exact h
  | true =>
    refine (becomeCandidateIfElectable_holds h).bind ?_
    rintro ⟨stands, s'⟩ ⟨hinv, hsame, hr⟩
    refine (invariant_holds _).bind fun _ hst => ?_
    refine startElectSelf_holds hinv (hr hst) ?_ ?_
    · rwa [protocolVersion_of_same hsame]
    · rwa [members_of_same hsame]

theorem onDryRunComplete_holds (elected : Bool) :
    Holds blamed Inv (s.onDryRunComplete e elected) := by
  unfold onDryRunComplete
  split
  · next originalTerm hcand =>
    obtain ⟨hr, hv⟩ := h.candidacy _ hcand
    split_ifs with hterm
    · refine (updateTermInCallback_holds h (originalTerm + 1)).bind ?_
      rintro s' ⟨hinv, hcfg, _, hr', hw⟩
      refine { hinv with candidacy := ?_ }
      rintro c ⟨⟩
      refine ⟨hr'.trans hr, ?_, fun w hmem => ?_⟩
      · simpa only [CandidacyOk, protocolVersion, hcfg] using hv
      · have hbound := h.bound hv w (hw ▸ hmem)
        omega
    · exact loseElection_holds h hr
  · exact h

theorem onVoteRequestAbandoned_holds : Holds blamed Inv s.onVoteRequestAbandoned := by
  unfold onVoteRequestAbandoned
  split
  · next hcand => exact loseElection_holds h (h.candidacy _ hcand).1
  · exact h

theorem onVoteRequestComplete_holds (elected : Bool) (electionOpTime : Nat) :
    Holds blamed Inv (s.onVoteRequestComplete removed e elected electionOpTime) := by
  unfold onVoteRequestComplete
  split
  · next originalTerm hcand =>
    obtain ⟨hr, hv, hw⟩ := h.candidacy _ hcand
    split_ifs with hterm
    · refine (winElection_holds h.toCore hr ?_ electionOpTime).bind fun s' hs' => ?_
      · exact fun _ w hmem => hterm.1 ▸ hw w hmem
      · obtain ⟨hcore, hl, _⟩ := hs'
        exact inv_of_leader { hcore with } hl rfl
    · exact loseElection_holds h hr
  · exact h

theorem setElectionSleepUntil_holds (sleepUntil : Option Int) :
    Holds blamed (fun s' => Inv s' ∧ s'.topCoord.role = s.topCoord.role)
      (s.setElectionSleepUntil sleepUntil) := by
  cases sleepUntil with
  | none => exact ⟨h, rfl⟩
  | some time =>
    unfold setElectionSleepUntil
    refine performUnit_holds ⟨_, rfl, ?_, rfl⟩
    exact inv_record_same h (h.consistent.setElectionSleepUntil _) ⟨rfl, rfl, rfl⟩ rfl (by simp)

/-- An election of protocol version 0 that is lost. -/
theorem sleepAndLose_holds (hr : s.topCoord.role = .candidate) (sleepUntil : Option Int) :
    Holds blamed Inv (do
      let s' ← s.setElectionSleepUntil sleepUntil
      s'.loseElection) :=
  (setElectionSleepUntil_holds h sleepUntil).bind fun _ hs' =>
    loseElection_holds hs'.1 (hs'.2.trans hr)

theorem onFreshnessCheckComplete_holds (fresh : Bool) (sleepUntil : Option Int) :
    Holds blamed Inv (s.onFreshnessCheckComplete fresh sleepUntil) := by
  unfold onFreshnessCheckComplete
  split
  · next hcand =>
    obtain ⟨hr, hok⟩ := h.candidacy _ hcand
    split_ifs
    · refine { h with candidacy := ?_ }
      rintro c ⟨⟩
      exact ⟨hr, hok⟩
    · exact sleepAndLose_holds h hr sleepUntil
  · exact h

theorem onElectCmdRunnerComplete_holds (elected : Bool) (sleepUntil : Option Int)
    (electionOpTime : Nat) :
    Holds blamed Inv (s.onElectCmdRunnerComplete removed e elected sleepUntil electionOpTime) := by
  unfold onElectCmdRunnerComplete
  split
  · next hcand =>
    obtain ⟨hr, hok⟩ := h.candidacy _ hcand
    split_ifs
    · have hcore : Core { s with candidacy := none } := { h with }
      refine (winElection_holds hcore hr (fun hv => absurd hv hok.1) electionOpTime).mono ?_
      rintro s' ⟨hcore', hl, hnone⟩
      exact inv_of_leader hcore' hl hnone
    · exact sleepAndLose_holds h hr sleepUntil
  · exact h

/-- After a call in which the leader may have stepped down. -/
theorem inv_or_steppedDown {stepped : Bool}
    (hcall : call ∈ [.stepDown, .stepDownIfPending, Call.updateConfig])
    (hu : (stepped, u) = (false, s.topCoord) ∨
      stepped = true ∧ u.Consistent ∧ SameConfig s.topCoord u ∧ u.role = .follower)
    (hl : stepped = true → s.topCoord.role = .leader) :
    Core (s.record call u) ∧ (stepped = false → Inv (s.record call u)) ∧
      CandidaciesOk (s.record call u) := by
  have hwin : call ≠ .processWinElection := by
    rintro rfl
    simp at hcall
  rcases hu with hu | ⟨rfl, hu, hsame, hr⟩
  · obtain ⟨rfl, rfl⟩ := Prod.mk.inj hu
    have hinv : Inv (s.record call s.topCoord) :=
      inv_record_same h h.consistent (.refl _) rfl hwin
    exact ⟨hinv.toCore, fun _ => hinv, hinv.candidacy⟩
  · have hnone : s.candidacy = none := candidacy_eq_none h (by simp [hl rfl])
    refine ⟨core_record h.toCore hu (fun _ _ => hcall) ?_ hwin, by simp,
      by simp [CandidaciesOk, record, hnone]⟩
    exact fun hv w hw => hsame.term ▸ h.bound (protocolVersion_of_same hsame ▸ hv) w hw

theorem stepDownContinue_holds (deadline : Int) (force : Bool) :
    Holds blamed Inv (s.stepDownContinue removed e deadline force) := by
  unfold stepDownContinue
  split_ifs with hif
  · refine (perform_holds (Q := fun r => Core r.2 ∧ (r.1 = false → Inv r.2) ∧
      CandidaciesOk r.2) ?_).bind ?_
    · refine (h.consistent.stepDown hif.1 deadline force).mono ?_
      rintro ⟨stepped, u⟩ hu
      exact inv_or_steppedDown h (by simp) hu fun _ => hif.1
    · rintro ⟨stepped, s'⟩ ⟨hcore, hinv, hcand⟩
      dsimp only at hcore hinv hcand ⊢
      split_ifs with hst
      · exact updateMemberState_holds hcore hcand 0
      · exact hinv (Bool.eq_false_iff.mpr hst)
  · exact h

theorem stepDownFinish_holds : Holds blamed Inv (s.stepDownFinish removed e) := by
  refine (perform_holds (Q := fun r => Core r.2 ∧ CandidaciesOk r.2) ?_).bind fun r hr => ?_
  · have hl : s.topCoord.stepDownPending = true → s.topCoord.role = .leader :=
      h.consistent.pending_leader
    obtain ⟨⟨stepped, u⟩, heq, hu⟩ := h.consistent.stepDownIfPending
    have hst : stepped = true → s.topCoord.stepDownPending = true := by
      intro hst
      by_contra hp
      simp [stepDownIfPending, hp, hst] at heq
    have hcall : Call.stepDownIfPending ∈ [.stepDown, .stepDownIfPending, Call.updateConfig] := by
      simp
    obtain ⟨hcore, _, hcand⟩ := inv_or_steppedDown h hcall hu fun hs => hl (hst hs)
    exact ⟨(stepped, u), heq, hcore, hcand⟩
  · exact updateMemberState_holds hr.1 hr.2 0

/-- A one-node set may win without an election only as a follower, and in protocol version 1 only
in a term later than those it won before. -/
def mayWinAlone (s : Coordinator) : Bool :=
  s.topCoord.role == .follower && (s.topCoord.protocolVersion != 1 ||
    (winTerms s.calls).all fun w => decide (w < s.topCoord.term))

omit h in
theorem mayWinAlone_iff : s.mayWinAlone = true ↔ s.topCoord.role = .follower ∧
    (s.topCoord.protocolVersion = 1 → ∀ w ∈ winTerms s.calls, w < s.topCoord.term) := by
  simp [mayWinAlone, or_iff_not_imp_left]

/-- The win of a candidate that stands alone. -/
theorem winAlone_holds (hs : s.mayWinAlone = true) (hu : u.Consistent)
    (hsame : SameConfig s.topCoord u) (hr : u.role = .candidate)
    (hc : call ≠ .processWinElection) (electionOpTime : Nat) :
    Holds blamed Inv ((s.record call u).winElection removed e electionOpTime) := by
  obtain ⟨hf, hw⟩ := mayWinAlone_iff.mp hs
  have hcore := (inv_record_candidate h hf hu hsame hc).toCore
  have hnone : s.candidacy = none := candidacy_eq_none h (by simp [hf])
  refine (winElection_holds hcore hr ?_ electionOpTime).mono fun s' hs' => ?_
  · intro hv w hmem
    rw [winTerms_record hc] at hmem
    exact hsame.term.symm ▸ hw (protocolVersion_of_same hsame ▸ hv) w hmem
  · exact inv_of_leader hs'.1 hs'.2.1 (hs'.2.2.trans hnone)

theorem handleTimePassing_holds
    (hs : s.topCoord.stepDownUntil ≤ e.now → s.topCoord.standsAlone = true → s.mayWinAlone = true)
    (electionOpTime : Nat) : Holds blamed Inv (s.handleTimePassing removed e electionOpTime) := by
  have hfollower := fun h₁ h₂ => (mayWinAlone_iff.mp (hs h₁ h₂)).1
  unfold handleTimePassing
  rcases h.consistent.becomeCandidateIfStepdownPeriodOver hfollower with heq | ⟨heq, hst, hu⟩
  · simp only [perform, heq]
    exact inv_record_same h h.consistent (.refl _) rfl (by simp)
  · simp only [perform, heq]
    exact winAlone_holds h (hs hst.1 hst.2) hu ⟨rfl, rfl, rfl⟩ rfl (by simp) electionOpTime

theorem freeze_holds (hr : s.topCoord.role ≠ .candidate) {secs : Int}
    (hs : secs = 0 → s.topCoord.standsAlone = true → s.mayWinAlone = true) (electionOpTime : Nat) :
    Holds blamed Inv (s.processReplSetFreezeFinish removed e secs electionOpTime) := by
  obtain ⟨u, heq, hu⟩ : Returns _ (s.topCoord.prepareFreezeResponse e secs) :=
    h.consistent.prepareFreezeResponse fun h₁ h₂ => (mayWinAlone_iff.mp (hs h₁ h₂)).1
  unfold processReplSetFreezeFinish
  simp only [performUnit, heq]
  change Holds blamed Inv (if u.role = .candidate then _ else _)
  split_ifs with hcand
  · rcases hu.role with hrole | ⟨_, _, hst⟩
    · exact absurd (hrole.symm.trans hcand) hr
    · exact winAlone_holds h (hs hst.1 hst.2) hu.consistent hu.sameConfig hcand (by simp)
        electionOpTime
  · exact inv_of_standFacts h hu (by simp)

theorem setFollowerModeFinish_holds (mode : FollowerMode) (electionOpTime : Nat) :
    Holds blamed Inv (s.setFollowerModeFinish removed e mode.toMemberState electionOpTime) := by
  refine (getMemberState_holds h.consistent).bind fun state _ => ?_
  split_ifs
  · exact h
  · cases hr : s.topCoord.role with
    | leader => exact h
    | candidate => exact (invariant_holds _).bind fun _ _ => h
    | follower =>
      refine (performUnit_holds (Q := Inv) ?_).bind fun s' hs' =>
        updateMemberState_holds_of_inv hs' electionOpTime
      refine (h.consistent.setFollowerMode hr ?_).mono fun u hu => inv_of_standFacts h hu (by simp)
      cases mode <;> simp [FollowerMode.toMemberState]

end

/-- The winner that the heartbeats already show, or this node itself if it is leader. -/
def winnerKnown (t : TopologyCoordinator) (args : DeclareElectionWinnerArgs) : Bool :=
  t.refusesWinner args || t.selfIndex.isNone ||
    if t.role = .leader then t.findMemberIndexByConfigId args.winnerId == t.selfIndex
    else (t.findMemberIndexByConfigId args.winnerId).all (t.remotePrimaries.contains ·)

theorem declareElectionWinner_holds (h : Inv s) {args : DeclareElectionWinnerArgs}
    (hw : winnerKnown s.topCoord args = true) :
    Holds blamed Inv (s.processReplSetDeclareElectionWinner args) := by
  have hu : (s.topCoord.processReplSetDeclareElectionWinner args).Consistent := by
    refine h.consistent.declareWinner fun hrefuse hs => ?_
    simp only [winnerKnown, hrefuse, isNone_eq_false_iff.mpr
      (isSome_iff_ne_none.mpr hs), Bool.or_self, Bool.false_or] at hw
    split_ifs at hw ⊢
    · simpa using hw
    · intro k hk
      simpa [hk] using hw
  unfold processReplSetDeclareElectionWinner
  split_ifs
  · refine performUnit_holds ⟨_, rfl, ?_⟩
    unfold TopologyCoordinator.processReplSetDeclareElectionWinner at hu ⊢
    split_ifs at hu ⊢
    · exact inv_record_same h hu (.refl _) rfl (by simp)
    · exact inv_record_same h hu ⟨rfl, rfl, rfl⟩ rfl (by simp)
  · exact h

/-- A config that no candidate is in the way of, whose protocol version and priorities the topology
coordinator can work with, and that does not start the terms of version 1 over after a win. -/
def configUsable (s : Coordinator) (newConfig : ReplicaSetConfig) : Bool :=
  s.topCoord.role != .candidate && (newConfig.protocolVersion == 0 || newConfig.protocolVersion == 1) &&
    newConfig.members.all hasReason &&
    (newConfig.protocolVersion == 0 || s.topCoord.protocolVersion == 1 || (winTerms s.calls).isEmpty)

theorem setCurrentRSConfig_holds (h : Inv s) {newConfig : ReplicaSetConfig}
    (hc : s.configUsable newConfig = true) (myIndex : Option (Fin newConfig.members.length))
    (electionOpTime : Nat) :
    Holds blamed Inv
      (s.setCurrentRSConfig removed e newConfig (myIndex.map Fin.val) electionOpTime) := by
  simp only [configUsable, Bool.and_eq_true, bne_iff_ne, Bool.or_eq_true, beq_iff_eq,
    List.all_eq_true, List.isEmpty_iff] at hc
  obtain ⟨⟨⟨hr, hp⟩, hreason⟩, hterms⟩ := hc
  have hindex : ∀ i, myIndex.map Fin.val = some i → i < newConfig.members.length := by
    intro i hi
    obtain ⟨j, _, rfl⟩ := map_eq_some_iff.mp hi
    exact j.isLt
  have hnone := candidacy_eq_none h hr
  refine (performUnit_holds (Q := fun s' => Core s' ∧ s'.candidacy = none) ?_).bind fun s' hs' =>
    updateMemberState_holds hs'.1 (by simp [CandidaciesOk, hs'.2]) electionOpTime
  refine (h.consistent.updateConfig hr hindex hp hreason).mono fun u hu => ⟨?_, hnone⟩
  obtain ⟨hu, hcfg, hterm⟩ := hu
  refine core_record h.toCore hu (fun _ _ => by simp) (fun hv w hmem => ?_) (by simp)
  have hv' : newConfig.protocolVersion = 1 := by simpa [protocolVersion, hcfg] using hv
  rcases hterms with (h₀ | h₁) | hnil
  · omega
  · -- the protocol version stays, and with it the term
    have hsome : s.topCoord.rsConfig ≠ none := by
      intro hn
      simp [protocolVersion, hn] at h₁
    rw [termFor, if_neg (by simp [hsome, h₁, hv'])] at hterm
    exact some.inj hterm ▸ h.bound h₁ w hmem
  · simp [hnil] at hmem

/-! ### Runs -/

/-- The condition on a callback, read off the state it runs in. -/
def regular (s : Coordinator) : Callback → Bool
  | .setCurrentRSConfig _ newConfig _ _ => s.configUsable newConfig
  | .freeze _ secs _ => s.topCoord.role != .candidate &&
      (secs != 0 || !s.topCoord.standsAlone || s.mayWinAlone)
  | .handleTimePassing e _ =>
    decide (e.now < s.topCoord.stepDownUntil) || !s.topCoord.standsAlone || s.mayWinAlone
  | .declareElectionWinner args => winnerKnown s.topCoord args
  | .recoverFromElectionTie _ =>
    s.topCoord.protocolVersion != 1 && s.topCoord.members.length != 1
  | _ => true

theorem exec_holds (h : Inv s) {a : Callback} (ha : s.regular a = true) :
    Holds blamed Inv (s.exec removed a) := by
  cases a with
  | heartbeatResponse e target status metadataTerm =>
    exact handleHeartbeatResponse_holds h target status metadataTerm
  | livenessTimeout e memberIndex => exact handleLivenessTimeout_holds h memberIndex
  | updateTerm e term => exact (updateTermInCallback_holds h term).mono fun _ hs => hs.inv
  | electionTimeout e => exact startElectSelfIfEligibleV1_holds h
  | dryRunComplete e elected => exact onDryRunComplete_holds h elected
  | voteRequestAbandoned => exact onVoteRequestAbandoned_holds h
  | voteRequestComplete e elected electionOpTime =>
    exact onVoteRequestComplete_holds h elected electionOpTime
  | freshnessCheckComplete fresh sleepUntil => exact onFreshnessCheckComplete_holds h fresh sleepUntil
  | electCmdRunnerComplete e elected sleepUntil electionOpTime =>
    exact onElectCmdRunnerComplete_holds h elected sleepUntil electionOpTime
  | recoverFromElectionTie e =>
    simp only [regular, Bool.and_eq_true, bne_iff_ne] at ha
    exact recoverFromElectionTie_holds h ha.1 ha.2
  | stepDownContinue e deadline force => exact stepDownContinue_holds h deadline force
  | stepDownFinish e => exact stepDownFinish_holds h
  | handleTimePassing e electionOpTime =>
    refine handleTimePassing_holds h (fun hnow hst => ?_) electionOpTime
    simpa [regular, hst, not_lt.mpr hnow] using ha
  | freeze e secs electionOpTime =>
    simp only [regular, Bool.and_eq_true, bne_iff_ne] at ha
    refine freeze_holds h ha.1 (fun hsecs hst => ?_) electionOpTime
    simpa [hsecs, hst] using ha.2
  | setFollowerMode e mode electionOpTime => exact setFollowerModeFinish_holds h mode electionOpTime
  | declareElectionWinner args => exact declareElectionWinner_holds h ha
  | setCurrentRSConfig e newConfig myIndex electionOpTime =>
    exact setCurrentRSConfig_holds h ha myIndex electionOpTime

theorem inv_of_reach
    (h : Transition.Reach (step removed) (fun s a => regular s a = true) {} s) : Inv s := by
  refine h.invariant inv_initial fun {s s' a} hs ha hstep => ?_
  have hok : s.exec removed a = .ok s' := by
    unfold step at hstep
    cases hx : s.exec removed a with
    | ok s₁ =>
      rw [hx] at hstep
      exact congrArg _ (some.inj hstep)
    | error err =>
      rw [hx] at hstep
      cases hstep
  exact (exec_holds hs ha).of_ok hok

/-- In every run of callbacks that are `regular` where they run: after each call of the topology
coordinator the node is leader just if it is the primary it knows of, a leader is one until a
step-down or a reconfig, the terms of the elections won in protocol version 1 increase, and no
invariant of the topology coordinator fails next. -/
theorem role_machine_consistent (removed : ReplicaSetConfig → Bool) (s : Coordinator)
    (h : Transition.Reach (step removed) (fun s a => regular s a = true) {} s) :
    (∀ c ∈ s.calls, (c.after.role = .leader ↔
      c.after.currentPrimaryIndex = c.after.selfIndex ∧ c.after.selfIndex ≠ none)) ∧
    (∀ c ∈ s.calls, c.before.role = .leader → c.after.role ≠ .leader →
      c.call ∈ [.stepDown, .stepDownIfPending, Call.updateConfig]) ∧
    (winTerms s.calls).Pairwise (· < ·) ∧
    ∀ a, s.regular a = true → s.exec removed a ≠ .error .topologyCoordinator := by
  have hinv := inv_of_reach h
  refine ⟨fun c hc => (hinv.callOk c hc).leader_iff, fun c hc => (hinv.callOk c hc).leaves,
    hinv.increasing, fun a ha => ?_⟩
  exact (exec_holds hinv ha).not_error rfl

/-- A set of one member, in protocol version 1. -/
def oneMember : ReplicaSetConfig where
  version := 1
  replSetName := "rs"
  heartbeatInterval := 2000
  electionTimeoutPeriod := 10000
  members := [{
    id := 0, host := ⟨"h0", 27017⟩, priority := Binary64.ofNat 1, votes := 1, arbiterOnly := false
    slaveDelay := 0, hidden := false, buildIndexes := true, tags := [] }]
  defaultWriteConcern := ⟨1, ""⟩
  customWriteConcernModes := []
  protocolVersion := 1
  configServer := false

def someEnv (now : Int) : Env where
  now := now
  lastOpApplied := ⟨2 ^ 32, 0⟩
  maintenance := false
  votedTooRecently := false
  steady := true

/-- The member starts up and is elected. -/
def becomesPrimary : List Callback :=
  [.setCurrentRSConfig (someEnv 0) oneMember (some ⟨0, by decide⟩) 0,
    .setFollowerMode (someEnv 1) .secondary 0,
    .dryRunComplete (someEnv 2) true,
    .voteRequestComplete (someEnv 3) true 1]

theorem role_machine_consistent_oneMember : ∃ s : Coordinator,
    Transition.Reach (step fun _ => false) (fun s a => regular s a = true) {} s ∧
    s.topCoord.role = .leader ∧ winTerms s.calls = [1] ∧
    (winTerms s.calls).Pairwise (· < ·) := by
  have hrun : ((Transition.run (Transition.guarded (step fun _ => false) regular) becomesPrimary
      {}).map fun s => decide (s.topCoord.role = .leader ∧ winTerms s.calls = [1])) = some true := by
    decide +kernel
  obtain ⟨s, hs, hdec⟩ := map_eq_some_iff.mp hrun
  have hfacts := of_decide_eq_true hdec
  have hreach := Transition.reach_of_guarded_run hs
  exact ⟨s, hreach, hfacts.1, hfacts.2,
    (role_machine_consistent (fun _ => false) s hreach).2.2.1⟩

/-- The primary of a one-node set that is told `replSetFreeze: 0` becomes a candidate without a
step-down, while it is still the primary it knows of, and wins again in the same term. -/
theorem freeze_breaks_role_machine : ∃ s : Coordinator,
    Transition.run (step fun _ => false) (becomesPrimary ++ [.freeze (someEnv 4) 0 2]) {} = some s ∧
    (∃ c ∈ s.calls, c.call = .prepareFreezeResponse ∧ c.before.role = .leader ∧
      c.after.role = .candidate ∧ c.after.currentPrimaryIndex = some 0 ∧
      c.after.selfIndex = some 0) ∧
    winTerms s.calls = [1, 1] := by
  have hrun : ((Transition.run (step fun _ => false)
      (becomesPrimary ++ [.freeze (someEnv 4) 0 2]) {}).map fun s =>
      decide ((∃ c ∈ s.calls, c.call = .prepareFreezeResponse ∧ c.before.role = .leader ∧
        c.after.role = .candidate ∧ c.after.currentPrimaryIndex = some 0 ∧
        c.after.selfIndex = some 0) ∧ winTerms s.calls = [1, 1])) = some true := by
    decide +kernel
  obtain ⟨s, hs, hdec⟩ := map_eq_some_iff.mp hrun
  exact ⟨s, hs, of_decide_eq_true hdec⟩

end Coordinator
end MongolDb.Repl
