import MongolDb.Repl.TopologyCoordinator

/-! What the fields of the topology coordinator say about each other, and that its functions keep
it so. -/
namespace MongolDb.Repl
namespace TopologyCoordinator

open Outcome List

variable {removed : ReplicaSetConfig → Bool} {e : Env} {t u : TopologyCoordinator} {i k : Nat}

/-- A member whose priority is a number is electable or has a reason not to be. -/
def hasReason (m : MemberConfig) : Bool := m.isArbiter || noPriority m || m.isElectable

structure Consistent (t : TopologyCoordinator) : Prop where
  self_lt : ∀ i, t.selfIndex = some i → i < t.members.length
  length_hbdata : t.hbdata.length = t.members.length
  leader_iff : t.role = .leader ↔ t.currentPrimaryIndex = t.selfIndex ∧ t.selfIndex ≠ none
  /-- Another member is believed to be primary because its heartbeat says so. -/
  seen : t.selfIndex ≠ none → ∀ k, t.currentPrimaryIndex = some k → some k ≠ t.selfIndex →
    (t.hbdata[k]?).any (·.isUpPrimary) = true
  candidate_self : t.role = .candidate → t.selfIndex ≠ none
  pending_leader : t.stepDownPending = true → t.role = .leader
  hasReason : ∀ m ∈ t.members, hasReason m = true
  followerMode : t.followerMode ≠ .primary

theorem consistent_initial : Consistent {} := by
  constructor <;> simp [members]

namespace Consistent
variable (h : t.Consistent)
include h

theorem selfConfig_eq_none : t.selfConfig = none ↔ t.selfIndex = none := by
  rw [selfConfig]
  cases hi : t.selfIndex with
  | none => simp
  | some i =>
    have hlt := h.self_lt i hi
    simp [hlt]

theorem iAmPrimary : t.iAmPrimary = some (decide (t.role = .leader)) := by
  unfold TopologyCoordinator.iAmPrimary
  split
  · next hl => simp [(h.leader_iff.mp hl).1, hl]
  · next hl => simp [hl]

theorem getMemberState :
    Returns (fun state => state = .primary → t.role = .leader) (t.getMemberState removed e) := by
  unfold TopologyCoordinator.getMemberState
  split
  · exact returns_some (by simp)
  · exact returns_some (by simp)
  · split_ifs with h₁ h₂ h₃ h₄ h₅
    · exact returns_some (by simp)
    · exact returns_some (by simp [h₂])
    · exact absurd (h.leader_iff.mp h₂).1 h₃
    · exact returns_some (by simp)
    · exact returns_some (by simp)
    · exact returns_some fun hp => absurd hp h.followerMode

theorem getMyUnelectableReason :
    Returns (fun reasons => reasons = [] → t.selfIndex ≠ none)
      (t.getMyUnelectableReason removed e) := by
  unfold TopologyCoordinator.getMyUnelectableReason
  cases hs : t.selfConfig with
  | none => exact returns_some (by simp)
  | some self =>
    have hi : t.selfIndex ≠ none := by
      rw [Ne, ← h.selfConfig_eq_none, hs]
      simp
    refine h.getMemberState.bind fun state _ => ?_
    split_ifs
    · exact returns_some fun _ => hi
    · rw [h.iAmPrimary]
      exact returns_some fun _ => hi

theorem getUnelectableReason (hi : i < t.members.length)
    (hs : some i ≠ t.selfIndex) :
    Returns (fun _ => True) (t.getUnelectableReason e i) := by
  have hd : i < t.hbdata.length := h.length_hbdata ▸ hi
  have hr := h.hasReason _ (getElem_mem hi)
  unfold TopologyCoordinator.getUnelectableReason
  rw [List.getElem?_eq_getElem hi, List.getElem?_eq_getElem hd]
  simp only [if_neg hs]
  rw [if_pos]
  · exact returns_some trivial
  · -- an arbiter and a member without priority have a reason
    simp only [TopologyCoordinator.hasReason, Bool.or_eq_true] at hr
    rcases hr with (hr | hr) | hr
    · exact .inl (by simp [reasonIf, hr])
    · exact .inl (by simp [reasonIf, hr])
    · exact .inr hr

theorem checkShouldStandForElection :
    Returns (fun stands => stands = true → t.role = .follower ∧
      ∃ reasons, t.getMyUnelectableReason removed e = some reasons ∧ reasons = [])
      (t.checkShouldStandForElection removed e) := by
  unfold TopologyCoordinator.checkShouldStandForElection
  split_ifs with hp
  · exact returns_some (by simp)
  · cases hr : t.role with
    | leader =>
      have hl := h.leader_iff.mp hr
      exact absurd (hl.1 ▸ hl.2) hp
    | candidate => exact returns_some (by simp)
    | follower =>
      obtain ⟨reasons, heq, _⟩ : Returns _ (t.getMyUnelectableReason removed e) :=
        h.getMyUnelectableReason
      simp only [heq, Option.map_some]
      refine returns_some fun hb => ⟨trivial, reasons, rfl, ?_⟩
      simp only [Bool.and_eq_true, List.isEmpty_iff] at hb
      exact hb.1

/-- Becoming a candidate changes the role and nothing else. -/
theorem becomeCandidateIfElectable :
    Returns (fun r => r = (false, t) ∨
        r = (true, { t with role := .candidate }) ∧ t.role = .follower ∧ t.selfIndex ≠ none)
      (t.becomeCandidateIfElectable removed e) := by
  unfold TopologyCoordinator.becomeCandidateIfElectable
  cases hr : t.role with
  | leader | candidate => exact returns_some (.inl rfl)
  | follower =>
    refine h.getMyUnelectableReason.map fun reasons hs => ?_
    split_ifs with hreasons
    · exact .inr ⟨rfl, rfl, hs (List.isEmpty_iff.mp hreasons)⟩
    · exact .inl rfl

/-- A follower may become a candidate if it is in the config. -/
theorem becomeCandidate (hr : t.role = .follower) (hs : t.selfIndex ≠ none) :
    Consistent { t with role := .candidate } :=
  { h with
    leader_iff := by
      have hl := h.leader_iff
      rw [hr] at hl
      simpa using hl
    candidate_self := fun _ => hs
    pending_leader := fun hp => absurd (h.pending_leader hp) (by simp [hr]) }

end Consistent

theorem mem_others {p : HeartbeatData × Nat} :
    p ∈ t.others ↔ t.hbdata[p.2]? = some p.1 ∧ some p.2 ≠ t.selfIndex := by
  obtain ⟨d, i⟩ := p
  simp [others, mk_mem_zipIdx_iff_getElem?]

theorem mem_remotePrimaries :
    i ∈ t.remotePrimaries ↔
      (t.hbdata[i]?).any (·.isUpPrimary) = true ∧ some i ≠ t.selfIndex := by
  simp only [remotePrimaries, mem_map, mem_filter, mem_others]
  constructor
  · rintro ⟨⟨d, _⟩, ⟨⟨hd, hs⟩, hp⟩, rfl⟩
    exact ⟨by simpa [hd] using hp, hs⟩
  · rintro ⟨hp, hs⟩
    obtain ⟨d, hd, hup⟩ : ∃ d, t.hbdata[i]? = some d ∧ d.isUpPrimary = true := by
      cases hd : t.hbdata[i]? with
      | none => simp [hd] at hp
      | some d => exact ⟨d, rfl, by simpa [hd] using hp⟩
    exact ⟨(d, i), ⟨⟨hd, hs⟩, hup⟩, rfl⟩

/-- The scan for the primary of the latest term ends at one of the primaries it passes. -/
theorem foldl_latest {l : List Nat} {best : Option Nat} {f : Option Nat → Nat → Option Nat}
    (hf : ∀ b i, f b i = some i ∨ ∃ k, b = some k ∧ f b i = some k) :
    (l.foldl f best = none → l = [] ∧ best = none) ∧
      ∀ i, l.foldl f best = some i → i ∈ l ∨ best = some i := by
  induction l generalizing best with
  | nil => simp
  | cons a l ih =>
    obtain ⟨hnone, hsome⟩ := @ih (f best a)
    rw [foldl_cons]
    constructor
    · intro h
      have hb := (hnone h).2
      rcases hf best a with ha | ⟨k, _, ha⟩ <;> simp [ha] at hb
    · intro i h
      rcases hsome i h with hi | hi
      · exact .inl (mem_cons_of_mem a hi)
      · rcases hf best a with ha | ⟨k, hk, ha⟩
        · rw [ha] at hi
          exact .inl (by simp [Option.some.inj hi])
        · rw [ha] at hi
          exact .inr (hk.trans hi)

theorem latestPrimary_spec :
    (t.latestPrimary = none → t.remotePrimaries = []) ∧
      ∀ i, t.latestPrimary = some i → i ∈ t.remotePrimaries := by
  have hlatest : (t.latestPrimary = none → t.remotePrimaries = [] ∧ (none : Option Nat) = none) ∧
      ∀ i, t.latestPrimary = some i → i ∈ t.remotePrimaries ∨ none = some i := by
    apply foldl_latest
    intro b i
    cases b with
    | none => exact .inl rfl
    | some k => by_cases hk : t.heartbeatTerm k < t.heartbeatTerm i <;> simp [hk]
  obtain ⟨hnone, hsome⟩ := hlatest
  exact ⟨fun h => (hnone h).1, fun i h => (hsome i h).resolve_right (by simp)⟩

/-- What a function that keeps the config and the term leaves alone. -/
structure SameConfig (t u : TopologyCoordinator) : Prop where
  rsConfig : u.rsConfig = t.rsConfig
  selfIndex : u.selfIndex = t.selfIndex
  term : u.term = t.term

theorem SameConfig.refl (t : TopologyCoordinator) : SameConfig t t := ⟨rfl, rfl, rfl⟩

theorem SameConfig.trans (h : SameConfig t u) (k : SameConfig u v) : SameConfig t v :=
  ⟨k.rsConfig.trans h.rsConfig, k.selfIndex.trans h.selfIndex, k.term.trans h.term⟩

/-- What comes of a heartbeat: the role stays, unless an election of protocol version 0 starts. -/
structure HeartbeatFacts (t : TopologyCoordinator) (action : HeartbeatAction)
    (u : TopologyCoordinator) : Prop where
  consistent : u.Consistent
  sameConfig : SameConfig t u
  role : action ≠ .startElection ∧ u.role = t.role ∨
    action = .startElection ∧ t.role = .follower ∧ u.role = .candidate ∧ t.protocolVersion = 0

theorem HeartbeatFacts.unchanged (h : t.Consistent) {action : HeartbeatAction}
    (ha : action ≠ .startElection) : HeartbeatFacts t action t :=
  ⟨h, .refl t, .inl ⟨ha, rfl⟩⟩

/-- A change before that keeps config and role. -/
theorem HeartbeatFacts.of_same {action : HeartbeatAction}
    (h : HeartbeatFacts u action v) (hs : SameConfig t u) (hr : u.role = t.role) :
    HeartbeatFacts t action v where
  consistent := h.consistent
  sameConfig := hs.trans h.sameConfig
  role := by
    have hp : u.protocolVersion = t.protocolVersion := by
      simp only [protocolVersion, hs.rsConfig]
    rw [← hr, ← hp]
    exact h.role

namespace Consistent
variable (h : t.Consistent)
include h

theorem setPending (hl : t.role = .leader) :
    Consistent { t with stepDownPending := true } :=
  { h with pending_leader := fun _ => hl }

theorem setElectionSleepUntil (time : Int) :
    Consistent { t with electionSleepUntil := time } :=
  { h with }

/-- Another member that is up and primary may become the known primary. -/
theorem setPrimary (hl : t.role ≠ .leader) (hi : i ∈ t.remotePrimaries) :
    Consistent { t with currentPrimaryIndex := some i } := by
  obtain ⟨hup, hs⟩ := mem_remotePrimaries.mp hi
  refine { h with leader_iff := ?_, seen := ?_ }
  · exact ⟨fun hr => absurd hr hl, fun hr => absurd hr.1 hs⟩
  · rintro _ k ⟨⟩ _
    exact hup

theorem clearPrimary (hl : t.role ≠ .leader) :
    Consistent { t with currentPrimaryIndex := none } :=
  { h with
    leader_iff := ⟨fun hr => absurd hr hl, fun hr => absurd hr.1.symm hr.2⟩
    seen := fun _ _ hk => nomatch hk }

theorem heartbeatFacts_relinquish (hl : t.role = .leader) :
    HeartbeatFacts t t.relinquish.1 t.relinquish.2 := by
  unfold relinquish
  split_ifs
  · exact .unchanged h (by simp)
  · exact ⟨(h.setPending hl), ⟨rfl, rfl, rfl⟩, .inl ⟨by simp, rfl⟩⟩

theorem relinquishIfMinority (hl : t.role = .leader) :
    Returns (fun r => HeartbeatFacts t r.1 r.2) (t.relinquishIfMinority removed e) := by
  refine h.getMyUnelectableReason.map fun reasons _ => ?_
  split_ifs
  · exact h.heartbeatFacts_relinquish hl
  · exact .unchanged h (by simp)

/-- With no remote primary in the heartbeat data, no other member is believed to be primary. -/
theorem currentPrimaryIndex_eq_none (hs : t.selfIndex ≠ none)
    (hl : t.role ≠ .leader) (hp : t.remotePrimaries = []) : t.currentPrimaryIndex = none := by
  rcases hc : t.currentPrimaryIndex with _ | k
  · rfl
  · have hk : some k ≠ t.selfIndex := fun hk => hl (h.leader_iff.mpr ⟨hc.trans hk, hs⟩)
    have hm := mem_remotePrimaries.mpr ⟨h.seen hs k hc hk, hk⟩
    simp [hp] at hm

theorem updateWithoutRemotePrimary (hs : t.selfIndex ≠ none)
    (hp : t.role ≠ .leader → t.remotePrimaries = []) (original : MemberState) :
    Returns (fun r => HeartbeatFacts t r.1 r.2)
      (t.updateWithoutRemotePrimary removed e original) := by
  unfold TopologyCoordinator.updateWithoutRemotePrimary
  rw [h.iAmPrimary]
  by_cases hl : t.role = .leader
  · simpa [hl] using h.relinquishIfMinority hl
  · have hc := h.currentPrimaryIndex_eq_none hs hl (hp hl)
    obtain ⟨state, hstate, _⟩ : Returns _ (t.getMemberState removed e) := h.getMemberState
    obtain ⟨stands, hstands, hfollower⟩ : Returns _ (t.checkShouldStandForElection removed e) :=
      h.checkShouldStandForElection
    simp only [hl, hc, hstate, hstands, Option.bind_eq_bind, Option.bind_some, decide_false,
      Bool.false_eq_true, if_false, ne_eq, not_true_eq_false]
    split_ifs with hrec hst hv0
    · exact returns_some (.unchanged h (by simp))
    · -- the checks passed, so the same checks let the node become a candidate
      obtain ⟨hr, reasons, hreasons, rfl⟩ := hfollower hst
      have hb : t.becomeCandidateIfElectable removed e = some (true, { t with role := .candidate })
          := by simp [TopologyCoordinator.becomeCandidateIfElectable, hr, hreasons]
      simp only [hb, Option.bind_some]
      exact returns_some ⟨h.becomeCandidate hr hs, ⟨rfl, rfl, rfl⟩, .inr ⟨rfl, hr, rfl, hv0⟩⟩
    · exact returns_some (.unchanged h (by simp))
    · exact returns_some (.unchanged h (by simp))

theorem updateWithRemotePrimary (hi : i ∈ t.remotePrimaries) :
    Returns (fun r => HeartbeatFacts t r.1 r.2) (t.updateWithRemotePrimary i) := by
  unfold TopologyCoordinator.updateWithRemotePrimary
  rw [h.iAmPrimary]
  by_cases hc : t.currentPrimaryIndex = some i
  · rw [if_pos hc]
    exact returns_some (.unchanged h (by simp))
  · rw [if_neg hc]
    refine returns_some ?_
    by_cases hl : t.role = .leader
    · simp only [hl, decide_true, if_true]
      split_ifs
      · exact h.heartbeatFacts_relinquish hl
      · exact .unchanged h (by simp)
    · simp only [hl, decide_false, Bool.false_eq_true, if_false]
      exact ⟨(h.setPrimary hl hi), ⟨rfl, rfl, rfl⟩, .inl ⟨by simp, rfl⟩⟩

theorem highestPriorityElectable {l : List Nat}
    (hl : ∀ i ∈ l, i < t.members.length) (best : Option Nat) :
    Returns (fun _ => True) (t.highestPriorityElectable removed e l best) := by
  induction l generalizing best with
  | nil => exact returns_some trivial
  | cons i l ih =>
    have hrest := ih (forall_mem_cons.mp hl).2
    rw [TopologyCoordinator.highestPriorityElectable]
    split_ifs with hi
    · exact h.getMyUnelectableReason.bind fun reasons _ => hrest _
    · exact (h.getUnelectableReason (hl i (by simp)) hi).bind fun reasons _ => hrest _

theorem updateForPriority :
    Returns (fun r => ∀ p, r = some p → HeartbeatFacts t p.1 p.2)
      (t.updateForPriority removed e) := by
  unfold TopologyCoordinator.updateForPriority
  split
  · exact returns_some (by simp)
  · obtain ⟨highest, heq, _⟩ : Returns _ (t.getHighestPriorityElectableIndex removed e) :=
      h.highestPriorityElectable (fun i hi => mem_range.mp hi) none
    simp only [heq, Option.bind_eq_bind, Option.bind_some]
    cases highest with
    | none => exact returns_some (by simp)
    | some highest =>
      simp only [h.iAmPrimary, Option.bind_some]
      by_cases hl : t.role = .leader
      · simp only [decide_eq_true hl, if_true]
        split_ifs
        · exact returns_some (by rintro _ ⟨⟩; exact .unchanged h (by simp))
        · refine returns_some ?_
          rintro _ ⟨⟩
          exact ⟨((h.setPending hl).setElectionSleepUntil _), ⟨rfl, rfl, rfl⟩, .inl ⟨by simp, rfl⟩⟩
        · exact returns_some (by simp)
      · simp only [hl, decide_false, Bool.false_eq_true, if_false]
        split_ifs
        · refine returns_some ?_
          rintro _ ⟨⟩
          exact ⟨(h.clearPrimary hl), ⟨rfl, rfl, rfl⟩, .inl ⟨by simp, rfl⟩⟩
        · exact returns_some (by simp)
        · exact returns_some (by simp)

theorem setHeartbeatData_of_self_eq_none (hs : t.selfIndex = none)
    (f : HeartbeatData → HeartbeatData) : (t.setHeartbeatData i f).Consistent :=
  { h with
    length_hbdata := (length_modify ..).trans h.length_hbdata
    seen := fun hn => absurd hs hn }

/-- The data of a member may change if a primary that is none any more is forgotten. -/
theorem confirmPrimary (hi : some i ≠ t.selfIndex)
    (f : HeartbeatData → HeartbeatData) :
    ((t.setHeartbeatData i f).confirmPrimary i).Consistent := by
  have hlen : (t.hbdata.modify i f).length = t.members.length :=
    (length_modify ..).trans h.length_hbdata
  have hother : ∀ k, k ≠ i → (t.hbdata.modify i f)[k]? = t.hbdata[k]? := fun k hk => by
    rw [getElem?_modify_ne _ _ hk.symm]
  unfold TopologyCoordinator.confirmPrimary setHeartbeatData
  split_ifs with hc
  · have hl : t.role ≠ .leader := fun hl => hi (hc.1.symm.trans (h.leader_iff.mp hl).1)
    refine { h with length_hbdata := hlen, leader_iff := ?_, seen := ?_ }
    · exact ⟨fun hr => absurd hr hl, fun hr => absurd hr.1.symm hr.2⟩
    · exact fun _ _ hk => nomatch hk
  · refine { h with length_hbdata := hlen, seen := ?_ }
    intro hs k hk hne
    by_cases hki : k = i
    · subst hki
      by_contra hup
      exact hc ⟨hk, hup⟩
    · simpa only [hother k hki] using h.seen hs k hk hne

end Consistent

theorem confirmPrimary_same (i : Nat) (f : HeartbeatData → HeartbeatData)
    (t : TopologyCoordinator) :
    SameConfig t ((t.setHeartbeatData i f).confirmPrimary i) ∧
      ((t.setHeartbeatData i f).confirmPrimary i).role = t.role := by
  unfold confirmPrimary
  split_ifs
  · exact ⟨⟨rfl, rfl, rfl⟩, rfl⟩
  · exact ⟨⟨rfl, rfl, rfl⟩, rfl⟩

namespace Consistent
variable (h : t.Consistent)
include h

section
variable (hi : some i ≠ t.selfIndex) (f : HeartbeatData → HeartbeatData) (original : MemberState)
include hi

/-- After the data of another member has changed. -/
theorem updatePrimaryFromHBDataV1 :
    Returns (fun r => HeartbeatFacts t r.1 r.2)
      ((t.setHeartbeatData i f).updatePrimaryFromHBDataV1 removed e i original) := by
  unfold TopologyCoordinator.updatePrimaryFromHBDataV1
  obtain ⟨hset, hrole⟩ := confirmPrimary_same i f t
  have hv := h.confirmPrimary hi f
  rw [if_neg (show some i ≠ (t.setHeartbeatData i f).selfIndex from hi)]
  cases hs : t.selfIndex with
  | none =>
    have hs' : (t.setHeartbeatData i f).selfIndex = none := hs
    simp only [hs']
    exact returns_some
      ⟨h.setHeartbeatData_of_self_eq_none hs f, ⟨rfl, rfl, rfl⟩, .inl ⟨by simp, rfl⟩⟩
  | some self =>
    have hs' : (t.setHeartbeatData i f).selfIndex = some self := hs
    simp only [hs']
    generalize (t.setHeartbeatData i f).confirmPrimary i = v at hset hrole hv
    have hself : v.selfIndex ≠ none := by simp [hset.selfIndex, hs]
    split
    · next remote hremote =>
      split_ifs at hremote with hc
      have hl : v.role ≠ .leader := fun hl => hc (hv.leader_iff.mp hl).1
      refine returns_some ⟨hv.setPrimary hl (latestPrimary_spec.2 _ hremote),
        ⟨hset.rsConfig, hset.selfIndex, hset.term⟩, .inl ⟨?_, hrole⟩⟩
      split_ifs <;> simp
    · next hremote =>
      refine (hv.updateWithoutRemotePrimary hself ?_ original).mono
        fun r hr => hr.of_same hset hrole
      intro hl
      rw [if_neg fun hc => hl (hv.leader_iff.mpr ⟨hc, hself⟩)] at hremote
      exact latestPrimary_spec.1 hremote

theorem updatePrimaryFromHBData :
    Returns (fun r => HeartbeatFacts t r.1 r.2)
      ((t.setHeartbeatData i f).updatePrimaryFromHBData removed e i original) := by
  unfold TopologyCoordinator.updatePrimaryFromHBData
  obtain ⟨hset, hrole⟩ := confirmPrimary_same i f t
  have hv := h.confirmPrimary hi f
  rw [if_neg (show some i ≠ (t.setHeartbeatData i f).selfIndex from hi)]
  split_ifs with hs
  · exact returns_some
      ⟨h.setHeartbeatData_of_self_eq_none hs f, ⟨rfl, rfl, rfl⟩, .inl ⟨by simp, rfl⟩⟩
  · generalize (t.setHeartbeatData i f).confirmPrimary i = v at hset hrole hv
    have hself : v.selfIndex ≠ none := by rwa [hset.selfIndex]
    refine hv.updateForPriority.bind fun r hr => ?_
    rcases r with _ | result
    · dsimp only
      split
      · next hp =>
        exact (hv.updateWithoutRemotePrimary hself (fun _ => hp) original).mono
          fun r hr => hr.of_same hset hrole
      · next remote hp =>
        exact (hv.updateWithRemotePrimary (by simp [hp])).mono fun r hr => hr.of_same hset hrole
      · exact returns_some ⟨hv, hset, .inl ⟨by simp, hrole⟩⟩
    · exact returns_some ((hr result rfl).of_same hset hrole)

end

theorem processHeartbeatResponse {target : HostAndPort}
    (ht : ∀ i, t.findMemberIndexByHostAndPort target = some i → some i ≠ t.selfIndex)
    (status : HeartbeatStatus) :
    Returns (fun r => HeartbeatFacts t r.1 r.2 ∧
        (r.1 = .startElection → t.findMemberIndexByHostAndPort target ≠ none))
      (t.processHeartbeatResponse removed e target status) := by
  refine h.getMemberState.bind fun original _ => ?_
  by_cases hn : t.hasNewerConfig status = true
  · simp only [hn, if_true]
    exact returns_some ⟨.unchanged h (by simp), by simp⟩
  · simp only [hn, Bool.false_eq_true, if_false]
    cases hi : t.findMemberIndexByHostAndPort target with
    | none => exact returns_some ⟨.unchanged h (by simp), by simp⟩
    | some i =>
      simp only [if_neg (ht i hi)]
      split_ifs
      · exact (h.updatePrimaryFromHBData (ht i hi) _ original).mono fun r hr => ⟨hr, by simp⟩
      · exact (h.updatePrimaryFromHBDataV1 (ht i hi) _ original).mono fun r hr => ⟨hr, by simp⟩

theorem setMemberAsDown (hi : some i ≠ t.selfIndex) (hl : t.role = .leader) :
    Returns (fun r => HeartbeatFacts t r.1 r.2) (t.setMemberAsDown removed e i) := by
  have hprimary := (h.leader_iff.mp hl).1
  have hc : (t.setHeartbeatData i fun _ => .setDownValues).Consistent := { h with
    length_hbdata := (length_modify ..).trans h.length_hbdata
    seen := fun _ k hk hne => absurd (hk.symm.trans hprimary) hne }
  unfold TopologyCoordinator.setMemberAsDown
  rw [if_neg (by simp [hi, hprimary])]
  exact (hc.relinquishIfMinority hl).mono fun r hr => hr.of_same ⟨rfl, rfl, rfl⟩ rfl

theorem setStepDownUntil (time : Int) :
    Consistent { t with stepDownUntil := time } :=
  { h with }

end Consistent

theorem selfIndex_of_standsAlone (h : t.standsAlone = true) : t.selfIndex ≠ none := by
  simp only [standsAlone, Bool.and_eq_true, beq_iff_eq] at h
  simp [h.1.2]

/-- What may happen to the role of a node that stands for election in lieu of heartbeats. -/
structure StandFacts (t : TopologyCoordinator) (stands : Prop) (u : TopologyCoordinator) : Prop where
  consistent : u.Consistent
  sameConfig : SameConfig t u
  role : u.role = t.role ∨ t.role = .follower ∧ u.role = .candidate ∧ stands

theorem StandFacts.of_same {p q : Prop} (h : StandFacts u p v)
    (hs : SameConfig t u) (hr : u.role = t.role) (hpq : p → q) : StandFacts t q v where
  consistent := h.consistent
  sameConfig := hs.trans h.sameConfig
  role := by
    rw [← hr]
    exact h.role.imp_right fun ⟨hf, hc, hp⟩ => ⟨hf, hc, hpq hp⟩

namespace Consistent
variable (h : t.Consistent)
include h

theorem standIfAlone (hs : t.standsAlone = true → t.role = .follower) :
    StandFacts t (t.standsAlone = true) t.standIfAlone := by
  unfold TopologyCoordinator.standIfAlone
  split_ifs with hsingle
  · have hr := hs hsingle
    exact ⟨h.becomeCandidate hr (selfIndex_of_standsAlone hsingle), ⟨rfl, rfl, rfl⟩,
      .inr ⟨hr, rfl, hsingle⟩⟩
  · exact ⟨h, .refl t, .inl rfl⟩

theorem prepareFreezeResponse {secs : Int}
    (hs : secs = 0 → t.standsAlone = true → t.role = .follower) :
    Returns (StandFacts t (secs = 0 ∧ t.standsAlone = true)) (t.prepareFreezeResponse e secs) := by
  unfold TopologyCoordinator.prepareFreezeResponse
  split_ifs with hsecs
  · exact returns_some (((h.setStepDownUntil e.now).standIfAlone (hs hsecs)).of_same
      ⟨rfl, rfl, rfl⟩ rfl fun hp => ⟨hsecs, hp⟩)
  · rw [h.iAmPrimary]
    refine returns_some ?_
    dsimp only
    split_ifs
    · exact ⟨h, .refl t, .inl rfl⟩
    · exact ⟨h.setStepDownUntil _, ⟨rfl, rfl, rfl⟩, .inl rfl⟩

theorem becomeCandidateIfStepdownPeriodOver
    (hs : t.stepDownUntil ≤ e.now → t.standsAlone = true → t.role = .follower) :
    t.becomeCandidateIfStepdownPeriodOverAndSingleNodeSet e = (false, t) ∨
      t.becomeCandidateIfStepdownPeriodOverAndSingleNodeSet e =
          (true, { t with role := .candidate }) ∧
        (t.stepDownUntil ≤ e.now ∧ t.standsAlone = true) ∧
        Consistent { t with role := .candidate } := by
  unfold becomeCandidateIfStepdownPeriodOverAndSingleNodeSet
  split_ifs with hnow hsingle
  · exact .inl rfl
  · exact .inr ⟨rfl, ⟨not_lt.mp hnow, hsingle⟩,
      h.becomeCandidate (hs (not_lt.mp hnow) hsingle) (selfIndex_of_standsAlone hsingle)⟩
  · exact .inl rfl

theorem setFollowerMode (hr : t.role = .follower) {mode : MemberState}
    (hm : mode ∈ [.recovering, .rollback, .secondary, MemberState.startup2]) :
    Returns (StandFacts t True) (t.setFollowerMode mode) := by
  have hmode : mode ≠ .primary := by
    rintro rfl
    simp at hm
  have hu : Consistent { t with followerMode := mode } := { h with followerMode := hmode }
  unfold TopologyCoordinator.setFollowerMode
  rw [if_pos ⟨hr, hm⟩]
  exact returns_some ((hu.standIfAlone fun _ => hr).of_same ⟨rfl, rfl, rfl⟩ rfl fun _ => trivial)

theorem processWinElection (hr : t.role = .candidate) (electionOpTime : Nat) :
    Returns (fun u => u.Consistent ∧ SameConfig t u ∧ u.role = .leader)
      (t.processWinElection electionOpTime) := by
  unfold TopologyCoordinator.processWinElection
  rw [if_pos hr]
  refine returns_some ⟨?_, ⟨rfl, rfl, rfl⟩, rfl⟩
  refine { h with leader_iff := ?_, seen := ?_, candidate_self := ?_, pending_leader := ?_ }
  · exact ⟨fun _ => ⟨rfl, h.candidate_self hr⟩, fun _ => rfl⟩
  · exact fun _ k hk hne => absurd hk.symm hne
  · simp
  · simp

theorem processLoseElection (hr : t.role = .candidate) :
    Returns (fun u => u.Consistent ∧ SameConfig t u ∧ u.role = .follower)
      t.processLoseElection := by
  have hl := h.leader_iff
  rw [hr] at hl
  unfold TopologyCoordinator.processLoseElection
  rw [if_pos hr]
  refine returns_some ⟨?_, ⟨rfl, rfl, rfl⟩, rfl⟩
  refine { h with leader_iff := ?_, candidate_self := ?_, pending_leader := ?_ }
  · simpa using hl
  · simp
  · exact fun hp => absurd (h.pending_leader hp) (by simp [hr])

theorem stepDownSelfAndReplaceWith (hl : t.role = .leader)
    {newPrimary : Option Nat} (hp : ∀ k, newPrimary = some k → k ∈ t.remotePrimaries) :
    Returns (fun u => u.Consistent ∧ SameConfig t u ∧ u.role = .follower)
      (t.stepDownSelfAndReplaceWith newPrimary) := by
  obtain ⟨hprimary, hself⟩ := h.leader_iff.mp hl
  have hnew : t.selfIndex ≠ newPrimary := by
    intro hn
    obtain ⟨k, hk⟩ := Option.ne_none_iff_exists'.mp hself
    exact (mem_remotePrimaries.mp (hp k (hn ▸ hk))).2 hk.symm
  unfold TopologyCoordinator.stepDownSelfAndReplaceWith
  rw [if_pos ⟨hl, hself, hnew, hprimary.symm⟩]
  refine returns_some ⟨?_, ⟨rfl, rfl, rfl⟩, rfl⟩
  refine { h with leader_iff := ?_, seen := ?_, candidate_self := ?_, pending_leader := ?_ }
  · simpa using fun hn => absurd hn.symm hnew
  · exact fun _ k hk _ => (mem_remotePrimaries.mp (hp k hk)).1
  · simp
  · simp

theorem canTakeOver {l : List Nat} (hl : ∀ i ∈ l, i < t.members.length) :
    Returns (fun _ => True) (t.canTakeOver e l) := by
  induction l with
  | nil => exact returns_some trivial
  | cons i l ih =>
    have hrest := ih (forall_mem_cons.mp hl).2
    rw [TopologyCoordinator.canTakeOver]
    split_ifs with hi
    · exact hrest
    · refine (h.getUnelectableReason (hl i (by simp)) hi).bind fun reasons _ => ?_
      split_ifs
      · exact returns_some trivial
      · exact hrest

/-- A leader steps down, or nothing changes. -/
theorem stepDown (hl : t.role = .leader) (deadline : Int) (force : Bool) :
    Returns (fun r => r = (false, t) ∨
        r.1 = true ∧ r.2.Consistent ∧ SameConfig t r.2 ∧ r.2.role = .follower)
      (t.stepDown e deadline force) := by
  have hcan : Returns (fun _ => True) (t.canStepDown e force) := by
    unfold canStepDown
    split_ifs
    · exact returns_some trivial
    · exact h.canTakeOver fun i hi => mem_range.mp hi
  refine hcan.bind fun canStepDown _ => ?_
  split_ifs
  · refine ((h.setStepDownUntil deadline).stepDownSelfAndReplaceWith hl (by simp)).bind
      fun u ⟨hu, hsame, hr⟩ => ?_
    exact returns_some (.inr ⟨rfl, hu, ⟨hsame.rsConfig, hsame.selfIndex, hsame.term⟩, hr⟩)
  · exact returns_some (.inl rfl)

theorem stepDownIfPending :
    Returns (fun r => r = (false, t) ∨
        r.1 = true ∧ r.2.Consistent ∧ SameConfig t r.2 ∧ r.2.role = .follower)
      t.stepDownIfPending := by
  unfold TopologyCoordinator.stepDownIfPending
  split_ifs with hp
  · refine (h.stepDownSelfAndReplaceWith (h.pending_leader hp) ?_).map
      fun u hu => .inr ⟨rfl, hu.1, hu.2.1, hu.2.2⟩
    intro k hk
    unfold onlyPrimary at hk
    split at hk
    · next i hi => simp [hi, Option.some.inj hk]
    · cases hk
  · exact returns_some (.inl rfl)

theorem updateTerm (term : Int) :
    (t.updateTerm e term).2.Consistent ∧ (t.updateTerm e term).2.role = t.role ∧
      (t.updateTerm e term).2.rsConfig = t.rsConfig ∧
      (t.updateTerm e term).2.selfIndex = t.selfIndex ∧
      t.term ≤ (t.updateTerm e term).2.term ∧ term ≤ (t.updateTerm e term).2.term := by
  unfold TopologyCoordinator.updateTerm
  split_ifs with hterm
  · exact ⟨h, rfl, rfl, rfl, le_refl _, hterm⟩
  · exact ⟨{ h with }, rfl, rfl, rfl, le_of_lt (not_le.mp hterm), le_refl _⟩

omit h in
omit h in
/-- The fields that a new config fixes make the others consistent. -/
theorem roleInNewConfig (hr : t.role ≠ .candidate)
    (hself : ∀ i, t.selfIndex = some i → i < t.members.length)
    (hlen : t.hbdata.length = t.members.length) (hp : t.stepDownPending = false)
    (hreason : ∀ m ∈ t.members, TopologyCoordinator.hasReason m = true)
    (hmode : t.followerMode ≠ .primary) :
    t.roleInNewConfig.Consistent ∧ SameConfig t t.roleInNewConfig := by
  unfold TopologyCoordinator.roleInNewConfig
  split_ifs with hleader
  · obtain ⟨hl, hel⟩ := hleader
    have hs : t.selfIndex ≠ none := by
      intro hs
      simp [selfConfig, hs] at hel
    exact ⟨{
      self_lt := hself
      length_hbdata := hlen
      leader_iff := ⟨fun _ => ⟨rfl, hs⟩, fun _ => hl⟩
      seen := fun _ k hk hne => absurd hk.symm hne
      candidate_self := fun hc => absurd hc hr
      pending_leader := fun hc => by simp [hp] at hc
      hasReason := hreason
      followerMode := hmode }, ⟨rfl, rfl, rfl⟩⟩
  · have hv : Consistent { t with role := .follower, currentPrimaryIndex := none } := {
      self_lt := hself
      length_hbdata := hlen
      leader_iff := ⟨nofun, fun hc => absurd hc.1.symm hc.2⟩
      seen := fun _ k hk => nomatch hk
      candidate_self := nofun
      pending_leader := fun hc => by simp [hp] at hc
      hasReason := hreason
      followerMode := hmode }
    have hstand := hv.standIfAlone fun _ => rfl
    exact ⟨hstand.consistent, ⟨hstand.sameConfig.rsConfig, hstand.sameConfig.selfIndex,
      hstand.sameConfig.term⟩⟩

/-- A config that any node but a candidate may install. -/
theorem updateConfig (hr : t.role ≠ .candidate) {newConfig : ReplicaSetConfig}
    {self : Option Nat} (hself : ∀ i, self = some i → i < newConfig.members.length)
    (hp : newConfig.protocolVersion = 0 ∨ newConfig.protocolVersion = 1)
    (hreason : ∀ m ∈ newConfig.members, TopologyCoordinator.hasReason m = true) :
    Returns (fun u => u.Consistent ∧ u.rsConfig = some newConfig ∧
        t.termFor newConfig = some u.term)
      (t.updateConfig newConfig self) := by
  obtain ⟨term, hterm⟩ : ∃ term, t.termFor newConfig = some term := by
    unfold termFor
    split_ifs <;> simp_all
  have hbound : self.any (fun i => decide (newConfig.members.length ≤ i)) = false := by
    cases self with
    | none => rfl
    | some i => simpa using hself i rfl
  unfold TopologyCoordinator.updateConfig
  rw [if_neg (by simp [hr, hbound]), hterm]
  refine returns_some ?_
  have hrole := roleInNewConfig (t := { t with
    term, hbdata := t.heartbeatDataFor newConfig self, stepDownPending := false
    rsConfig := some newConfig, selfIndex := self }) hr hself
    (by simp [heartbeatDataFor, members]) rfl hreason h.followerMode
  exact ⟨hrole.1, hrole.2.rsConfig, congrArg some hrole.2.term.symm⟩

/-- A declared winner that the heartbeats already show, or that is this node if it is leader. -/
theorem declareWinner {args : DeclareElectionWinnerArgs}
    (hw : t.refusesWinner args = false → t.selfIndex ≠ none →
      if t.role = .leader then t.findMemberIndexByConfigId args.winnerId = t.selfIndex
      else ∀ k, t.findMemberIndexByConfigId args.winnerId = some k → k ∈ t.remotePrimaries) :
    (t.processReplSetDeclareElectionWinner args).Consistent := by
  unfold processReplSetDeclareElectionWinner
  split_ifs with hrefuse
  · exact h
  · rcases Option.eq_none_or_eq_some t.selfIndex with hnone | ⟨self, hself⟩
    · -- a node that is not in the config is no leader, whoever is declared
      refine { h with leader_iff := ?_, seen := fun hs => absurd hnone hs }
      have hl := h.leader_iff
      simp only [hnone, ne_eq, not_true_eq_false, and_false, iff_false] at hl ⊢
      exact hl
    · have hs : t.selfIndex ≠ none := by simp [hself]
      have hk := hw (Bool.eq_false_iff.mpr hrefuse) hs
      by_cases hl : t.role = .leader
      · rw [if_pos hl] at hk
        refine { h with leader_iff := ?_, seen := ?_ }
        · exact ⟨fun _ => ⟨hk, hs⟩, fun _ => hl⟩
        · exact fun _ k hk' hne => absurd (hk'.symm.trans hk) hne
      · rw [if_neg hl] at hk
        refine { h with leader_iff := ?_, seen := ?_ }
        · refine ⟨fun hr => absurd hr hl, fun hr => ?_⟩
          exact absurd hself.symm (mem_remotePrimaries.mp (hk self (hr.1.trans hself))).2
        · exact fun _ k hk' _ => (mem_remotePrimaries.mp (hk k hk')).1

end Consistent
end TopologyCoordinator
end MongolDb.Repl
