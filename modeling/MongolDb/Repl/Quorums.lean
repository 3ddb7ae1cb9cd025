import MongolDb.Repl.Config

/-! Write majorities against election majorities: every election meets every majority write. -/
namespace MongolDb.Repl

theorem MemberConfig.isVoter_of_isArbiter {m : MemberConfig} (h : m.validate = .ok ())
    (ha : m.isArbiter = true) : m.isVoter = true := by
  simp only [MemberConfig.validate, failIf_bind_eq_ok] at h
  obtain ⟨-, -, -, -, hvotes, -⟩ := h
  have ha : m.arbiterOnly = true := ha
  simpa [ha] using hvotes

namespace ReplicaSetConfig
variable {cfg : ReplicaSetConfig} {configsvr : Bool}

def arbiterCount (cfg : ReplicaSetConfig) : Nat := cfg.members.countP (·.isArbiter)

/-- `_writeMajority`, an `int`. -/
def writeMajority (cfg : ReplicaSetConfig) : Int :=
  min (cfg.majorityVoteCount : Int) (cfg.totalVotingMembers - cfg.arbiterCount)

/-- The indices of the voting members that hold data. -/
def dataVoters (cfg : ReplicaSetConfig) : Finset Nat :=
  (Finset.range cfg.members.length).filter fun i =>
    (cfg.members[i]?).any fun m => m.isVoter && !m.isArbiter

theorem mem_dataVoters {i : Nat} : i ∈ cfg.dataVoters ↔
    ∃ m, cfg.members[i]? = some m ∧ m.isVoter = true ∧ m.isArbiter = false := by
  simp only [dataVoters, Finset.mem_filter, Finset.mem_range]
  cases hm : cfg.members[i]? with
  | none => simp
  | some m => simpa using fun _ _ => (List.getElem?_eq_some_iff.mp hm).1

theorem dataVoters_subset : cfg.dataVoters ⊆ cfg.voters := by
  intro i hi
  obtain ⟨m, hm, hv, -⟩ := mem_dataVoters.mp hi
  exact mem_voters.mpr ⟨m, hm, hv⟩

/-- Arbiters vote, so the voters that are left hold data. -/
theorem card_dataVoters (h : cfg.validate configsvr = .ok ()) :
    cfg.dataVoters.card + cfg.arbiterCount = cfg.totalVotingMembers := by
  have hsplit := List.countP_eq_countP_filter_add cfg.members (·.isVoter) (·.isArbiter)
  have harb : (cfg.members.filter (·.isArbiter)).countP (·.isVoter) = cfg.arbiterCount := by
    rw [arbiterCount, List.countP_eq_length.mpr, List.countP_eq_length_filter]
    intro m hm
    obtain ⟨hm, ha⟩ := List.mem_filter.mp hm
    exact MemberConfig.isVoter_of_isArbiter (member_validate h hm) ha
  have hdata : cfg.dataVoters.card = cfg.members.countP fun m => m.isVoter && !m.isArbiter :=
    card_filter_range_any _ _
  rw [totalVotingMembers, hsplit, harb, hdata, List.countP_filter, Nat.add_comm]

theorem electable_validateMembers {all members : List (MemberConfig × Nat)}
    {counts counts' : Counts} (h : validateMembers all members counts = .ok counts')
    (hne : counts'.electable ≠ counts.electable) : ∃ p ∈ members, p.1.isElectable = true := by
  induction members generalizing counts with
  | nil =>
    cases h
    exact absurd rfl hne
  | cons q rest ih =>
    rw [validateMembers, Outcome.bind_eq_ok] at h
    obtain ⟨-, -, h⟩ := h
    obtain ⟨-, -, h⟩ := Outcome.bind_eq_ok.mp h
    by_cases hq : q.1.isElectable = true
    · exact ⟨q, by simp, hq⟩
    · have hsame : (counts.add q.1).electable = counts.electable := by
        change _ + (q.1.isElectable).toNat = _
        simp [hq]
      obtain ⟨p, hp, he⟩ := ih h (hsame ▸ hne)
      exact ⟨p, List.mem_cons_of_mem _ hp, he⟩

theorem exists_electable (h : cfg.validate configsvr = .ok ()) :
    ∃ i ∈ cfg.dataVoters, (cfg.members[i]?).any (·.isElectable) = true := by
  have hv := h
  rw [validate] at h
  simp only [failIf_bind_eq_ok] at h
  obtain ⟨counts, hm, h⟩ := Outcome.bind_eq_ok.mp h.2.2.2.2
  simp only [failIf_bind_eq_ok] at h
  obtain ⟨p, hp, he⟩ := electable_validateMembers hm (by simpa using h.2.2.1)
  have hp := List.mk_mem_zipIdx_iff_getElem?.mp hp
  have hvoter := MemberConfig.isVoter_of_isElectable
    (member_validate hv (List.mem_of_getElem? hp)) he
  have harb : p.1.isArbiter = false := by simpa using (Bool.and_eq_true_iff.mp he).1
  exact ⟨p.2, mem_dataVoters.mpr ⟨p.1, hp, hvoter, harb⟩, by rw [hp]; exact he⟩

/-- A write majority is a positive number of data-bearing voters that there are, and meets every
majority of the voters that has an electable member. -/
theorem quorums_intersect (h : cfg.validate configsvr = .ok ()) :
    1 ≤ cfg.writeMajority ∧ cfg.writeMajority ≤ cfg.dataVoters.card ∧
      ∀ W ⊆ cfg.dataVoters, ∀ E ⊆ cfg.voters, cfg.writeMajority ≤ W.card →
        cfg.majorityVoteCount ≤ E.card →
        (∃ i ∈ E, (cfg.members[i]?).any (·.isElectable) = true) → (W ∩ E).Nonempty := by
  have hcard := card_dataVoters h
  have hvoters : cfg.voters.card = cfg.totalVotingMembers := card_voters
  have hmajority : cfg.majorityVoteCount = cfg.totalVotingMembers / 2 + 1 := rfl
  have hwrite : cfg.writeMajority = min (cfg.majorityVoteCount : Int) cfg.dataVoters.card := by
    rw [writeMajority]
    congr 1
    omega
  obtain ⟨i, hi, -⟩ := exists_electable h
  have hpos := Finset.card_pos.mpr ⟨i, hi⟩
  refine ⟨by omega, by omega, ?_⟩
  intro W hW E hE hWcard hEcard ⟨j, hj, he⟩
  by_cases hall : cfg.dataVoters.card ≤ W.card
  · -- every voter that holds data is in `W`, the electable one too
    have hWall := Finset.eq_of_subset_of_card_le hW hall
    refine ⟨j, Finset.mem_inter.mpr ⟨hWall ▸ ?_, hj⟩⟩
    obtain ⟨m, hm, hv⟩ := mem_voters.mp (hE hj)
    have harb : m.isArbiter = false := by
      simpa using (Bool.and_eq_true_iff.mp (show m.isElectable = true by simpa [hm] using he)).1
    exact mem_dataVoters.mpr ⟨m, hm, hv, harb⟩
  · -- both are majorities of the voters
    exact Finset.inter_nonempty_of_card_lt_card_add_card (hW.trans dataVoters_subset) hE (by omega)

theorem quorums_intersect_threeMembers : threeMembers.writeMajority = 2 ∧
    threeMembers.majorityVoteCount = 2 ∧ ({0, 1} ∩ {1, 2} : Finset Nat).Nonempty := by
  have hvalid : threeMembers.validate false = .ok () := by decide +kernel
  refine ⟨by decide +kernel, rfl, (quorums_intersect hvalid).2.2 {0, 1} ?_ {1, 2} ?_ ?_ ?_ ?_⟩
  all_goals decide +kernel

end ReplicaSetConfig

end MongolDb.Repl
