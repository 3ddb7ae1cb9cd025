import MongolDb.Lock.ManagerInvariant

/-! Mutual exclusion: what two granted requests of a resource hold, over every interleaving of
critical sections. -/
namespace MongolDb.Lock
open LockMode Transition

variable {s : State}

theorem inv_of_reach (h : Reach State.step (fun s a => a.releasesLast s) .initial s) : s.Inv :=
  h.invariant State.inv_initial fun hi ha hst => (hi.step ha hst).inv

/-- The requests in partitions hold intent modes, and so do those on a lock head beside them. -/
theorem State.Inv.intent_of_partition (hi : s.Inv) {p : Nat} {R : ResourceId}
    {l : List LockRequest} (hl : s.partitions p R = some l) :
    (∀ r ∈ l, r.mode ∈ intentModes) ∧
      ∀ h, s.heads R = some h → ∀ r ∈ h.grantedList, r.mode ∈ intentModes := by
  have hpart := hi.partition p R l hl
  refine ⟨fun r hr => (hpart.requests r hr).1.intent, fun h hR r hr => ?_⟩
  obtain ⟨h₀, hh₀, hmem, -⟩ := hpart.listed
  obtain rfl : h = h₀ := Option.some.inj (hR.symm.trans hh₀)
  have hok := (hi.head R h hR).1
  exact (hok.partitioned (List.ne_nil_of_mem hmem)).1
    (hok.granted.mem_modes.mpr ⟨r, hr, .inl rfl⟩)

theorem State.Inv.compatible (hi : s.Inv) (R : ResourceId) :
    (s.grantedOn R).Pairwise fun r q => ¬ Conflict r.mode q.mode := by
  have hparts : ∀ r ∈ (List.range numPartitions).flatMap fun p => (s.partitions p R).getD [],
      ∃ p l, s.partitions p R = some l ∧ r ∈ l := by
    intro r hr
    obtain ⟨p, -, hr⟩ := List.mem_flatMap.mp hr
    cases hl : s.partitions p R with
    | none => simp [hl] at hr
    | some l => exact ⟨p, l, hl, by simpa [hl] using hr⟩
  refine List.pairwise_append.mpr ⟨?_, ?_, ?_⟩
  · cases hR : s.heads R with
    | none => simp
    | some h =>
      have hg := (hi.head R h hR).1.granted
      refine (List.pairwise_map.mp hg.nodup).imp_of_mem fun hr hq hne => ?_
      exact hg.compatible _ hr _ hq hne
  · refine List.pairwise_of_forall_mem_list fun r hr q hq => ?_
    obtain ⟨p, l, hl, hr⟩ := hparts r hr
    obtain ⟨p', l', hl', hq⟩ := hparts q hq
    exact not_conflict_intent ((hi.intent_of_partition hl).1 r hr)
      ((hi.intent_of_partition hl').1 q hq)
  · intro r hr q hq
    obtain ⟨p, l, hl, hq⟩ := hparts q hq
    cases hR : s.heads R with
    | none => simp [hR] at hr
    | some h =>
      rw [hR] at hr
      exact not_conflict_intent ((hi.intent_of_partition hl).2 h hR r hr)
        ((hi.intent_of_partition hl).1 q hq)

/-- No two granted requests of a resource hold conflicting modes, as long as no `unlock` takes a
request with references left off the granted list. -/
theorem grantedOn_compatible
    (h : Reach State.step (fun s a => a.releasesLast s) .initial s) (R : ResourceId) :
    (s.grantedOn R).Pairwise fun r q => ¬ Conflict r.mode q.mode :=
  (inv_of_reach h).compatible R

/-- An intent lock in a partition that a shared lock moves to the lock head. -/
def migration : List Action :=
  [.lockHead 5 0 ⟨false, false⟩ modeIS, .lockHead 5 1 ⟨false, false⟩ modeS, .migrate 5, .lockDone 5]

theorem grantedOn_compatible_migration :
    ∃ s, run State.step migration .initial = some s ∧
      (s.grantedOn 5).map LockRequest.mode = [modeIS, modeS] ∧
      (s.grantedOn 5).Pairwise fun r q => ¬ Conflict r.mode q.mode := by
  have hmodes : (run State.step migration .initial).map
      (fun s => (s.grantedOn 5).map LockRequest.mode) = some [modeIS, modeS] := by decide +kernel
  obtain ⟨s, hs, hm⟩ := Option.map_eq_some_iff.mp hmodes
  refine ⟨s, hs, hm, grantedOn_compatible (reach_of_run hs ?_) 5⟩
  intro s a ha
  simp only [migration, List.mem_cons, List.not_mem_nil, or_false] at ha
  rcases ha with rfl | rfl | rfl | rfl <;> trivial

/-- Locker 0 gives up a conversion that is granted before it gets the bucket's mutex. Its request
leaves the granted list with a reference left, and what it does next moves the counters. -/
def staleCancel : List Action :=
  [.lockHead 5 0 ⟨false, false⟩ modeIS,
    .lockHead 5 1 ⟨false, false⟩ modeS, .migrate 5, .lockDone 5,
    .convertBegin 5 .head ⟨0, 0⟩ ⟨false, false⟩ modeIX, .convertHead 5 .head ⟨0, 0⟩, .convertDone 5,
    .lockHead 5 2 ⟨false, false⟩ modeIX, .lockDone 5,
    -- the conversion times out
    .unlockBegin 5 .head ⟨0, 0⟩, .unlockPartition 5 .head ⟨0, 0⟩,
    -- the shared lock goes, which grants the conversion and the waiting request
    .unlockBegin 5 .head ⟨1, 1⟩, .unlockHead 5 ⟨1, 1⟩,
    .unlockHead 5 ⟨0, 0⟩,
    .convertBegin 5 .head ⟨0, 0⟩ ⟨false, false⟩ modeX, .convertHead 5 .head ⟨0, 0⟩, .convertDone 5,
    .lockHead 5 3 ⟨false, false⟩ modeS, .lockDone 5,
    .downgrade 5 ⟨0, 0⟩ modeS]

theorem staleCancel_conflict :
    ∃ s, Reach State.step (fun _ _ => True) .initial s ∧
      ¬ (s.grantedOn 5).Pairwise fun r q => ¬ Conflict r.mode q.mode := by
  have hmodes : (run State.step staleCancel .initial).map
      (fun s => (s.grantedOn 5).map LockRequest.mode) = some [modeIX, modeS] := by decide +kernel
  obtain ⟨s, hs, hm⟩ := Option.map_eq_some_iff.mp hmodes
  refine ⟨s, reach_of_run hs fun _ _ _ => trivial, fun hp => ?_⟩
  have hmap : ((s.grantedOn 5).map LockRequest.mode).Pairwise fun m m' => ¬ Conflict m m' :=
    List.pairwise_map.mpr hp
  rw [hm] at hmap
  exact absurd hmap (by decide)

end MongolDb.Lock
