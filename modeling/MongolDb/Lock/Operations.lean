import MongolDb.Lock.HeadInvariant

/-! Each operation on a lock head keeps its invariant and strands no blocked request. -/
namespace MongolDb.Lock
open LockMode Keyed List Option

variable {h h' : LockHead} {c c' : ModeCounts} {m newMode : LockMode} {r q : LockRequest}
  {result : LockResult}

theorem covers_refl (m : LockMode) : covers m m := Finset.union_self _

theorem covers_modeNone (m : LockMode) : covers m modeNone := by
  revert m
  decide

namespace LockHead

/-- An operation on the requests a head already has. -/
structure Preserves (h h' : LockHead) : Prop extends Keeps h h' where
  blocked : h.Blocked → h'.Blocked

theorem Blocked.of_grows (hb : h.Blocked) (hok : h.Ok) (hok' : h'.Ok)
    (hcl : h'.conflictList = h.conflictList) (hg : Grows h.grantedList h'.grantedList)
    (hconv : ∀ r ∈ h'.grantedList, r.status = .converting → Obstructed h'.grantedList r) :
    h'.Blocked where
  waiting := by
    intro w hw
    rw [hcl] at hw ⊢
    rcases hb.waiting w hw with hc | hw'
    · exact .inl (hok.conflicts_grows hok' hg hc)
    · exact .inr hw'
  first := by
    intro hne
    rw [hcl] at hne ⊢
    obtain ⟨w, hw, hc⟩ := hb.first hne
    exact ⟨w, hw, hok.conflicts_grows hok' hg hc⟩
  converting := hconv

theorem blocked_initNew : initNew.Blocked := ⟨by simp [initNew], by simp [initNew], by simp [initNew]⟩

theorem counted_initNew : initNew.Counted := rfl

/-- A request new to the head: everything else stays, and the head has one request more. -/
structure Adds (r : LockRequest) (h h' : LockHead) : Prop where
  ok : h'.Ok
  requests : ∀ q ∈ h'.requests, q.id = r.id ∨ ∃ p ∈ h.requests, p.id = q.id
  partitions : h'.partitions = h.partitions
  counted : h.Counted → h'.Counted
  blocked : h.Blocked → h'.Blocked

theorem Adds.of_id_eq (ha : Adds q h h') (hid : q.id = r.id) : Adds r h h' :=
  ⟨ha.ok, hid ▸ ha.requests, ha.partitions, ha.counted, ha.blocked⟩

theorem Ok.adds_of_grant (hok : h.Ok) (hr : { r with status := .granted }.Held)
    (hnew : ∀ q ∈ h.requests, q.id ≠ r.id) (hm : ¬ conflicts r.mode h.granted.modes)
    (hp : h.partitions ≠ [] → r.mode ∈ intentModes) (he : h.grant r = some h') : Adds r h h' := by
  obtain ⟨hok', hcount, hpart, hgl, hcl, -⟩ := hok.grant hr hnew hm hp he
  have hg : Grows h.grantedList h'.grantedList := by
    rw [hgl]
    exact .of_subset (subset_append_left _ _)
  refine ⟨hok', ?_, hpart, hcount, fun hb => hb.of_grows hok hok' hcl hg ?_⟩
  · intro q hq
    rw [LockHead.requests, hgl, hcl, mem_append, mem_append, mem_singleton] at hq
    rcases hq with (hq | rfl) | hq
    · exact .inr ⟨q, mem_append_left _ hq, rfl⟩
    · exact .inl rfl
    · exact .inr ⟨q, mem_append_right _ hq, rfl⟩
  · intro q hq hs
    rw [hgl, mem_append, mem_singleton] at hq
    rcases hq with hq | rfl
    · exact (hb.converting q hq hs).grows hg
    · simp at hs

theorem Ok.adds_of_enqueue (hok : h.Ok) (hm : r.mode ≠ modeNone) (hv : r.convertMode = modeNone)
    (hcall : ∀ m, r.call ≠ .convert m) (hnew : ∀ q ∈ h.requests, q.id ≠ r.id)
    (hp : h.partitions = [])
    (hwhy : conflicts r.mode h.granted.modes ∨ conflicts r.mode h.conflict.modes)
    (he : h.enqueue r = some h') : Adds r h h' := by
  obtain ⟨hok', hcount, hpart, hgl, hgc, hcl⟩ := hok.enqueue hm hv hcall hnew hp he
  refine ⟨hok', ?_, hpart, hcount, fun hb => ⟨?_, fun _ => ?_, ?_⟩⟩
  · intro q hq
    rw [LockHead.requests, mem_append, hcl, hgl] at hq
    rcases hq with hq | hq | rfl
    · exact .inr ⟨q, mem_append_left _ hq, rfl⟩
    · exact .inr ⟨q, mem_append_right _ hq, rfl⟩
    · exact .inl rfl
  · intro w hw
    rw [hgc]
    rcases (hcl w).mp hw with hw | rfl
    · rcases hb.waiting w hw with hc | ⟨w', hw', hne, hc⟩
      · exact .inl hc
      · exact .inr ⟨w', (hcl w').mpr (.inl hw'), hne, hc⟩
    · rcases hwhy with hc | hc
      · exact .inl hc
      · obtain ⟨m', hm', hc⟩ := conflicts_iff.mp hc
        obtain ⟨w', hw', rfl⟩ := hok.conflict.mem_modes.mp hm'
        exact .inr ⟨w', (hcl w').mpr (.inl hw'), hnew w' (mem_append_right _ hw'), hc⟩
  · rw [hgc]
    by_cases hempty : h.conflictList = []
    · -- the first to wait waits for what is granted
      refine ⟨_, (hcl _).mpr (.inr rfl), hwhy.resolve_right fun hc => ?_⟩
      obtain ⟨m', hm', -⟩ := conflicts_iff.mp hc
      obtain ⟨w', hw', -⟩ := hok.conflict.mem_modes.mp hm'
      simp [hempty] at hw'
    · obtain ⟨w, hw, hc⟩ := hb.first hempty
      exact ⟨w, (hcl w).mpr (.inl hw), hc⟩
  · intro q hq hs
    rw [hgl] at hq ⊢
    exact hb.converting q hq hs

/-- `newRequest` for the caller of `lock`, once no partition is left. -/
theorem Ok.newRequest (hok : h.Ok) (hm : m ≠ modeNone) (hv : r.convertMode = modeNone)
    (hcall : ∀ m, r.call ≠ .convert m) (hnew : ∀ q ∈ h.requests, q.id ≠ r.id)
    (hp : h.partitions = []) (he : h.newRequest r m = some (h', result)) : Adds r h h' := by
  unfold LockHead.newRequest at he
  split at he
  · next hwhy =>
    obtain ⟨h₁, hen, heq⟩ := map_eq_some_iff.mp he
    cases heq
    exact (hok.adds_of_enqueue (r := h.arriving r m) hm hv hcall hnew hp
      (hwhy.imp_right And.right) hen).of_id_eq rfl
  · next hwhy =>
    obtain ⟨h₁, had, heq⟩ := map_eq_some_iff.mp he
    cases heq
    rw [not_or] at hwhy
    exact (hok.adds_of_grant (r := h.arriving r m)
      ⟨hm, .inl ⟨rfl, hv⟩, fun m hm => absurd hm (hcall m)⟩ hnew hwhy.1 (absurd hp) had).of_id_eq rfl

/-- A request that a partition may hold. -/
structure InPartition (r : LockRequest) : Prop where
  held : r.Held
  intent : r.mode ∈ intentModes
  status : r.status = .granted

/-- The requests of a partition that join a head. -/
structure Joins (rs : List LockRequest) (h h' : LockHead) : Prop where
  ok : h'.Ok
  requests : ∀ q ∈ h'.requests, (∃ r ∈ rs, r.id = q.id) ∨ ∃ p ∈ h.requests, p.id = q.id
  partitions : h'.partitions = h.partitions
  counted : h.Counted → h'.Counted
  blocked : h.Blocked → h'.Blocked

section
variable (hok : h.Ok)
include hok

theorem Ok.migrateRequests {rs : List LockRequest} (hp : h.partitions ≠ [])
    (hrs : ∀ r ∈ rs, InPartition r) (hnodup : (rs.map LockRequest.id).Nodup)
    (hnew : ∀ r ∈ rs, ∀ q ∈ h.requests, q.id ≠ r.id) (he : migrateRequests rs h = some h') :
    Joins rs h h' := by
  induction rs generalizing h with
  | nil =>
    cases he
    exact ⟨hok, fun q hq => .inr ⟨q, hq, rfl⟩, rfl, fun hc => hc, fun hb => hb⟩
  | cons r rs ih =>
    obtain ⟨⟨h₁, res⟩, he₁, he⟩ := bind_eq_some_iff.mp he
    rw [map_cons, nodup_cons] at hnodup
    have hin := hrs r (by simp)
    have hfree : ¬ conflicts r.mode h.granted.modes := by
      rw [conflicts_iff]
      rintro ⟨m', hm', hc⟩
      exact not_conflict_intent hin.intent ((hok.partitioned hp).1 hm') hc
    have hnone : ¬ conflicts r.mode h.conflict.modes := by
      rw [(hok.partitioned hp).2, conflicts_iff]
      simp
    have hv := hin.held.convertMode_of_granted hin.status
    have hadd : Adds r h h₁ := by
      rw [LockHead.newRequest, if_neg (by simp [hfree, hnone])] at he₁
      obtain ⟨h₂, had, heq⟩ := map_eq_some_iff.mp he₁
      cases heq
      exact (hok.adds_of_grant (r := h.arriving r r.mode)
        ⟨hin.held.mode, .inl ⟨rfl, hv⟩, fun m hm => ⟨rfl, (hin.held.call m hm).2⟩⟩
        (hnew r (by simp)) hfree (fun _ => hin.intent) had).of_id_eq rfl
    split at he
    · have hj := ih hadd.ok (hadd.partitions ▸ hp) (forall_mem_cons.mp hrs).2 hnodup.2
        (fun q hq p hp' => ?_) he
      · refine ⟨hj.ok, ?_, hj.partitions.trans hadd.partitions,
          fun hc => hj.counted (hadd.counted hc), fun hb => hj.blocked (hadd.blocked hb)⟩
        intro q hq
        rcases hj.requests q hq with ⟨p, hp', hid⟩ | ⟨p, hp', hid⟩
        · exact .inl ⟨p, by simp [hp'], hid⟩
        · rcases hadd.requests p hp' with hid' | ⟨p', hp', hid'⟩
          · exact .inl ⟨r, by simp, hid'.symm.trans hid⟩
          · exact .inr ⟨p', hp', hid'.trans hid⟩
      · rcases hadd.requests p hp' with hid | ⟨p', hp', hid⟩
        · rw [hid]
          exact fun heq => hnodup.1 (heq ▸ mem_map_of_mem hq)
        · rw [← hid]
          exact hnew q (by simp [hq]) p' hp'
    · cases he

theorem Ok.of_call_convert (hr : r ∈ h.grantedList) (hcall : r.call = .convert m) :
    r.status = .granted ∧ r.convertMode = modeNone ∧ covers m r.mode ∧ m ≠ modeNone ∧
      r.mode ≠ m := by
  have hheld := hok.granted.held r hr
  obtain ⟨hs, hcov, hncov⟩ := hheld.call m hcall
  refine ⟨hs, hheld.convertMode_of_granted hs, hcov, ?_, ?_⟩
  · rintro rfl
    exact hncov (covers_modeNone _)
  · rintro rfl
    exact hncov (covers_refl _)

/-- A granted request changes in place and stays in the way of what it was in the way of. -/
theorem Ok.preserves_change {f : LockRequest → LockRequest} {n : Nat}
    (hr : r ∈ h.grantedList) (hf : ∀ q, (f q).id = q.id)
    (hflag : (f r).compatibleFirst = r.compatibleFirst)
    (hqueue : GrantedQueue (modify LockRequest.id r.id f h.grantedList) c n)
    (hp : h.partitions = []) (hblocks : ∀ m, r.Blocks m → (f r).Blocks m)
    (hconv : (f r).status = .converting → Obstructed h.grantedList (f r)) : Preserves h { h with
        granted := c
        conversionsCount := n
        grantedList := modify LockRequest.id r.id f h.grantedList } := by
  have hone : ∀ q ∈ h.grantedList, q.id = r.id → q = r := fun q hq =>
    eq_of_key_eq hok.granted.nodup hq hr
  have hg : Grows h.grantedList (modify LockRequest.id r.id f h.grantedList) := by
    refine Grows.modify hf fun q hq hid m hb => ?_
    rw [hone q hq hid] at hb ⊢
    exact hblocks m hb
  have hk := hok.change hr hf hflag hqueue (absurd hp)
  refine ⟨hk, fun hb => hb.of_grows hok hk.ok rfl hg fun q hq hqs => ?_⟩
  rcases mem_modify.mp hq with ⟨hq, -⟩ | ⟨p, hp, hid, rfl⟩
  · exact (hb.converting q hq hqs).grows hg
  · rw [hone p hp hid] at hqs ⊢
    exact (hconv hqs).grows hg

/-- A granted request may take another mode that fits with the others. -/
theorem Ok.regrant {f : LockRequest → LockRequest} (hr : r ∈ h.grantedList)
    (hs : r.status = .granted) (hf : ∀ q, (f q).id = q.id) (hs' : (f r).status = .granted)
    (hmode : (f r).mode = newMode) (hheld : (f r).Held)
    (hcompat : ∀ q ∈ h.grantedList, q.id ≠ r.id → ¬ Conflict newMode q.mode)
    (hc₁ : h.granted.inc newMode = some c') (hc : c'.dec r.mode = some c) :
    GrantedQueue (modify LockRequest.id r.id f h.grantedList) c h.conversionsCount := by
  have hle := fun i => holds_le_holding hr i
  simp only [LockRequest.currentRequestHolds] at hle
  refine hok.granted.replace (v := fun i => holding h.grantedList i + (if newMode = i then 1 else 0)
    - if r.mode = i then 1 else 0) hr hf hheld (hmode ▸ hcompat) ?_ (fun i => ?_) (by rw [hs, hs'])
  · refine (hok.granted.counts.inc hc₁ fun i => rfl).dec hc fun i => ?_
    have := hle i
    omega
  · have := hle i
    simp only [weight_granted hs, weight_granted hs', LockRequest.currentRequestHolds, hmode]
    omega

theorem Ok.convert (hr : r ∈ h.grantedList) (hcall : r.call = .convert newMode)
    (hp : h.partitions = []) (he : h.convert r newMode = some (h', result)) : Preserves h h' := by
  obtain ⟨hs, hv, hcov, hnone, hne⟩ := hok.of_call_convert hr hcall
  have hholds : ∀ {m}, r.Blocks m → Conflict m r.mode := by
    rintro m (hb | ⟨hb, -⟩)
    · exact hb
    · exact absurd (hs.symm.trans hb) (by simp)
  have hfree := hok.granted.conflicts_without (m := newMode) hr fun m _ =>
    (weight_granted hs m).symm
  have hw := fun i => weight_granted hs i
  unfold LockHead.convert at he
  split at he
  · next hcon =>
    split at he
    · cases he
    obtain ⟨c, hc, heq⟩ := map_eq_some_iff.mp he
    rw [hok.modifyRequest_eq hr] at heq
    cases heq
    have hqueue := hok.granted.replace (f := .startConversion newMode)
      (k := h.conversionsCount + 1)
      (v := fun i => holding h.grantedList i + if newMode = i then 1 else 0) hr (fun _ => rfl)
      ⟨(hok.granted.held r hr).mode, .inr ⟨rfl, hnone, hne, hcov⟩, fun m hm => by
        simp [LockRequest.startConversion] at hm⟩
      (fun q hq hne => hok.granted.compatible r hr q hq (Ne.symm hne))
      (hok.granted.counts.inc hc fun i => rfl)
      (fun i => by
        have hw' : (r.startConversion newMode).weight i =
            r.currentRequestHolds i + if newMode = i then 1 else 0 := weight_converting rfl i
        rw [hw, hw']
        omega)
      (by simp [LockRequest.startConversion, hs])
    exact hok.preserves_change hr (fun _ => rfl) rfl hqueue hp (fun m hb => .inl (hholds hb))
      fun _ => hfree.mp hcon
  · next hcon =>
    obtain ⟨c₁, hc₁, he⟩ := bind_eq_some_iff.mp he
    obtain ⟨c, hc, heq⟩ := map_eq_some_iff.mp he
    rw [hok.modifyRequest_eq (n := h.conversionsCount) hr] at heq
    cases heq
    have hqueue := hok.regrant (f := .convertTo newMode) hr hs (fun _ => rfl) hs rfl
      ⟨hnone, .inl ⟨hs, hv⟩, fun m hm => by simp [LockRequest.convertTo] at hm⟩
      (fun q hq hne hcf => hcon (hfree.mpr ⟨q, hq, hne, .inl hcf⟩)) hc₁ hc
    exact hok.preserves_change hr (fun _ => rfl) rfl hqueue hp
      (fun m hb => .inl ((hholds hb).of_covers hcov))
      fun hconv => absurd (hs.symm.trans hconv) (by simp)

omit hok in
/-- Blocked requests stay blocked when the mask loses nothing and no waiter comes or goes. -/
theorem Settles.blocked_of_unchecked {h₁ : LockHead} (hs : Settles false h₁ h') (hb : h.Blocked)
    (hok : h₁.Ok) (hcl : h₁.conflictList = h.conflictList)
    (hmodes : h₁.granted.modes = h.granted.modes) : h'.Blocked := by
  obtain ⟨hcl', hg⟩ := hs.unchecked rfl
  have hkeep : ∀ m, conflicts m h.granted.modes → conflicts m h'.granted.modes := fun m hm =>
    hok.conflicts_grows hs.ok hg (hmodes ▸ hm)
  rw [hcl] at hcl'
  refine ⟨fun w hw => ?_, fun hne => ?_, hs.converting⟩
  · rw [hcl'] at hw ⊢
    exact (hb.waiting w hw).imp_left (hkeep _)
  · rw [hcl'] at hne ⊢
    obtain ⟨w, hw, hc⟩ := hb.first hne
    exact ⟨w, hw, hkeep _ hc⟩

theorem Ok.withdraw (hr : r ∈ h.grantedList) (hs : r.status = .granted)
    (hcount : r.recursiveCount = 0) (hc : h.granted.dec r.mode = some c) :
    Keeps h (h.withdraw r c) := by
  have hmem : ∀ q ∈ erase LockRequest.id r.id h.grantedList, q ∈ h.grantedList := fun q hq =>
    (mem_erase.mp hq).1
  rw [LockHead.withdraw, unlink_of_mem hr, hok.unlinked, if_pos hcount]
  refine ⟨⟨hok.granted.remove hr hs hc, hok.conflict, fun q hq => hok.apart q (hmem q hq),
    fun hne => ⟨?_, (hok.partitioned hne).2⟩, rfl⟩, ?_, rfl, ?_⟩
  · exact (ModeCounts.modes_subset_of_dec hc).trans (hok.partitioned hne).1
  · intro q hq
    rcases mem_append.mp hq with hq | hq
    · exact ⟨q, mem_append_left _ (hmem q hq), rfl⟩
    · exact ⟨q, mem_append_right _ hq, rfl⟩
  · intro hcd
    have := countP_erase LockRequest.compatibleFirst hok.granted.nodup hr rfl
    simp only [Counted] at hcd ⊢
    cases hf : r.compatibleFirst with
    | false => simpa [hf, hcd] using this.symm
    | true =>
      simp only [hf, if_true] at this ⊢
      rw [decrement]
      split <;> omega

theorem Ok.release (hr : r ∈ h.grantedList) (hs : r.status = .granted)
    (hcount : r.recursiveCount = 0) (he : h.release r = some h') : Preserves h h' := by
  obtain ⟨c, hc, he⟩ := bind_eq_some_iff.mp he
  have hk := hok.withdraw hr hs hcount hc
  have hset := hk.ok.onLockModeChanged he
  refine ⟨hk.trans hset.toKeeps, fun hb => ?_⟩
  cases hcheck : decide (c.counts r.mode = 0) with
  | true =>
    rw [hcheck] at hset
    exact hset.blocked
  | false =>
    -- another request still counts for the mode, so the mask is as it was
    rw [hcheck] at hset
    have hne : c.counts r.mode ≠ 0 := by simpa using hcheck
    exact hset.blocked_of_unchecked hb hk.ok rfl ((ModeCounts.of_dec hc).2.2.trans (if_neg hne))

omit hok in
/-- A full pass over the queues after a step that keeps them. -/
theorem Keeps.preserves_onLockModeChanged {h₁ : LockHead} (hk : Keeps h h₁)
    (he : h₁.onLockModeChanged true = some h') : Preserves h h' := by
  have hset := hk.ok.onLockModeChanged he
  exact ⟨hk.trans hset.toKeeps, fun _ => hset.blocked⟩

theorem Ok.cancelWait (hr : r ∈ h.conflictList) (he : h.cancelWait r = some h') :
    Preserves h h' := by
  unfold LockHead.cancelWait at he
  split at he
  · cases he
  · obtain ⟨h₁, hd, he⟩ := bind_eq_some_iff.mp he
    have hk := (hok.dequeue hr hd).1
    exact hk.preserves_onLockModeChanged he

theorem Ok.cancelConversion (hr : r ∈ h.grantedList) (hs : r.status = .converting)
    (he : h.cancelConversion r = some h') : Preserves h h' := by
  unfold LockHead.cancelConversion at he
  split at he
  · cases he
  obtain ⟨c, hc, he⟩ := bind_eq_some_iff.mp he
  rw [hok.modifyRequest_eq hr] at he
  have hheld := hok.granted.held r hr
  have hpos : 0 < h.conversionsCount := by
    rw [hok.granted.conversions, countP_pos_iff]
    exact ⟨r, hr, by simpa using hs⟩
  have hqueue := hok.granted.replace (f := LockRequest.cancelConversion)
    (k := decrement h.conversionsCount)
    (v := fun i => holding h.grantedList i - r.currentRequestWaits i) hr (fun _ => rfl)
    ⟨hheld.mode, .inl ⟨rfl, rfl⟩, fun m hm => by simp [LockRequest.cancelConversion] at hm⟩
    (fun q hq hne => hok.granted.compatible r hr q hq (Ne.symm hne))
    (hok.granted.counts.dec hc fun i => by
      have := waits_le_holding hr hs i
      simp only [LockRequest.currentRequestWaits] at this ⊢
      omega)
    (fun i => by
      have hw : r.cancelConversion.weight i = r.currentRequestHolds i := weight_granted rfl i
      have := waits_le_holding hr hs i
      rw [weight_converting hs, hw]
      omega)
    (by
      simp only [hs, LockRequest.cancelConversion, reduceCtorEq, if_true, if_false, decrement]
      split <;> omega)
  have hk := hok.change (f := .cancelConversion) hr (fun _ => rfl) rfl hqueue fun hne =>
    (ModeCounts.modes_subset_of_dec hc).trans (hok.partitioned hne).1
  -- nothing is ever counted for MODE_NONE, so the conflict queue is always checked
  have hnone : c.counts modeNone = 0 := by
    by_contra hne
    rw [hqueue.counts.counts, ← ne_eq, holding_ne_zero] at hne
    obtain ⟨q, hq, hm | ⟨hqs, hm⟩⟩ := hne
    · exact (hqueue.held q hq).mode hm
    · rcases (hqueue.held q hq).status with hst | hst
      · exact absurd (hqs.symm.trans hst.1) (by simp)
      · exact hst.2.1 hm
  rw [decide_eq_true hnone] at he
  exact hk.preserves_onLockModeChanged he

/-- `unlock` of a request found on the head, when a granted one has no references left. -/
theorem Ok.unlock (hr : r ∈ h.requests)
    (hcount : r.status = .granted → r.recursiveCount = 0) (he : h.unlock r = some h') :
    Preserves h h' := by
  have hwhere : (r ∈ h.grantedList ∧ r.status ≠ .waiting) ∨
      (r ∈ h.conflictList ∧ r.status = .waiting) := by
    rcases mem_append.mp hr with hr | hr
    · refine .inl ⟨hr, fun hw => ?_⟩
      rcases (hok.granted.held r hr).status with hs | hs <;>
        exact absurd (hw.symm.trans hs.1) (by simp)
    · exact .inr ⟨hr, (hok.conflict.waiting r hr).1⟩
  unfold LockHead.unlock at he
  split at he
  · next hs =>
    rcases hwhere with ⟨hr, -⟩ | ⟨-, hw⟩
    · exact hok.release hr hs (hcount hs) he
    · exact absurd (hs.symm.trans hw) (by simp)
  · next hs =>
    rcases hwhere with ⟨-, hw⟩ | ⟨hr, -⟩
    · exact absurd hs hw
    · exact hok.cancelWait hr he
  · next hs =>
    rcases hwhere with ⟨hr, -⟩ | ⟨-, hw⟩
    · exact hok.cancelConversion hr hs he
    · exact absurd (hs.symm.trans hw) (by simp)
  · cases he

theorem Ok.downgrade (hr : r ∈ h.grantedList) (hs : r.status = .granted)
    (hcall : r.call = .idle) (hnone : newMode ≠ modeNone) (hcov : covers r.mode newMode)
    (he : h.downgrade r newMode = some h') : Preserves h h' := by
  obtain ⟨c₁, hc₁, he⟩ := bind_eq_some_iff.mp he
  obtain ⟨c, hc, he⟩ := bind_eq_some_iff.mp he
  rw [hok.modifyRequest_eq (n := h.conversionsCount) hr] at he
  have hheld := hok.granted.held r hr
  have hv := hheld.convertMode_of_granted hs
  have hqueue := hok.regrant (f := .downgradeTo newMode) hr hs (fun _ => rfl) hs rfl
    ⟨hnone, .inl ⟨hs, hv⟩, fun m hm => absurd (hcall.symm.trans hm) (by simp)⟩
    (fun q hq hne hcf => hok.granted.compatible r hr q hq (Ne.symm hne)
      (hcf.symm.of_covers hcov).symm) hc₁ hc
  have hk := hok.change (f := .downgradeTo newMode) hr (fun _ => rfl) rfl hqueue fun hne m hm => by
    have hpart := (hok.partitioned hne).1
    have hmode := hpart (hok.granted.mem_modes.mpr ⟨r, hr, .inl rfl⟩)
    rcases Finset.mem_insert.mp
      (ModeCounts.modes_subset_of_inc hc₁ (ModeCounts.modes_subset_of_dec hc hm)) with rfl | hm
    · exact mem_intentModes_of_covers hmode hcov hnone
    · exact hpart hm
  exact hk.preserves_onLockModeChanged he

end

end LockHead

end MongolDb.Lock
