import MongolDb.Lock.Queues

/-! What the operations on a lock head keep: its bookkeeping, and that every blocked request
has something in its way. -/
namespace MongolDb.Lock
open LockMode Keyed List

variable {h h' : LockHead} {l l' : List LockRequest} {c c' : ModeCounts} {m : LockMode}
  {r q : LockRequest} {id : RequestId} {ids : List RequestId} {f : LockRequest → LockRequest}

theorem ModeCounts.modes_subset_of_dec (hc : c.dec m = some c') : c'.modes ⊆ c.modes := by
  rw [(of_dec hc).2.2]
  split_ifs
  · exact Finset.erase_subset _ _
  · exact Finset.Subset.refl _

theorem ModeCounts.modes_subset_of_inc (hc : c.inc m = some c') :
    c'.modes ⊆ insert m c.modes := by
  rw [(of_inc hc).2]
  split_ifs
  · exact Finset.Subset.refl _
  · exact Finset.subset_insert _ _

/-- Every request of `l` is in `l'`, in the way of at least the modes it was in the way of. -/
def Grows (l l' : List LockRequest) : Prop :=
  ∀ q ∈ l, ∃ q' ∈ l', q'.id = q.id ∧ ∀ m, q.Blocks m → q'.Blocks m

theorem Grows.of_subset (hs : l ⊆ l') : Grows l l' :=
  fun q hq => ⟨q, hs hq, rfl, fun _ => fun hb => hb⟩

theorem Grows.trans {l'' : List LockRequest} (h₁ : Grows l l') (h₂ : Grows l' l'') :
    Grows l l'' := by
  intro q hq
  obtain ⟨q', hq', hid, hb⟩ := h₁ q hq
  obtain ⟨q'', hq'', hid', hb'⟩ := h₂ q' hq'
  exact ⟨q'', hq'', hid'.trans hid, fun m hm => hb' m (hb m hm)⟩

theorem Grows.modify (hf : ∀ q, (f q).id = q.id)
    (hb : ∀ q ∈ l, q.id = id → ∀ m, q.Blocks m → (f q).Blocks m) :
    Grows l (modify LockRequest.id id f l) := by
  intro q hq
  by_cases hid : q.id = id
  · exact ⟨f q, mem_modify.mpr (.inr ⟨q, hq, hid, rfl⟩), hf q, hb q hq hid⟩
  · exact ⟨q, mem_modify.mpr (.inl ⟨hq, hid⟩), rfl, fun _ hm => hm⟩

/-- A request other than `r` on the granted queue is in the way of `r` converting. -/
def Obstructed (l : List LockRequest) (r : LockRequest) : Prop :=
  ∃ q ∈ l, q.id ≠ r.id ∧ q.Blocks r.convertMode

theorem Obstructed.grows (ho : Obstructed l r) (hg : Grows l l') : Obstructed l' r := by
  obtain ⟨q, hq, hne, hb⟩ := ho
  obtain ⟨q', hq', hid, hb'⟩ := hg q hq
  exact ⟨q', hq', hid ▸ hne, hb' _ hb⟩

namespace LockHead

def requests (h : LockHead) : List LockRequest := h.grantedList ++ h.conflictList

/-- The head's lists, counters and masks agree, and no two granted requests conflict. -/
structure Ok (h : LockHead) : Prop where
  granted : GrantedQueue h.grantedList h.granted h.conversionsCount
  conflict : ConflictQueue h.conflictList h.conflict
  apart : ∀ r ∈ h.grantedList, ∀ q ∈ h.conflictList, r.id ≠ q.id
  partitioned : h.partitions ≠ [] → h.granted.modes ⊆ intentModes ∧ h.conflict.modes = ∅
  unlinked : h.unlinked = []

/-- Nothing waits without a reason. -/
structure Blocked (h : LockHead) : Prop where
  waiting : ∀ w ∈ h.conflictList, conflicts w.mode h.granted.modes ∨
    ∃ w' ∈ h.conflictList, w'.id ≠ w.id ∧ Conflict w.mode w'.mode
  first : h.conflictList ≠ [] → ∃ w ∈ h.conflictList, conflicts w.mode h.granted.modes
  converting : ∀ r ∈ h.grantedList, r.status = .converting → Obstructed h.grantedList r

/-- The compatible-first counter counts the granted requests with the flag. -/
def Counted (h : LockHead) : Prop :=
  h.compatibleFirstCount = h.grantedList.countP LockRequest.compatibleFirst

/-- What every operation keeps. -/
structure Keeps (h h' : LockHead) : Prop where
  ok : h'.Ok
  requests : ∀ r ∈ h'.requests, ∃ q ∈ h.requests, q.id = r.id
  partitions : h'.partitions = h.partitions
  counted : h.Counted → h'.Counted

theorem Keeps.refl (hok : h.Ok) : Keeps h h :=
  ⟨hok, fun r hr => ⟨r, hr, rfl⟩, rfl, fun hc => hc⟩

theorem Keeps.trans {h'' : LockHead} (h₁ : Keeps h h') (h₂ : Keeps h' h'') : Keeps h h'' where
  ok := h₂.ok
  requests := by
    intro r hr
    obtain ⟨q, hq, hid⟩ := h₂.requests r hr
    obtain ⟨p, hp, hid'⟩ := h₁.requests q hq
    exact ⟨p, hp, hid'.trans hid⟩
  partitions := h₂.partitions.trans h₁.partitions
  counted := fun hc => h₂.counted (h₁.counted hc)

theorem ok_initNew : initNew.Ok where
  granted := ⟨by simp [initNew], by simp [initNew], ModeCounts.counts_zero, rfl, by simp [initNew]⟩
  conflict := ⟨by simp [initNew], by simp [initNew], ModeCounts.counts_zero⟩
  apart := by simp [initNew]
  partitioned := by simp [initNew]
  unlinked := rfl

theorem Ok.conflicts_grows (hok : h.Ok) (hok' : h'.Ok) (hg : Grows h.grantedList h'.grantedList)
    (hm : conflicts m h.granted.modes) : conflicts m h'.granted.modes := by
  obtain ⟨q, hq, hb⟩ := hok.granted.conflicts_modes.mp hm
  obtain ⟨q', hq', -, hb'⟩ := hg q hq
  exact hok'.granted.conflicts_modes.mpr ⟨q', hq', hb' m hb⟩

theorem Ok.partitions_eq_nil (hok : h.Ok) (hr : r ∈ h.conflictList) : h.partitions = [] := by
  by_contra hp
  have := hok.conflict.mem_modes.mpr ⟨r, hr, rfl⟩
  rw [(hok.partitioned hp).2] at this
  simp at this

theorem unlink_of_mem (hr : r ∈ l) : unlink r.id l = erase LockRequest.id r.id l := by
  unfold unlink
  split
  · rfl
  · next hn => exact absurd hn (lookup_ne_none hr rfl)

/-- A granted request is on no other list of its head. -/
theorem Ok.modifyRequest_eq {n : Nat} (hok : h.Ok) (hr : r ∈ h.grantedList) :
    { h with granted := c, conversionsCount := n }.modifyRequest r.id f =
      { h with
        granted := c
        conversionsCount := n
        grantedList := modify LockRequest.id r.id f h.grantedList } := by
  have hconf : modify LockRequest.id r.id f h.conflictList = h.conflictList :=
    modify_of_forall_ne fun q hq => (hok.apart r hr q hq).symm
  simp only [modifyRequest, hconf, hok.unlinked]
  rfl

/-- A granted request changes in place. -/
theorem Ok.change {n : Nat} (hok : h.Ok) (hr : r ∈ h.grantedList)
    (hf : ∀ q, (f q).id = q.id) (hflag : (f r).compatibleFirst = r.compatibleFirst)
    (hq : GrantedQueue (modify LockRequest.id r.id f h.grantedList) c n)
    (hp : h.partitions ≠ [] → c.modes ⊆ intentModes) : Keeps h { h with
        granted := c
        conversionsCount := n
        grantedList := modify LockRequest.id r.id f h.grantedList } := by
  have hmem : ∀ q ∈ modify LockRequest.id r.id f h.grantedList, ∃ p ∈ h.grantedList, p.id = q.id := by
    intro q hq
    rcases mem_modify.mp hq with ⟨hq, -⟩ | ⟨p, hp, -, rfl⟩
    · exact ⟨q, hq, rfl⟩
    · exact ⟨p, hp, (hf p).symm⟩
  refine ⟨⟨hq, hok.conflict, ?_, fun hne => ⟨hp hne, (hok.partitioned hne).2⟩, hok.unlinked⟩,
    ?_, rfl, ?_⟩
  · intro q hq w hw
    obtain ⟨p, hp, hid⟩ := hmem q hq
    exact hid ▸ hok.apart p hp w hw
  · intro q hq
    rcases mem_append.mp hq with hq | hq
    · obtain ⟨p, hp, hid⟩ := hmem q hq
      exact ⟨p, mem_append_left _ hp, hid⟩
    · exact ⟨q, mem_append_right _ hq, rfl⟩
  · intro hcount
    have := countP_modify (f := f) LockRequest.compatibleFirst hok.granted.nodup hr rfl
    rw [hflag] at this
    simp only [Counted] at hcount ⊢
    omega

theorem Ok.grant (hok : h.Ok) (hr : { r with status := .granted }.Held)
    (hnew : ∀ q ∈ h.requests, q.id ≠ r.id) (hm : ¬ conflicts r.mode h.granted.modes)
    (hp : h.partitions ≠ [] → r.mode ∈ intentModes) (he : h.grant r = some h') :
    h'.Ok ∧ (h.Counted → h'.Counted) ∧ h'.partitions = h.partitions ∧
      h'.grantedList = h.grantedList ++ [{ r with status := .granted }] ∧
      h'.conflictList = h.conflictList ∧ h'.conflict = h.conflict := by
  obtain ⟨c, hc, rfl⟩ := Option.map_eq_some_iff.mp he
  have hq := hok.granted.push (r := { r with status := .granted }) hr rfl
    (fun q hq => hnew q (mem_append_left _ hq)) hm hc
  refine ⟨⟨hq, hok.conflict, ?_, fun hne => ⟨?_, (hok.partitioned hne).2⟩, hok.unlinked⟩,
    ?_, rfl, rfl, rfl, rfl⟩
  · intro q hq w hw
    rcases mem_append.mp hq with hq | hq
    · exact hok.apart q hq w hw
    · rw [mem_singleton.mp hq]
      exact (hnew w (mem_append_right _ hw)).symm
  · intro m hm
    rcases Finset.mem_insert.mp (ModeCounts.modes_subset_of_inc hc hm) with rfl | hm
    · exact hp hne
    · exact (hok.partitioned hne).1 hm
  · intro hcount
    simp only [Counted] at hcount ⊢
    rw [countP_append, countP_singleton, hcount]
    cases r.compatibleFirst <;> simp

theorem Ok.enqueue (hok : h.Ok) (hm : r.mode ≠ modeNone) (hv : r.convertMode = modeNone)
    (hcall : ∀ m, r.call ≠ .convert m) (hnew : ∀ q ∈ h.requests, q.id ≠ r.id)
    (hp : h.partitions = []) (he : h.enqueue r = some h') :
    h'.Ok ∧ (h.Counted → h'.Counted) ∧ h'.partitions = h.partitions ∧
      h'.grantedList = h.grantedList ∧ h'.granted = h.granted ∧
      ∀ q, q ∈ h'.conflictList ↔ q ∈ h.conflictList ∨ q = { r with status := .waiting } := by
  obtain ⟨c, hc, rfl⟩ := Option.map_eq_some_iff.mp he
  have hq := hok.conflict.cons (r := { r with status := .waiting }) rfl hm hv hcall
    (fun q hq => hnew q (mem_append_right _ hq)) hc
  have hperm : ({ r with status := .waiting } :: h.conflictList).Perm
      (if r.enqueueAtFront then { r with status := .waiting } :: h.conflictList
        else h.conflictList ++ [{ r with status := .waiting }]) := by
    split
    · exact .refl _
    · exact (perm_append_singleton _ _).symm
  have hmem : ∀ q, q ∈ (if r.enqueueAtFront then { r with status := .waiting } :: h.conflictList
      else h.conflictList ++ [{ r with status := .waiting }]) ↔
        q ∈ h.conflictList ∨ q = { r with status := .waiting } := by
    intro q
    rw [← hperm.mem_iff, mem_cons, or_comm]
  refine ⟨⟨hok.granted, hq.perm hperm, ?_, fun hne => absurd hp hne, hok.unlinked⟩,
    fun hcount => hcount, rfl, rfl, rfl, hmem⟩
  intro q hq w hw
  rcases (hmem w).mp hw with hw | rfl
  · exact hok.apart q hq w hw
  · exact hnew q (mem_append_left _ hq)

theorem Ok.dequeue (hok : h.Ok) (hr : r ∈ h.conflictList) (he : h.dequeue r = some h') :
    Keeps h h' ∧ h'.grantedList = h.grantedList ∧ h'.granted = h.granted ∧
      h'.conflictList = erase LockRequest.id r.id h.conflictList := by
  rw [LockHead.dequeue, unlink_of_mem hr] at he
  obtain ⟨c, hc, rfl⟩ := Option.map_eq_some_iff.mp he
  refine ⟨⟨⟨hok.granted, hok.conflict.remove hr hc, ?_, ?_, hok.unlinked⟩, ?_, rfl,
    fun hcount => hcount⟩, rfl, rfl, rfl⟩
  · intro q hq w hw
    exact hok.apart q hq w (mem_erase.mp hw).1
  · intro hne
    exact absurd (hok.partitions_eq_nil hr) hne
  · intro q hq
    rcases mem_append.mp hq with hq | hq
    · exact ⟨q, mem_append_left _ hq, rfl⟩
    · exact ⟨q, mem_append_right _ (mem_erase.mp hq).1, rfl⟩

/-- One round of the loop over the conversions. -/
structure Advances (id : RequestId) (h h' : LockHead) : Prop extends Keeps h h' where
  conflictList : h'.conflictList = h.conflictList
  grows : Grows h.grantedList h'.grantedList
  converting : ∀ r ∈ h'.grantedList, r.status = .converting →
    r ∈ h.grantedList ∧ (r.id = id → Obstructed h'.grantedList r)

theorem Ok.completeConversion (hok : h.Ok) (hr : r ∈ h.grantedList) (hs : r.status = .converting)
    (hfree : ¬ Obstructed h.grantedList r) (he : h.completeConversion r = some h') :
    Advances r.id h h' := by
  obtain ⟨c, hc, rfl⟩ := Option.map_eq_some_iff.mp he
  have hheld := hok.granted.held r hr
  obtain ⟨hg, -⟩ | ⟨-, hv, hne, hcov⟩ := hheld.status
  · exact absurd (hs.symm.trans hg) (by simp)
  have hcount : 0 < h.conversionsCount := by
    rw [hok.granted.conversions, countP_pos_iff]
    exact ⟨r, hr, by simpa using hs⟩
  have hqueue := hok.granted.replace (f := LockRequest.completeConversion)
    (k := decrement h.conversionsCount)
    (v := fun i => holding h.grantedList i - r.currentRequestHolds i) hr (fun _ => rfl)
    ⟨hv, .inl ⟨rfl, rfl⟩, fun m hm => absurd (hs.symm.trans (hheld.call m hm).1) (by simp)⟩
    (fun q hq hne hcf => hfree ⟨q, hq, hne, .inl hcf⟩)
    (hok.granted.counts.dec hc fun i => by
      have := holds_le_holding hr i
      simp only [LockRequest.currentRequestHolds] at this ⊢
      omega)
    (fun i => by
      have := holds_le_holding hr i
      have hw : r.completeConversion.weight i = r.currentRequestWaits i := weight_granted rfl i
      rw [weight_converting hs, hw]
      omega)
    (by
      simp only [hs, LockRequest.completeConversion, reduceCtorEq, if_true, if_false, decrement]
      split <;> omega)
  have hone : ∀ q ∈ h.grantedList, q.id = r.id → q = r := fun q hq =>
    eq_of_key_eq hok.granted.nodup hq hr
  refine ⟨hok.change hr (fun _ => rfl) rfl hqueue fun hne =>
    (ModeCounts.modes_subset_of_dec hc).trans (hok.partitioned hne).1, rfl, ?_, ?_⟩
  · -- the mode granted was already counted, and it covers the mode given up
    refine Grows.modify (fun _ => rfl) fun q hq hid m hb => ?_
    rw [hone q hq hid] at hb ⊢
    rcases hb with hb | ⟨-, hb⟩
    · exact .inl (hb.of_covers hcov)
    · exact .inl hb
  · intro q hq hqs
    rcases mem_modify.mp hq with ⟨hq, hid⟩ | ⟨p, -, -, rfl⟩
    · exact ⟨hq, fun he => absurd he hid⟩
    · simp [LockRequest.completeConversion] at hqs

theorem Ok.grantConversion (hok : h.Ok) (he : h.grantConversion id = some h') :
    Advances id h h' := by
  have hsame : (∀ r ∈ h.grantedList, r.status = .converting → r.id = id →
      Obstructed h.grantedList r) → Advances id h h := fun ho =>
    ⟨Keeps.refl hok, rfl, .of_subset (List.Subset.refl _), fun r hr hs => ⟨hr, ho r hr hs⟩⟩
  unfold LockHead.grantConversion at he
  split at he
  · next hn =>
    cases he
    exact hsame fun r hr _ hid => absurd hn (lookup_ne_none hr hid)
  next iter hlook =>
  obtain ⟨hiter, rfl⟩ := of_lookup hlook
  have hone : ∀ r ∈ h.grantedList, r.id = iter.id → r = iter := fun r hr =>
    eq_of_key_eq hok.granted.nodup hr hiter
  split at he
  · next hs =>
    cases he
    exact hsame fun r hr hrs hid => absurd (hone r hr hid ▸ hrs) hs
  next hs =>
  rw [ne_eq, not_not] at hs
  have hfree := hok.granted.conflicts_without (m := iter.convertMode) hiter
    fun m _ => (weight_converting hs m).symm
  split at he
  · cases he
  split at he
  · next hcon =>
    cases he
    exact hsame fun r hr _ hid => hone r hr hid ▸ hfree.mp hcon
  · next hcon => exact hok.completeConversion hiter hs (fun ho => hcon (hfree.mpr ho)) he

/-- The loop over the conversions leaves only obstructed ones. -/
structure Unblocks (h h' : LockHead) : Prop extends Keeps h h' where
  conflictList : h'.conflictList = h.conflictList
  grows : Grows h.grantedList h'.grantedList
  converting : ∀ r ∈ h'.grantedList, r.status = .converting → Obstructed h'.grantedList r

theorem Ok.grantConversions (hok : h.Ok) (he : grantConversions ids h = some h')
    (hdone : ∀ r ∈ h.grantedList, r.status = .converting → r.id ∉ ids →
      Obstructed h.grantedList r) : Unblocks h h' := by
  induction ids generalizing h with
  | nil =>
    cases he
    exact ⟨Keeps.refl hok, rfl, .of_subset (List.Subset.refl _), fun r hr hs =>
      hdone r hr hs (by simp)⟩
  | cons id ids ih =>
    unfold LockHead.grantConversions at he
    split at he
    · next hzero =>
      cases he
      refine ⟨Keeps.refl hok, rfl, .of_subset (List.Subset.refl _), fun r hr hs => ?_⟩
      rw [hok.granted.conversions, countP_eq_zero] at hzero
      exact absurd hs (by simpa using hzero r hr)
    · obtain ⟨h₁, he₁, he⟩ := Option.bind_eq_some_iff.mp he
      have ha := hok.grantConversion he₁
      have hu := ih ha.ok he fun r hr hs hid => by
        obtain ⟨hmem, hthis⟩ := ha.converting r hr hs
        by_cases hrid : r.id = id
        · exact hthis hrid
        · exact (hdone r hmem hs (by simp [hrid, hid])).grows ha.grows
      exact ⟨ha.toKeeps.trans hu.toKeeps, hu.conflictList.trans ha.conflictList,
        ha.grows.trans hu.grows, hu.converting⟩

/-- A waiting request that moves to the granted queue. -/
theorem Ok.grantWaiter {h₁ : LockHead} (hok : h.Ok) (hr : r ∈ h.conflictList)
    (hm : ¬ conflicts r.mode h.granted.modes) (hd : h.dequeue r = some h₁)
    (ha : h₁.grant r = some h') :
    Keeps h h' ∧ Grows h.grantedList h'.grantedList ∧
      h'.conflictList = erase LockRequest.id r.id h.conflictList ∧
      (∃ q ∈ h'.grantedList, q.mode = r.mode) ∧
      ∀ q ∈ h'.grantedList, q.status = .converting → q ∈ h.grantedList := by
  obtain ⟨hk, hgl, hgc, hcl⟩ := hok.dequeue hr hd
  obtain ⟨-, hmode, hv, hcall⟩ := hok.conflict.waiting r hr
  have hnew : ∀ q ∈ h₁.requests, q.id ≠ r.id := by
    intro q hq
    rcases mem_append.mp hq with hq | hq
    · exact hok.apart q (hgl ▸ hq) r hr
    · rw [hcl] at hq
      exact (mem_erase.mp hq).2
  obtain ⟨hok', hcount, hp, hgl', hcl', -⟩ := hk.ok.grant
    ⟨hmode, .inl ⟨rfl, hv⟩, fun m hm => absurd hm (hcall m)⟩ hnew (hgc ▸ hm)
    (fun hne => absurd (hk.partitions.trans (hok.partitions_eq_nil hr)) hne) ha
  rw [hgl] at hgl'
  refine ⟨⟨hok', ?_, hp.trans hk.partitions, fun hc => hcount (hk.counted hc)⟩, ?_,
    hcl'.trans hcl, ?_, ?_⟩
  · intro q hq
    rw [requests, hgl', hcl', hcl] at hq
    rcases mem_append.mp hq with hq | hq
    · rcases mem_append.mp hq with hq | hq
      · exact ⟨q, mem_append_left _ hq, rfl⟩
      · exact ⟨r, mem_append_right _ hr, by rw [mem_singleton.mp hq]⟩
    · exact ⟨q, mem_append_right _ (mem_erase.mp hq).1, rfl⟩
  · rw [hgl']
    exact .of_subset (subset_append_left _ _)
  · exact ⟨{ r with status := .granted }, by simp [hgl'], rfl⟩
  · intro q hq hs
    rw [hgl'] at hq
    rcases mem_append.mp hq with hq | hq
    · exact hq
    · rw [mem_singleton.mp hq] at hs
      simp at hs

/-- The loop over the conflict queue leaves only requests that conflict with what is granted. -/
structure Drains (h h' : LockHead) : Prop extends Keeps h h' where
  grows : Grows h.grantedList h'.grantedList
  converting : ∀ r ∈ h'.grantedList, r.status = .converting → r ∈ h.grantedList
  waiting : ∀ w ∈ h'.conflictList, conflicts w.mode h'.granted.modes

theorem Ok.grantWaiters (hok : h.Ok) (he : grantWaiters ids h = some h')
    (hdone : ∀ w ∈ h.conflictList, w.id ∉ ids → conflicts w.mode h.granted.modes) :
    Drains h h' := by
  induction ids generalizing h with
  | nil =>
    cases he
    exact ⟨Keeps.refl hok, .of_subset (List.Subset.refl _), fun r hr _ => hr, fun w hw =>
      hdone w hw (by simp)⟩
  | cons id ids ih =>
    unfold LockHead.grantWaiters at he
    split at he
    · next hn =>
      refine ih hok he fun w hw hid => hdone w hw ?_
      have : w.id ≠ id := fun heq => absurd hn (lookup_ne_none hw heq)
      simp [this, hid]
    next iter hlook =>
    obtain ⟨hiter, rfl⟩ := of_lookup hlook
    split at he
    · cases he
    split at he
    · next hcon =>
      refine ih hok he fun w hw hid => ?_
      by_cases heq : w.id = iter.id
      · rwa [eq_of_key_eq hok.conflict.nodup hw hiter heq]
      · exact hdone w hw (by simp [heq, hid])
    · next hcon =>
      obtain ⟨h₂, he₂, he⟩ := Option.bind_eq_some_iff.mp he
      obtain ⟨h₁, hd, ha⟩ := Option.bind_eq_some_iff.mp he₂
      obtain ⟨hk, hgrow, hcl, ⟨q, hq, hqm⟩, hconv⟩ := hok.grantWaiter hiter hcon hd ha
      split at he
      · next hx =>
        cases he
        -- everything that is left conflicts with the exclusive mode just granted
        refine ⟨hk, hgrow, hconv, fun w hw => ?_⟩
        have hw' := hcl ▸ hw
        have hnone := (hok.conflict.waiting w (mem_erase.mp hw').1).2.1
        refine conflicts_iff.mpr ⟨modeX, ?_, conflict_modeX hnone⟩
        exact hk.ok.granted.mem_modes.mpr ⟨q, hq, .inl (hqm.trans hx)⟩
      · have hd := ih hk.ok he fun w hw hid => by
          have hw' := mem_erase.mp (hcl ▸ hw)
          exact hok.conflicts_grows hk.ok hgrow (hdone w hw'.1 (by simp [hw'.2, hid]))
        exact ⟨hk.trans hd.toKeeps, hgrow.trans hd.grows, fun r hr hs =>
          hconv r (hd.converting r hr hs) hs, hd.waiting⟩

/-- What `_onLockModeChanged` establishes. -/
structure Settles (check : Bool) (h h' : LockHead) : Prop extends Keeps h h' where
  converting : ∀ r ∈ h'.grantedList, r.status = .converting → Obstructed h'.grantedList r
  waiting : check = true → ∀ w ∈ h'.conflictList, conflicts w.mode h'.granted.modes
  unchecked : check = false →
    h'.conflictList = h.conflictList ∧ Grows h.grantedList h'.grantedList

theorem Ok.onLockModeChanged {check : Bool} (hok : h.Ok)
    (he : h.onLockModeChanged check = some h') : Settles check h h' := by
  obtain ⟨h₁, he₁, he⟩ := Option.bind_eq_some_iff.mp he
  obtain ⟨h₂, he₂, he⟩ := Option.bind_eq_some_iff.mp he
  have hu := hok.grantConversions he₁ fun r hr _ hid =>
    absurd (mem_map_of_mem hr) hid
  split at he
  · cases he
    cases check with
    | false =>
      cases he₂
      exact ⟨hu.toKeeps, hu.converting, by simp, fun _ => ⟨hu.conflictList, hu.grows⟩⟩
    | true =>
      have hd := hu.ok.grantWaiters he₂ fun w hw hid => absurd (mem_map_of_mem hw) hid
      exact ⟨hu.toKeeps.trans hd.toKeeps, fun r hr hs =>
        (hu.converting r (hd.converting r hr hs) hs).grows hd.grows, fun _ => hd.waiting, by simp⟩
  · cases he

/-- After a full pass nothing is blocked without a reason. -/
theorem Settles.blocked (hs : Settles true h h') : h'.Blocked where
  waiting := fun w hw => .inl (hs.waiting rfl w hw)
  first := by
    intro hne
    obtain ⟨w, hw⟩ := exists_mem_of_ne_nil _ hne
    exact ⟨w, hw, hs.waiting rfl w hw⟩
  converting := hs.converting

end LockHead

end MongolDb.Lock
