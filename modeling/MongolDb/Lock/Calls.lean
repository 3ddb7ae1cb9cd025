import MongolDb.Lock.ManagerInvariant

/-! Calls of the lock manager made one after the other, each run to its end, and that no blocked
request is left behind by any sequence of them. -/
namespace MongolDb.Lock
open LockMode Keyed Transition Option

variable {s t : State} {R : ResourceId} {id : RequestId} {r : LockRequest} {b n : Nat}

inductive Operation where
  | lock (resId : ResourceId) (locker : Nat) (flags : Flags) (mode : LockMode)
  | convert (resId : ResourceId) (id : RequestId) (flags : Flags) (newMode : LockMode)
  | unlock (resId : ResourceId) (id : RequestId)
  | downgrade (resId : ResourceId) (id : RequestId) (newMode : LockMode)
  | cleanupUnusedLocks (resId : ResourceId)
  deriving DecidableEq

namespace State

section
variable (s) (resId : ResourceId)

/-- A request is on the lock head, or else in its locker's partition. -/
def place (id : RequestId) : Place :=
  if (s.request resId .head id).isSome then .head else .partition (getPartition id.locker)

/-- What the call in progress on a request does next. -/
def pending (id : RequestId) : Call :=
  ((s.request resId (s.place resId id) id).map LockRequest.call).getD .idle

/-- Rounds of `migratePartitionedLockHeads`. -/
def migrateAll : Nat → Nat → State → Option State
  | 0, _, s => some s
  | n + 1, bucket, s => (s.migrate bucket).bind (migrateAll n bucket)

/-- `migratePartitionedLockHeads`, which empties the list of partitions. -/
def migratePartitionedLockHeads : Option State :=
  migrateAll (s.findOrInsert resId).partitions.length (getBucket resId) s

def lock (locker : Nat) (flags : Flags) (mode : LockMode) :
    Option State :=
  match s.lockFast resId locker flags mode with
  | some t => some t
  | none =>
    (s.lockHead resId locker flags mode).bind fun t =>
      match t.inside (getBucket resId) with
      | none => some t
      | some _ => (t.migratePartitionedLockHeads resId).bind (·.lockDone (getBucket resId))

def convert (id : RequestId) (flags : Flags)
    (newMode : LockMode) : Option State :=
  (s.convertBegin resId (s.place resId id) id flags newMode).bind fun t =>
    match t.pending resId id with
    | .convert _ =>
      (t.convertHead resId (t.place resId id) id).bind fun t =>
        (t.migratePartitionedLockHeads resId).bind (·.convertDone (getBucket resId))
    | _ => some t

def unlock (id : RequestId) : Option State :=
  (s.unlockBegin resId (s.place resId id) id).bind fun t =>
    match t.pending resId id with
    | .unlockPartition =>
      (t.unlockPartition resId (t.place resId id) id).bind fun t =>
        match t.pending resId id with
        | .unlockHead => t.unlockHead resId id
        | _ => some t
    | .unlockHead => t.unlockHead resId id
    | _ => some t

def cleanupUnusedLocks : Option State :=
  (s.cleanupHead resId).bind fun t =>
    (t.migratePartitionedLockHeads resId).bind (·.cleanupDone (getBucket resId))

end

/-- One call, from its start to its end. -/
def call (op : Operation) (s : State) : Option State :=
  match op with
  | .lock resId locker flags mode => s.lock resId locker flags mode
  | .convert resId id flags newMode => s.convert resId id flags newMode
  | .unlock resId id => s.unlock resId id
  | .downgrade resId id newMode => s.downgrade resId id newMode
  | .cleanupUnusedLocks resId => s.cleanupUnusedLocks resId

/-- Steps that release no request with references left. -/
abbrev Path (s t : State) : Prop := Reach State.step (fun s a => a.releasesLast s) s t

theorem path_one {a : Action} (ha : a.releasesLast s) (he : s.step a = some t) : Path s t :=
  .step .init ha he

theorem path_migrateAll (he : migrateAll n b s = some t) : Path s t := by
  induction n generalizing s with
  | zero =>
    cases he
    exact .init
  | succ n ih =>
    obtain ⟨u, hu, he⟩ := bind_eq_some_iff.mp he
    have hone : Path s u := path_one (a := .migrate b) trivial hu
    exact hone.trans (ih he)

theorem path_lock {locker : Nat} {flags : Flags} {mode : LockMode}
    (he : s.lock R locker flags mode = some t) : Path s t := by
  unfold State.lock at he
  split at he
  · next u hu =>
    cases he
    exact path_one (a := .lockFast R locker flags mode) trivial hu
  · obtain ⟨u, hu, he⟩ := bind_eq_some_iff.mp he
    have hone : Path s u := path_one (a := .lockHead R locker flags mode) trivial hu
    split at he
    · cases he
      exact hone
    · obtain ⟨v, hv, he⟩ := bind_eq_some_iff.mp he
      exact (hone.trans (path_migrateAll hv)).trans (path_one (a := .lockDone _) trivial he)

theorem path_convert {flags : Flags} {mode : LockMode}
    (he : s.convert R id flags mode = some t) : Path s t := by
  obtain ⟨u, hu, he⟩ := bind_eq_some_iff.mp he
  have hone : Path s u := path_one (a := .convertBegin R _ id flags mode) trivial hu
  split at he
  · obtain ⟨v, hv, he⟩ := bind_eq_some_iff.mp he
    obtain ⟨w, hw, he⟩ := bind_eq_some_iff.mp he
    have htwo : Path s v := hone.trans (path_one (a := .convertHead R _ id) trivial hv)
    exact (htwo.trans (path_migrateAll hw)).trans (path_one (a := .convertDone _) trivial he)
  · cases he
    exact hone

theorem path_cleanupUnusedLocks (he : s.cleanupUnusedLocks R = some t) : Path s t := by
  obtain ⟨u, hu, he⟩ := bind_eq_some_iff.mp he
  obtain ⟨v, hv, he⟩ := bind_eq_some_iff.mp he
  have hone : Path s u := path_one (a := .cleanupHead R) trivial hu
  exact (hone.trans (path_migrateAll hv)).trans (path_one (a := .cleanupDone _) trivial he)

theorem request_modifyRequest {f : LockRequest → LockRequest} (hf : ∀ q, (f q).id = q.id)
    (hr : s.request R .head id = some r) :
    (s.modifyRequest R .head id f).request R .head id = some (f r) := by
  obtain ⟨h, hR, hr⟩ := bind_eq_some_iff.mp hr
  have hreq : (h.modifyRequest id f).request id = some (f r) := by
    simp only [LockHead.request, LockHead.modifyRequest, ← modify_append] at hr ⊢
    rw [lookup_modify hf, hr]
    rfl
  simp [State.request, State.modifyRequest, State.setHead, hR, hreq]

theorem place_eq_head (hr : s.request R .head id = some r) : s.place R id = .head := by
  simp [State.place, hr]

/-- While `unlock` is under way on a granted request, no reference to it is left. -/
def Ready (s : State) (R : ResourceId) (id : RequestId) : Prop :=
  ∀ r, s.request R .head id = some r → r.call ≠ .idle → r.status = .granted →
    r.recursiveCount = 0

theorem request_head_of_place {p : Nat} (hp : s.place R id = .partition p) (r : LockRequest) :
    s.request R .head id ≠ some r := by
  intro hr
  rw [place_eq_head hr] at hp
  cases hp

theorem ready_unlockBegin (he : s.unlockBegin R (s.place R id) id = some t) : t.Ready R id := by
  obtain ⟨r, hr, he⟩ := bind_eq_some_iff.mp he
  have hdrop : ∀ call, (call ≠ .idle → r.status = .granted → r.recursiveCount - 1 = 0) →
      (s.modifyRequest R (s.place R id) id (.dropReference call)).Ready R id := by
    intro call hlast
    cases hplace : s.place R id with
    | head =>
      rw [hplace] at hr
      intro q hq
      obtain rfl : r.dropReference call = q := some.inj
        ((request_modifyRequest (touches_dropReference call).id hr).symm.trans hq)
      exact hlast
    | partition p => exact fun r hr => absurd hr (request_head_of_place hplace r)
  split at he
  · cases he
  split at he
  · cases he
    exact hdrop .idle fun hne => absurd rfl hne
  next hmore =>
  have hlast : r.status = .granted → r.recursiveCount - 1 = 0 := fun hs => by
    rw [not_and] at hmore
    exact Nat.eq_zero_of_not_pos (hmore hs)
  split at he
  · split at he
    · cases he
      exact hdrop .unlockPartition fun _ => hlast
    · cases he
  · split at he
    · cases he
      exact hdrop .unlockHead fun _ => hlast
    · cases he

theorem Ready.unlockPartition (hr : s.Ready R id)
    (he : s.unlockPartition R (s.place R id) id = some t) : t.Ready R id := by
  obtain ⟨q, hq, he⟩ := bind_eq_some_iff.mp he
  split at he
  · cases he
  next hcall =>
  cases hplace : s.place R id with
  | head =>
    rw [hplace] at he hq
    cases he
    intro r' hr'
    obtain rfl : q.proceed .unlockHead = r' := some.inj
      ((request_modifyRequest (touches_proceed _).id hq).symm.trans hr')
    intro _ hs
    refine hr q hq ?_ hs
    rw [not_not.mp hcall]
    simp
  | partition p =>
    rw [hplace] at he
    cases he
    exact fun r' hr' => absurd hr' (request_head_of_place hplace r')

theorem Ready.releasesLast (hr : s.Ready R id) (hp : s.pending R id = .unlockHead) :
    (Action.unlockHead R id).releasesLast s := by
  intro r hreq hs
  refine hr r hreq ?_ hs
  rw [State.pending, place_eq_head hreq, hreq, map_some, getD_some] at hp
  simp [hp]

theorem path_unlock (he : s.unlock R id = some t) : Path s t := by
  obtain ⟨u, hu, he⟩ := bind_eq_some_iff.mp he
  have hone : Path s u := path_one (a := .unlockBegin R _ id) trivial hu
  have hready := ready_unlockBegin hu
  split at he
  · obtain ⟨v, hv, he⟩ := bind_eq_some_iff.mp he
    have htwo : Path s v := hone.trans (path_one (a := .unlockPartition R _ id) trivial hv)
    split at he
    · next hp =>
      exact htwo.trans (path_one ((hready.unlockPartition hv).releasesLast hp) he)
    · cases he
      exact htwo
  · next hp => exact hone.trans (path_one (hready.releasesLast hp) he)
  · cases he
    exact hone

/-- A call is a path of steps in which `unlock` never finds a reference left. -/
theorem path_call {op : Operation} (he : s.call op = some t) : Path s t := by
  cases op with
  | lock R locker flags mode => exact path_lock he
  | convert R id flags mode => exact path_convert he
  | unlock R id => exact path_unlock he
  | downgrade R id mode => exact path_one (a := .downgrade R id mode) trivial he
  | cleanupUnusedLocks R => exact path_cleanupUnusedLocks he

theorem path_of_calls (h : Reach State.call (fun _ _ => True) .initial s) : Path .initial s := by
  induction h with
  | init => exact .init
  | step _ _ hst ih => exact ih.trans (path_call hst)

/-- No step leaves a blocked request without a reason to be. -/
theorem blocked_of_path (h : Path .initial s) :
    s.Inv ∧ ∀ R h, s.heads R = some h → h.Blocked := by
  refine h.invariant (I := fun s => s.Inv ∧ ∀ R h, s.heads R = some h → h.Blocked)
    ⟨inv_initial, by simp [initial]⟩ fun {s t a} hs ha hst => ?_
  obtain ⟨hi, hb⟩ := hs
  have hsound := hi.step ha hst
  exact ⟨hsound.inv, fun R h' hR => hsound.blocked R h' hR
    (findOrInsert_of_forall LockHead.blocked_initNew (hb R))⟩

end State

/-- After any sequence of complete calls, whatever is blocked on a lock head has a granted or a
waiting request in its way. -/
theorem blocked_of_calls (h : Reach State.call (fun _ _ => True) .initial s) (R : ResourceId)
    (head : LockHead) (hR : s.heads R = some head) : head.Blocked :=
  (State.blocked_of_path (State.path_of_calls h)).2 R head hR

/-- A request waits for an exclusive lock, and one behind it waits for both. -/
def queueing : List Operation :=
  [.lock 5 0 ⟨false, false⟩ modeX, .lock 5 1 ⟨false, false⟩ modeS, .lock 5 2 ⟨false, false⟩ modeIX]

theorem blocked_of_calls_queueing :
    ∃ s head, run State.call queueing .initial = some s ∧ s.heads 5 = some head ∧
      head.conflictList.map LockRequest.mode = [modeS, modeIX] ∧ head.Blocked := by
  have hmodes : ((run State.call queueing .initial).bind (·.heads 5)).map
      (fun h => h.conflictList.map LockRequest.mode) = some [modeS, modeIX] := by decide +kernel
  obtain ⟨head, hhead, hm⟩ := map_eq_some_iff.mp hmodes
  obtain ⟨s, hs, hR⟩ := bind_eq_some_iff.mp hhead
  exact ⟨s, head, hs, hR, hm,
    blocked_of_calls (reach_of_run hs fun _ _ _ => trivial) 5 head hR⟩

end MongolDb.Lock
