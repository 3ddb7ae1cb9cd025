import MongolDb.Lock.ManagerInvariant

/-! The counters and masks of every lock head against its request lists, over what lockers do. -/
namespace MongolDb.Lock
open LockMode Transition

variable {s : State}

/-- The resource types in the top three bits of a resource id. -/
inductive ResourceType where
  | invalid
  | global
  | mmapv1Flush
  | database
  | collection
  | metadata
  deriving DecidableEq

def ResourceType.toNat : ResourceType → Nat
  | invalid => 0
  | global => 1
  | mmapv1Flush => 2
  | database => 3
  | collection => 4
  | metadata => 5

def ResourceId.fullHash (type : ResourceType) (hashId : Nat) : ResourceId :=
  type.toNat * 2 ^ 61 + hashId % 2 ^ 61

def resourceIdGlobal : ResourceId := ResourceId.fullHash .global 2

def resourceIdMMAPV1Flush : ResourceId := ResourceId.fullHash .mmapv1Flush 3

/-- The flags `LockerImpl::lockBegin` sets on the request, new or not, before it calls the lock
manager. -/
def lockBeginFlags (isForMMAPV1 : Bool) (resId : ResourceId) (mode : LockMode) : Flags :=
  if resId / 2 ^ 61 = ResourceType.global.toNat ∨ (isForMMAPV1 ∧ resId = resourceIdMMAPV1Flush) then
    if mode = modeS ∨ mode = modeX then ⟨true, true⟩ else ⟨false, false⟩
  else ⟨false, false⟩

/-- A step that a locker makes: its flags are those of `lockBegin`. -/
def Action.ofLocker (isForMMAPV1 : Bool) : Action → Prop
  | .lockFast resId _ flags mode | .lockHead resId _ flags mode =>
    flags = lockBeginFlags isForMMAPV1 resId mode
  | .convertBegin resId _ _ flags newMode => flags = lockBeginFlags isForMMAPV1 resId newMode
  | _ => True

instance (isForMMAPV1 : Bool) (a : Action) : Decidable (a.ofLocker isForMMAPV1) :=
  match a with
  | .lockFast .. | .lockHead .. | .convertBegin .. => inferInstanceAs (Decidable (_ = _))
  | .lockDone _ | .migrate _ | .convertHead .. | .convertDone _ | .unlockBegin ..
  | .unlockPartition .. | .unlockHead .. | .downgrade .. | .cleanupHead _ | .cleanupDone _ =>
    .isTrue trivial

/-- The bookkeeping of a lock head agrees with its request lists. -/
structure LockHead.Agrees (h : LockHead) : Prop where
  grantedCounts : ∀ m, h.granted.counts m = holding h.grantedList m
  conflictCounts : ∀ m, h.conflict.counts m = waitingFor h.conflictList m
  grantedModes : ∀ m, m ∈ h.granted.modes ↔ h.granted.counts m ≠ 0
  conflictModes : ∀ m, m ∈ h.conflict.modes ↔ h.conflict.counts m ≠ 0
  conversionsCount : h.conversionsCount = h.grantedList.countP fun r => r.status = .converting
  compatibleFirstCount :
    h.compatibleFirstCount = h.grantedList.countP LockRequest.compatibleFirst

theorem LockHead.Ok.agrees {h : LockHead} (hok : h.Ok) (hc : h.Counted) : h.Agrees where
  grantedCounts := hok.granted.counts.counts
  conflictCounts := hok.conflict.counts.counts
  grantedModes := fun m => by rw [hok.granted.counts.counts, hok.granted.counts.modes]
  conflictModes := fun m => by rw [hok.conflict.counts.counts, hok.conflict.counts.modes]
  conversionsCount := hok.granted.conversions
  compatibleFirstCount := hc

/-- A step of a locker that neither releases a request with references left nor flags a request
already granted on a lock head. -/
def Action.tracked (isForMMAPV1 : Bool) (s : State) (a : Action) : Prop :=
  a.ofLocker isForMMAPV1 ∧ a.releasesLast s ∧ a.flagsCounted s

theorem counted_of_reach {isForMMAPV1 : Bool}
    (h : Reach State.step (fun s a => a.tracked isForMMAPV1 s) .initial s) :
    s.Inv ∧ ∀ R h, s.heads R = some h → h.Counted := by
  refine h.invariant (I := fun s => s.Inv ∧ ∀ R h, s.heads R = some h → h.Counted)
    ⟨State.inv_initial, by simp [State.initial]⟩ fun {s t a} hs ha hst => ?_
  obtain ⟨hi, hc⟩ := hs
  have hsound := hi.step ha.2.1 hst
  exact ⟨hsound.inv, fun R h' hR => hsound.counted ha.2.2 R h' hR
    (State.findOrInsert_of_forall LockHead.counted_initNew (hc R))⟩

/-- The bookkeeping is right in every state lockers reach by tracked steps. -/
theorem agrees_of_reach {isForMMAPV1 : Bool}
    (h : Reach State.step (fun s a => a.tracked isForMMAPV1 s) .initial s) (R : ResourceId)
    (head : LockHead) (hR : s.heads R = some head) : head.Agrees := by
  obtain ⟨hi, hc⟩ := counted_of_reach h
  exact (hi.head R head hR).1.agrees (hc R head hR)

/-- A global shared lock, and an intent lock that finds it granted. -/
def sharedAndIntent : List Action :=
  [.lockHead resourceIdGlobal 1 ⟨true, true⟩ modeS, .lockDone (getBucket resourceIdGlobal),
    .lockHead resourceIdGlobal 0 ⟨false, false⟩ modeIS, .lockDone (getBucket resourceIdGlobal)]

theorem agrees_of_reach_sharedAndIntent :
    ∃ s head, run State.step sharedAndIntent .initial = some s ∧
      s.heads resourceIdGlobal = some head ∧ head.compatibleFirstCount = 1 ∧ head.Agrees := by
  have hcount : ((run State.step sharedAndIntent .initial).bind (·.heads resourceIdGlobal)).map
      LockHead.compatibleFirstCount = some 1 := by decide +kernel
  obtain ⟨head, hhead, hc⟩ := Option.map_eq_some_iff.mp hcount
  obtain ⟨s, hs, hR⟩ := Option.bind_eq_some_iff.mp hhead
  have hlocker : ∀ a ∈ sharedAndIntent, a.ofLocker false := by decide +kernel
  have hreach : Reach State.step (fun s a => a.tracked false s) .initial s := by
    refine reach_of_run hs fun s a ha => ⟨hlocker a ha, ?_⟩
    simp only [sharedAndIntent, List.mem_cons, List.not_mem_nil, or_false] at ha
    rcases ha with rfl | rfl | rfl | rfl <;> exact ⟨trivial, trivial⟩
  exact ⟨s, head, hs, hR, hc, agrees_of_reach hreach resourceIdGlobal head hR⟩

/-- The intent lock is then taken again in shared mode, which flags it where it is not counted. -/
def sharedTwice : List Action :=
  sharedAndIntent ++
    [.convertBegin resourceIdGlobal .head ⟨0, 1⟩ ⟨true, true⟩ modeS,
      .convertHead resourceIdGlobal .head ⟨0, 1⟩, .convertDone (getBucket resourceIdGlobal)]

theorem sharedTwice_not_agrees :
    ∃ s head, Reach State.step (fun _ a => a.ofLocker false) .initial s ∧
      s.heads resourceIdGlobal = some head ∧ ¬ head.Agrees := by
  have hcount : ((run State.step sharedTwice .initial).bind (·.heads resourceIdGlobal)).map
      (fun h => (h.compatibleFirstCount, h.grantedList.countP LockRequest.compatibleFirst)) =
        some (1, 2) := by decide +kernel
  obtain ⟨head, hhead, hc⟩ := Option.map_eq_some_iff.mp hcount
  obtain ⟨s, hs, hR⟩ := Option.bind_eq_some_iff.mp hhead
  refine ⟨s, head, reach_of_run hs ?_, hR, fun ha => ?_⟩
  · have hlocker : ∀ a ∈ sharedTwice, a.ofLocker false := by decide +kernel
    exact fun _ => hlocker
  · have := ha.compatibleFirstCount
    rw [Prod.mk.injEq] at hc
    omega

end MongolDb.Lock
