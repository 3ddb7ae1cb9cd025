import MongolDb.Lib.Reach
import MongolDb.Lock.Head

/-! The lock manager as a transition system: each step is one critical section of a call, or
the part of a call that takes no mutex. -/
namespace MongolDb.Lock
open LockMode Keyed

abbrev ResourceId := Nat

def numLockBuckets : Nat := 128

def numPartitions : Nat := 32

def getBucket (resId : ResourceId) : Nat := resId % numLockBuckets

def getPartition (locker : Nat) : Nat := locker % numPartitions

/-- The two priority flags a locker sets on its request. -/
structure Flags where
  enqueueAtFront : Bool
  compatibleFirst : Bool
  deriving DecidableEq

/-- The call that is inside a bucket's mutex while it takes one partition's mutex after the
other. -/
inductive Section where
  | lock (resId : ResourceId) (locker : Nat) (flags : Flags) (mode : LockMode)
      (acquirable : mode ≠ modeNone)
  | convert (resId : ResourceId) (id : RequestId)
  | cleanup (resId : ResourceId)
  deriving DecidableEq

def Section.resId : Section → ResourceId
  | .lock resId .. => resId
  | .convert resId _ => resId
  | .cleanup resId => resId

/-- Where a request is: `request->lock` or `request->partitionedLock`. -/
inductive Place where
  | head
  | partition (p : Nat)
  deriving DecidableEq

structure State where
  heads : ResourceId → Option LockHead
  /-- Partition by partition, the PartitionedLockHead of a resource. -/
  partitions : Nat → ResourceId → Option (List LockRequest)
  /-- Who is inside the mutex of a bucket between two steps. -/
  inside : Nat → Option Section
  /-- The serial of the next request. -/
  next : Nat

namespace State

def initial : State := ⟨fun _ => none, fun _ _ => none, fun _ => none, 0⟩

def setHead (s : State) (resId : ResourceId) (h : Option LockHead) : State :=
  { s with heads := Function.update s.heads resId h }

def setPartition (s : State) (p : Nat) (resId : ResourceId) (l : Option (List LockRequest)) :
    State :=
  { s with partitions := Function.update s.partitions p (Function.update (s.partitions p) resId l) }

def setInside (s : State) (bucket : Nat) (sec : Option Section) : State :=
  { s with inside := Function.update s.inside bucket sec }

def findOrInsert (s : State) (resId : ResourceId) : LockHead :=
  (s.heads resId).getD LockHead.initNew

def request (s : State) (resId : ResourceId) (place : Place) (id : RequestId) :
    Option LockRequest :=
  match place with
  | .head => (s.heads resId).bind (·.request id)
  | .partition p => (s.partitions p resId).bind (lookup LockRequest.id id)

def modifyRequest (s : State) (resId : ResourceId) (place : Place) (id : RequestId)
    (f : LockRequest → LockRequest) : State :=
  match place with
  | .head => s.setHead resId ((s.heads resId).map (·.modifyRequest id f))
  | .partition p => s.setPartition p resId ((s.partitions p resId).map (modify LockRequest.id id f))

end State

/-- `PartitionedLockHead::newRequest`. -/
def LockRequest.inPartition (id : RequestId) (flags : Flags) (mode : LockMode) : LockRequest :=
  { LockRequest.initNew id flags.enqueueAtFront flags.compatibleFirst with
    recursiveCount := 1, status := .granted, partitioned := true, mode := mode }

/-- The locker's flags and the new reference `convert` counts. -/
def LockRequest.reacquire (flags : Flags) (call : Call) (r : LockRequest) : LockRequest :=
  { r with
    enqueueAtFront := r.enqueueAtFront || flags.enqueueAtFront
    compatibleFirst := r.compatibleFirst || flags.compatibleFirst
    recursiveCount := r.recursiveCount + 1
    call := call }

def LockRequest.dropReference (call : Call) (r : LockRequest) : LockRequest :=
  { r with recursiveCount := r.recursiveCount - 1, call := call }

def LockRequest.proceed (call : Call) (r : LockRequest) : LockRequest := { r with call := call }

inductive Action where
  | lockFast (resId : ResourceId) (locker : Nat) (flags : Flags) (mode : LockMode)
  | lockHead (resId : ResourceId) (locker : Nat) (flags : Flags) (mode : LockMode)
  | lockDone (bucket : Nat)
  | migrate (bucket : Nat)
  | convertBegin (resId : ResourceId) (place : Place) (id : RequestId) (flags : Flags)
      (newMode : LockMode)
  | convertHead (resId : ResourceId) (place : Place) (id : RequestId)
  | convertDone (bucket : Nat)
  | unlockBegin (resId : ResourceId) (place : Place) (id : RequestId)
  | unlockPartition (resId : ResourceId) (place : Place) (id : RequestId)
  | unlockHead (resId : ResourceId) (id : RequestId)
  | downgrade (resId : ResourceId) (id : RequestId) (newMode : LockMode)
  | cleanupHead (resId : ResourceId)
  | cleanupDone (bucket : Nat)
  deriving DecidableEq

namespace State
variable (s : State) (resId : ResourceId) (place : Place) (id : RequestId)

/-- `partition->findOrInsert(resId)->newRequest(request, mode)`. -/
def joinPartition (locker : Nat) (flags : Flags) (mode : LockMode) : State :=
  let p := getPartition locker
  let l := (s.partitions p resId).getD []
  { s.setPartition p resId (some (l ++ [.inPartition ⟨locker, s.next⟩ flags mode])) with
    next := s.next + 1 }

/-- `lock` under the partition's mutex: an intent mode joins a PartitionedLockHead. -/
def lockFast (locker : Nat) (flags : Flags) (mode : LockMode) : Option State :=
  if mode ∈ intentModes ∧ s.partitions (getPartition locker) resId ≠ none then
    some (s.joinPartition resId locker flags mode)
  else none

/-- `lock` takes the bucket's mutex and either starts a partition, which ends the call, or
goes on to migrate. -/
def lockHead (locker : Nat) (flags : Flags) (mode : LockMode) : Option State :=
  if s.inside (getBucket resId) ≠ none then none
  else if hm : mode = modeNone then none
  else if mode ∈ intentModes ∧ (s.findOrInsert resId).onlyIntent then
    some ((s.setHead resId
      (some ((s.findOrInsert resId).addPartition (getPartition locker)))).joinPartition
        resId locker flags mode)
  else
    some ((s.setHead resId (some (s.findOrInsert resId))).setInside (getBucket resId)
      (some (.lock resId locker flags mode hm)))

/-- `lock` puts its request on the lock head. -/
def lockDone (bucket : Nat) : Option State :=
  match s.inside bucket with
  | some (.lock resId locker flags mode _) =>
    (s.heads resId).bind fun h =>
      if h.partitions ≠ [] then none
      else
        (h.newRequest (.initNew ⟨locker, s.next⟩ flags.enqueueAtFront flags.compatibleFirst)
          mode).map fun out =>
            { (s.setHead resId (some out.1)).setInside bucket none with next := s.next + 1 }
  | _ => none

/-- One round of `migratePartitionedLockHeads`, under the partition's mutex. -/
def migrate (bucket : Nat) : Option State :=
  (s.inside bucket).bind fun sec =>
    (s.heads sec.resId).bind fun h =>
      h.partitions.getLast?.bind fun p =>
        if h.onlyIntent then
          match s.partitions p sec.resId with
          | none => some (s.setHead sec.resId (some h.popPartition))
          | some rs =>
            (h.migrateRequests rs).map fun h =>
              (s.setHead sec.resId (some h.popPartition)).setPartition p sec.resId none
        else none

/-- `convert` before it takes a mutex, after its locker has set the flags. -/
def convertBegin (flags : Flags) (newMode : LockMode) : Option State :=
  (s.request resId place id).bind fun r =>
    if r.call ≠ .idle ∨ r.status ≠ .granted ∨ r.recursiveCount = 0 then none
    else if covers r.mode newMode then some (s.modifyRequest resId place id (.reacquire flags .idle))
    else if covers newMode r.mode then
      some (s.modifyRequest resId place id (.reacquire flags (.convert newMode)))
    else none

def convertHead : Option State :=
  (s.request resId place id).bind fun r =>
    match r.call with
    | .convert _ =>
      if s.inside (getBucket resId) ≠ none ∨ s.heads resId = none then none
      else some (s.setInside (getBucket resId) (some (.convert resId id)))
    | _ => none

def convertDone (bucket : Nat) : Option State :=
  match s.inside bucket with
  | some (.convert resId id) =>
    (s.heads resId).bind fun h =>
      if h.partitions ≠ [] then none
      else
        (h.request id).bind fun r =>
          match r.call with
          | .convert newMode =>
            (h.convert r newMode).map fun out =>
              (s.setHead resId (some out.1)).setInside bucket none
          | _ => none
  | _ => none

/-- `unlock` before it takes a mutex. -/
def unlockBegin : Option State :=
  (s.request resId place id).bind fun r =>
    if r.call ≠ .idle ∨ r.recursiveCount = 0 then none
    else if r.status = .granted ∧ 0 < r.recursiveCount - 1 then
      some (s.modifyRequest resId place id (.dropReference .idle))
    else if r.partitioned then
      if r.status = .granted ∨ r.status = .converting then
        some (s.modifyRequest resId place id (.dropReference .unlockPartition))
      else none
    else if place = .head then some (s.modifyRequest resId place id (.dropReference .unlockHead))
    else none

/-- `unlock` under the partition's mutex: the request may have left for the lock head. -/
def unlockPartition : Option State :=
  (s.request resId place id).bind fun r =>
    if r.call ≠ .unlockPartition then none
    else
      match place with
      | .partition p =>
        some (s.setPartition p resId ((s.partitions p resId).map (erase LockRequest.id id)))
      | .head => some (s.modifyRequest resId place id (.proceed .unlockHead))

def unlockHead : Option State :=
  if s.inside (getBucket resId) ≠ none then none
  else
    (s.heads resId).bind fun h =>
      (h.request id).bind fun r =>
        if r.call ≠ .unlockHead then none
        else (h.unlock r).map fun h => s.setHead resId (some h)

def downgrade (newMode : LockMode) : Option State :=
  if s.inside (getBucket resId) ≠ none ∨ newMode = modeNone then none
  else
    (s.heads resId).bind fun h =>
      (h.request id).bind fun r =>
        if r.call ≠ .idle ∨ r.status ≠ .granted ∨ r.recursiveCount = 0 ∨ ¬ covers r.mode newMode then
          none
        else (h.downgrade r newMode).map fun h => s.setHead resId (some h)

/-- `cleanupUnusedLocks` reaches one lock head. -/
def cleanupHead : Option State :=
  if s.inside (getBucket resId) ≠ none ∨ s.heads resId = none then none
  else some (s.setInside (getBucket resId) (some (.cleanup resId)))

def cleanupDone (bucket : Nat) : Option State :=
  match s.inside bucket with
  | some (.cleanup resId) =>
    (s.heads resId).bind fun h =>
      if h.partitions ≠ [] then none
      else if h.granted.modes ≠ ∅ then some (s.setInside bucket none)
      else if h.grantedList = [] ∧ h.conflict.modes = ∅ ∧ h.conflictList = []
          ∧ h.conversionsCount = 0 ∧ h.compatibleFirstCount = 0 then
        some ((s.setHead resId none).setInside bucket none)
      else none
  | _ => none

/-- A step of the lock manager; `none` when it cannot be taken or an `invariant` fails. -/
def step (a : Action) (s : State) : Option State :=
  match a with
  | .lockFast resId locker flags mode => s.lockFast resId locker flags mode
  | .lockHead resId locker flags mode => s.lockHead resId locker flags mode
  | .lockDone bucket => s.lockDone bucket
  | .migrate bucket => s.migrate bucket
  | .convertBegin resId place id flags newMode => s.convertBegin resId place id flags newMode
  | .convertHead resId place id => s.convertHead resId place id
  | .convertDone bucket => s.convertDone bucket
  | .unlockBegin resId place id => s.unlockBegin resId place id
  | .unlockPartition resId place id => s.unlockPartition resId place id
  | .unlockHead resId id => s.unlockHead resId id
  | .downgrade resId id newMode => s.downgrade resId id newMode
  | .cleanupHead resId => s.cleanupHead resId
  | .cleanupDone bucket => s.cleanupDone bucket

/-- The granted requests of a resource: those on its lock head and those in partitions. -/
def grantedOn : List LockRequest :=
  ((s.heads resId).map LockHead.grantedList).getD [] ++
    (List.range numPartitions).flatMap fun p => (s.partitions p resId).getD []

end State

end MongolDb.Lock
