import MongolDb.Lib.Keyed
import MongolDb.Lock.Modes

/-! One resource's lock: the requests queued on it and the operations under its mutex. -/
namespace MongolDb.Lock
open LockMode Keyed

/-- A request of a locker; the serial tells apart the requests a locker makes over time. -/
structure RequestId where
  locker : Nat
  serial : Nat
  deriving DecidableEq

inductive Status where
  | new
  | granted
  | waiting
  | converting
  deriving DecidableEq

/-- How far the owner of a request is in a call on it that has yet to take a mutex. -/
inductive Call where
  | idle
  | convert (newMode : LockMode)
  | unlockPartition
  | unlockHead
  deriving DecidableEq

/-- The `lock` and `partitionedLock` pointers are not fields: the list a request is on says
what they are. -/
structure LockRequest where
  id : RequestId
  enqueueAtFront : Bool
  compatibleFirst : Bool
  partitioned : Bool
  recursiveCount : Nat
  status : Status
  mode : LockMode
  convertMode : LockMode
  call : Call
  deriving DecidableEq

namespace LockRequest

/-- `LockRequest::initNew`, and the two flags the locker sets before it calls `lock`. -/
def initNew (id : RequestId) (enqueueAtFront compatibleFirst : Bool) : LockRequest :=
  ⟨id, enqueueAtFront, compatibleFirst, false, 0, .new, modeNone, modeNone, .idle⟩

def currentRequestHolds (r : LockRequest) (m : LockMode) : Nat := if r.mode = m then 1 else 0

def currentRequestWaits (r : LockRequest) (m : LockMode) : Nat :=
  if r.convertMode = m then 1 else 0

/-- A conversion that has to wait. -/
def startConversion (newMode : LockMode) (r : LockRequest) : LockRequest :=
  { r with status := .converting, convertMode := newMode, call := .idle }

/-- A conversion granted at once. -/
def convertTo (newMode : LockMode) (r : LockRequest) : LockRequest :=
  { r with mode := newMode, call := .idle }

/-- A conversion granted after a wait. -/
def completeConversion (r : LockRequest) : LockRequest :=
  { r with status := .granted, mode := r.convertMode, convertMode := modeNone }

/-- A conversion given up: the request is back in the mode it held. -/
def cancelConversion (r : LockRequest) : LockRequest :=
  { r with status := .granted, convertMode := modeNone, call := .idle }

def downgradeTo (newMode : LockMode) (r : LockRequest) : LockRequest := { r with mode := newMode }

end LockRequest

inductive LockResult where
  | ok
  | waiting
  deriving DecidableEq

/-- A counter for each mode, and the mask of the modes whose counter is not zero. -/
structure ModeCounts where
  counts : LockMode → Nat
  modes : ModeMask

namespace ModeCounts

def zero : ModeCounts := ⟨fun _ => 0, ∅⟩

/-- `incGrantedModeCount` and `incConflictModeCount`; `none` is a failed `invariant`. -/
def inc (c : ModeCounts) (mode : LockMode) : Option ModeCounts :=
  let counts := Function.update c.counts mode (c.counts mode + 1)
  if counts mode = 1 then
    if mode ∈ c.modes then none else some ⟨counts, insert mode c.modes⟩
  else some ⟨counts, c.modes⟩

/-- `decGrantedModeCount` and `decConflictModeCount`. -/
def dec (c : ModeCounts) (mode : LockMode) : Option ModeCounts :=
  if c.counts mode = 0 then none
  else
    let counts := Function.update c.counts mode (c.counts mode - 1)
    if counts mode = 0 then
      if mode ∈ c.modes then some ⟨counts, c.modes.erase mode⟩ else none
    else some ⟨counts, c.modes⟩

/-- The modes counted more often than `own` says, except `modeNone`: the loops that build
`grantedModesWithoutCurrentRequest`. -/
def without (c : ModeCounts) (own : LockMode → Nat) : ModeMask :=
  Finset.filter (fun m => own m < c.counts m) {modeIS, modeIX, modeS, modeX}

end ModeCounts

/-- `--` on an unchecked `uint32_t`. -/
def decrement (n : Nat) : Nat := if n = 0 then 2 ^ 32 - 1 else n - 1

structure LockHead where
  grantedList : List LockRequest
  granted : ModeCounts
  conflictList : List LockRequest
  conflict : ModeCounts
  partitions : List Nat
  conversionsCount : Nat
  compatibleFirstCount : Nat
  /-- Requests whose `lock` is this head although they are on neither list. -/
  unlinked : List LockRequest

namespace LockHead
variable (h : LockHead)

def initNew : LockHead := ⟨[], .zero, [], .zero, [], 0, 0, []⟩

/-- `LockRequestList::remove`. A request on no list has both its links null, and removing it
makes the list's two ends null. -/
def unlink (id : RequestId) (l : List LockRequest) : List LockRequest :=
  match lookup LockRequest.id id l with
  | some _ => erase LockRequest.id id l
  | none => []

section
variable (request : LockRequest)

/-- Put a request on the granted queue. -/
def grant : Option LockHead :=
  (h.granted.inc request.mode).map fun c =>
    { h with
      grantedList := h.grantedList ++ [{ request with status := .granted }]
      granted := c
      compatibleFirstCount :=
        if request.compatibleFirst then h.compatibleFirstCount + 1 else h.compatibleFirstCount }

/-- Put a request on the conflict queue. -/
def enqueue : Option LockHead :=
  (h.conflict.inc request.mode).map fun c =>
    { h with
      conflictList :=
        if request.enqueueAtFront then { request with status := .waiting } :: h.conflictList
        else h.conflictList ++ [{ request with status := .waiting }]
      conflict := c }

/-- Take a request off the conflict queue. -/
def dequeue : Option LockHead :=
  (h.conflict.dec request.mode).map fun c =>
    { h with conflictList := unlink request.id h.conflictList, conflict := c }

/-- The fields `newRequest` sets first; a request that migrates keeps its references. -/
def arriving (mode : LockMode) : LockRequest :=
  { request with
    mode := mode
    recursiveCount := if h.partitions = [] then 1 else request.recursiveCount }

def newRequest (mode : LockMode) : Option (LockHead × LockResult) :=
  if conflicts mode h.granted.modes
      ∨ (h.compatibleFirstCount = 0 ∧ conflicts mode h.conflict.modes) then
    (h.enqueue (h.arriving request mode)).map (·, .waiting)
  else (h.grant (h.arriving request mode)).map (·, .ok)

end

/-- Change a request wherever it is on this head. -/
def modifyRequest (id : RequestId) (f : LockRequest → LockRequest) : LockHead :=
  { h with
    grantedList := modify LockRequest.id id f h.grantedList
    conflictList := modify LockRequest.id id f h.conflictList
    unlinked := modify LockRequest.id id f h.unlinked }

/-- Find a request that is on this head. -/
def request (id : RequestId) : Option LockRequest :=
  lookup LockRequest.id id (h.grantedList ++ h.conflictList ++ h.unlinked)

def completeConversion (iter : LockRequest) : Option LockHead :=
  (h.granted.dec iter.mode).map fun c =>
    { h with
      conversionsCount := decrement h.conversionsCount
      granted := c
      grantedList := modify LockRequest.id iter.id LockRequest.completeConversion h.grantedList }

/-- What the loop over the conversions does at one request. -/
def grantConversion (id : RequestId) : Option LockHead :=
  match lookup LockRequest.id id h.grantedList with
  | none => some h
  | some iter =>
    if iter.status ≠ .converting then some h
    else if iter.convertMode = modeNone ∨ iter.mode = iter.convertMode then none
    else if conflicts iter.convertMode
        (h.granted.without fun m => iter.currentRequestHolds m + iter.currentRequestWaits m) then
      some h
    else h.completeConversion iter

def grantConversions : List RequestId → LockHead → Option LockHead
  | [], h => some h
  | id :: ids, h =>
    if h.conversionsCount = 0 then some h else (h.grantConversion id).bind (grantConversions ids)

def grantWaiters : List RequestId → LockHead → Option LockHead
  | [], h => some h
  | id :: ids, h =>
    match lookup LockRequest.id id h.conflictList with
    | none => grantWaiters ids h
    | some iter =>
      if iter.status ≠ .waiting then none
      else if conflicts iter.mode h.granted.modes then grantWaiters ids h
      else ((h.dequeue iter).bind (grant · iter)).bind fun h =>
        -- nothing is compatible with MODE_X, so the loop ends there
        if iter.mode = modeX then some h else grantWaiters ids h

/-- The two checks at the end of `_onLockModeChanged`. -/
def inSync : Prop :=
  (h.granted.modes = ∅ ↔ h.grantedList = []) ∧ (h.conflict.modes = ∅ ↔ h.conflictList = [])

instance (h : LockHead) : Decidable h.inSync := inferInstanceAs (Decidable (_ ∧ _))

def onLockModeChanged (checkConflictQueue : Bool) : Option LockHead :=
  (grantConversions (h.grantedList.map LockRequest.id) h).bind fun h =>
    (if checkConflictQueue then grantWaiters (h.conflictList.map LockRequest.id) h
      else some h).bind fun h =>
      if h.inSync then some h else none

section
variable (request : LockRequest)

/-- `convert` once the bucket is locked and no partition is left. -/
def convert (newMode : LockMode) : Option (LockHead × LockResult) :=
  if conflicts newMode (h.granted.without request.currentRequestHolds) then
    if request.recursiveCount ≤ 1 then none
    else
      (h.granted.inc newMode).map fun c =>
        ({ h with granted := c, conversionsCount := h.conversionsCount + 1 }.modifyRequest
          request.id (.startConversion newMode), .waiting)
  else
    (h.granted.inc newMode).bind fun c =>
      (c.dec request.mode).map fun c =>
        ({ h with granted := c }.modifyRequest request.id (.convertTo newMode), .ok)

/-- The head once a request has left the granted list, with the counters `c`. A request with
references left stays with its locker, on no list. -/
def withdraw (c : ModeCounts) : LockHead :=
  { h with
    granted := c
    grantedList := unlink request.id h.grantedList
    unlinked :=
      if request.recursiveCount = 0 then erase LockRequest.id request.id h.unlinked
      else { request with call := .idle } :: erase LockRequest.id request.id h.unlinked
    compatibleFirstCount :=
      if request.compatibleFirst then decrement h.compatibleFirstCount
      else h.compatibleFirstCount }

/-- `unlock` of a granted request once the bucket is locked: the references are not looked at
again. -/
def release : Option LockHead :=
  (h.granted.dec request.mode).bind fun c =>
    (h.withdraw request c).onLockModeChanged (decide (c.counts request.mode = 0))

/-- `unlock` of a waiting request. -/
def cancelWait : Option LockHead :=
  if request.recursiveCount ≠ 0 then none
  else (h.dequeue request).bind (·.onLockModeChanged true)

/-- `unlock` of a converting request. `convertMode` is reset before its count is read. -/
def cancelConversion : Option LockHead :=
  if request.recursiveCount = 0 then none
  else
    (h.granted.dec request.convertMode).bind fun c =>
      ({ h with granted := c, conversionsCount := decrement h.conversionsCount }.modifyRequest
        request.id .cancelConversion).onLockModeChanged (decide (c.counts modeNone = 0))

def unlock : Option LockHead :=
  match request.status with
  | .granted => h.release request
  | .waiting => h.cancelWait request
  | .converting => h.cancelConversion request
  | .new => none

def downgrade (newMode : LockMode) : Option LockHead :=
  (h.granted.inc newMode).bind fun c =>
    (c.dec request.mode).bind fun c =>
      ({ h with granted := c }.modifyRequest request.id
        (.downgradeTo newMode)).onLockModeChanged true

end

/-- The condition under which a lock may be partitioned. -/
def onlyIntent : Prop := h.granted.modes ⊆ intentModes ∧ h.conflict.modes = ∅

instance (h : LockHead) : Decidable h.onlyIntent := inferInstanceAs (Decidable (_ ∧ _))

def addPartition (p : Nat) : LockHead := { h with partitions := h.partitions ++ [p] }

def popPartition : LockHead := { h with partitions := h.partitions.dropLast }

/-- The requests of one partition move to this head; each must still be granted. -/
def migrateRequests : List LockRequest → LockHead → Option LockHead
  | [], h => some h
  | r :: rs, h =>
    (h.newRequest r r.mode).bind fun out =>
      if out.2 = .ok then migrateRequests rs out.1 else none

end LockHead

end MongolDb.Lock
