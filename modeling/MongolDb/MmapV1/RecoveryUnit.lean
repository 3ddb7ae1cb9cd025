import MongolDb.Lib.Ranges
import MongolDb.MmapV1.Journal

/-! The recovery unit of the memory mapped storage engine: the pre-images that `writingPtr` keeps,
and what abort and commit make of them. -/
namespace MongolDb.MmapV1
open Ranges

/-- `size` is that of the pre-image buffer when the write was declared. -/
structure Write where
  addr : Nat
  len : Nat
  size : Nat
deriving DecidableEq

namespace Write

/-- `end()` in the source. -/
def stop (w : Write) : Nat := w.addr + w.len

def range (w : Write) : Nat × Nat := (w.addr, w.stop)

/-- The member `offset`: an `int` made from the `size_t`. -/
def offset (w : Write) : Int := Int.bmod w.size (2 ^ 32)

end Write

/-- How a call ends that does not return. -/
inductive Failure where
  | invariant
  | dassert
  | outOfRange
deriving DecidableEq

/-- `mergedWrites` is a set ordered by the writes' ends. -/
structure DurRecoveryUnit where
  inUnitOfWork : Bool
  rollbackWritesDisabled : Bool
  writeCount : Nat
  initialWrites : List Write
  mergedWrites : List Write
  preimageBuffer : List UInt8
deriving DecidableEq

def intMax : Nat := 2 ^ 31 - 1

def kMaxUnmergedPreimageBytes (kDebugBuild : Bool) : Nat :=
  if kDebugBuild then 16 * 1024 else 10 * 1024 * 1024

def bytesAt (data : Data) (addr len : Nat) : List UInt8 :=
  (List.range len).map fun k => data (addr + k)

/-- The bytes from `addr` on up to `stop`, if there are any, become a write of their own. -/
def storeUncovered (disabled : Bool) (data : Data) (addr stop : Nat) (buffer : List UInt8) :
    List Write × List UInt8 :=
  if addr < stop then
    ([⟨addr, stop - addr, buffer.length⟩],
      if disabled then buffer else buffer ++ bytesAt data addr (stop - addr))
  else ([], buffer)

/-- The loop of `mergingWritingPtr`, with the writes from `coveringWrite` on. -/
def mergeLoop (disabled : Bool) (data : Data) (stop : Nat) :
    List Write → Nat → List UInt8 → Except Failure (List Write × List UInt8)
  | [], addr, buffer => .ok (storeUncovered disabled data addr stop buffer)
  | cw :: rest, addr, buffer =>
    if stop ≤ addr then .ok (cw :: rest, buffer)
    else if cw.stop ≤ addr then .error .dassert
    else
      -- one round stores what lies before the covering write, the next one goes past it
      let new := storeUncovered disabled data addr (min cw.addr stop) buffer
      if stop ≤ cw.stop then .ok (new.1 ++ cw :: rest, new.2)
      else if rest.head?.any (·.addr < cw.stop) then .error .dassert
      else (mergeLoop disabled data stop rest cw.stop new.2).map
        fun r => (new.1 ++ cw :: r.1, r.2)

variable (u : DurRecoveryUnit)

namespace DurRecoveryUnit

def fresh : DurRecoveryUnit := ⟨false, false, 0, [], [], []⟩

def beginUnitOfWork : Except Failure DurRecoveryUnit :=
  if u.inUnitOfWork then .error .invariant else .ok { u with inUnitOfWork := true }

def resetChanges (_ : DurRecoveryUnit) : DurRecoveryUnit := fresh

/-- `upper_bound` finds the first write that ends behind `addr`. -/
def mergingWritingPtr (data : Data) (addr len : Nat) :
    Except Failure DurRecoveryUnit :=
  (mergeLoop u.rollbackWritesDisabled data (addr + len)
    (u.mergedWrites.dropWhile (·.stop ≤ addr)) addr u.preimageBuffer).map fun r =>
      { u with
        mergedWrites := u.mergedWrites.takeWhile (·.stop ≤ addr) ++ r.1
        preimageBuffer := r.2 }

def pushInitial (data : Data) (addr len : Nat) : DurRecoveryUnit :=
  { u with
    initialWrites := u.initialWrites ++ [⟨addr, len, u.preimageBuffer.length⟩]
    preimageBuffer :=
      if u.rollbackWritesDisabled then u.preimageBuffer
      else u.preimageBuffer ++ bytesAt data addr len }

def writingPtr (kDebugBuild : Bool) (u : DurRecoveryUnit) (data : Data) (addr len : Nat) :
    Except Failure DurRecoveryUnit :=
  if !u.inUnitOfWork then .error .invariant
  else if len = 0 then .ok u
  else if intMax ≤ len then .error .invariant
  else if kMaxUnmergedPreimageBytes kDebugBuild < u.preimageBuffer.length + len then
    ({ u with writeCount := u.writeCount + 1 }.mergingWritingPtr data addr len).bind fun u =>
      if u.preimageBuffer.length < kMaxUnmergedPreimageBytes kDebugBuild then .error .invariant
      else .ok u
  else .ok ({ u with writeCount := u.writeCount + 1 }.pushInitial data addr len)

/-- The writes in the order in which `rollbackChanges` goes over them. -/
def stored : List Write := u.mergedWrites ++ u.initialWrites.reverse

end DurRecoveryUnit

/-- `_preimageBuffer.copy`: the offset becomes a `size_t`, so a negative one is out of range. -/
def copyPreimage (buffer : List UInt8) (data : Data) (w : Write) : Except Failure Data :=
  if 0 ≤ w.offset ∧ w.offset ≤ buffer.length then
    .ok fun a =>
      if InRange w.range a then (buffer[w.offset.toNat + (a - w.addr)]?).getD (data a) else data a
  else .error .outOfRange

/-- What is handed to `declareWriteIntents`: an address and an `unsigned` length. -/
structure Intent where
  addr : Nat
  len : Nat
deriving DecidableEq

def Intent.stop (i : Intent) : Nat := i.addr + i.len

def Intent.range (i : Intent) : Nat × Nat := (i.addr, i.stop)

def Write.intent (w : Write) : Intent := ⟨w.addr, w.len⟩

def coalesceInitial (last : Intent) : List Write → List Intent
  | [] => [last]
  | w :: rest =>
    if w.addr ≤ last.stop then
      coalesceInitial ⟨last.addr, max last.len ((w.stop - last.addr) % 2 ^ 32)⟩ rest
    else last :: coalesceInitial w.intent rest

def coalesceMerged (last : Intent) : List Write → Except Failure (List Intent)
  | [] => .ok [last]
  | w :: rest =>
    if w.addr < last.addr then .error .invariant
    else if w.addr = last.stop then
      coalesceMerged ⟨last.addr, (last.len + w.len) % 2 ^ 32⟩ rest
    else if w.addr ≤ last.stop then .error .invariant
    else (coalesceMerged w.intent rest).map (last :: ·)

def initialIntents : List Write → List Intent
  | [] => []
  | w :: rest => coalesceInitial w.intent rest

def mergedIntents : List Write → Except Failure (List Intent)
  | [] => .ok []
  | w :: rest => coalesceMerged w.intent rest

namespace DurRecoveryUnit

def rollbackChanges (data : Data) : Except Failure Data :=
  if u.rollbackWritesDisabled then .ok data
  else u.stored.foldlM (copyPreimage u.preimageBuffer) data

def abortUnitOfWork (data : Data) : Except Failure (DurRecoveryUnit × Data) :=
  if !u.inUnitOfWork then .error .invariant
  else (u.rollbackChanges data).map fun d => (u.resetChanges, d)

/-- `sorted` is what `std::sort` makes of the initial writes. No intents without a write. -/
def markWritesForJournaling (sorted : List Write) :
    Except Failure (List Intent) :=
  if u.writeCount = 0 then .ok []
  else (mergedIntents u.mergedWrites).map (initialIntents sorted ++ ·)

def commitUnitOfWork (isDurable : Bool) (u : DurRecoveryUnit) (sorted : List Write) :
    Except Failure (DurRecoveryUnit × List Intent) :=
  if !u.inUnitOfWork then .error .invariant
  else (if isDurable then u.markWritesForJournaling sorted else .ok []).map fun intents =>
    (u.resetChanges, intents)

end DurRecoveryUnit

end MongolDb.MmapV1
