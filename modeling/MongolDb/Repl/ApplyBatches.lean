import MongolDb.Lib.Reach
import MongolDb.Lib.Redo
import MongolDb.Repl.OpTime

/-! A secondary that applies batches of operations, crashes and starts again (db/repl/sync_tail.cpp,
db/repl/minvalid.cpp, truncateOplogTo in db/repl/oplog.cpp, cleanUpLastApplyBatch). Entries are
numbered as they stand in the oplog of the sync source, from the first one that the node has. -/
namespace MongolDb.Repl
open Redo

/-- The sync source keeps all entries, and their times increase. -/
structure Source (D ι : Type) extends Log D ι where
  optime : Nat → OpTime
  increasing : ∀ {i j : Nat}, i < j →
    (optime i).lt (optime j) = true ∧ (optime i).timestamp < (optime j).timestamp
  notNull : ∀ i, (optime i).isNull = false

/-- The document in local.replset.minvalid. -/
structure MinValid where
  begin : Option OpTime
  endOpTime : OpTime
  deriving DecidableEq

/-- What is committed. -/
structure Db (D : Type) where
  minvalid : Option MinValid
  oplog : List Nat
  data : D

structure BatchBoundaries where
  start : OpTime
  stop : OpTime

section
variable {D ι : Type} (src : Source D ι)

def Db.getMinValid (db : Db D) : BatchBoundaries :=
  match db.minvalid with
  | none => ⟨.null, .null⟩
  | some mv => ⟨mv.begin.getD .null, mv.endOpTime⟩

/-- The scan from the latest entry back; the result is whether there is something to truncate, and
the entry at which the scan stopped. -/
def scanBack (truncateTimestamp : Nat) : List Nat → Bool → Option Nat → Bool × Option Nat
  | [], found, last => (found, last)
  | k :: older, found, _ =>
    if (src.optime k).timestamp < truncateTimestamp then (found, some k)
    else scanBack truncateTimestamp older true (some k)

/-- `temp_cappedTruncateAfter`, not inclusive. -/
def cappedTruncateAfter (k : Nat) (oplog : List Nat) : List Nat := oplog.takeWhile (· ≠ k) ++ [k]

def truncateOplogTo (truncateTimestamp : Nat) (oplog : List Nat) : List Nat :=
  match scanBack src truncateTimestamp oplog.reverse false none with
  | (true, some k) => cappedTruncateAfter k oplog
  | _ => oplog

def Db.cleanUpLastApplyBatch (db : Db D) : Db D :=
  if db.getMinValid.start.isNull then db
  else { db with oplog := truncateOplogTo src db.getMinValid.start.timestamp db.oplog }

end

/-- Where the node is. -/
inductive Phase (D : Type) where
  /-- The process has ended. -/
  | down
  /-- `cleanUpLastApplyBatch` is done. -/
  | cleaned
  /-- In `oplogApplication`, between two batches. -/
  | idle
  /-- In `multiApply`; the data were `before` when it was called. -/
  | applying (ops : List Nat) (stop : OpTime) (before : D) (oplogWritten : Bool)
  /-- `oplogApplication` has returned in a shutdown; writers of the last batch may be left. -/
  | stopped (ops : List Nat)

structure SyncNode (D : Type) where
  db : Db D
  /-- What was committed before, latest first. -/
  history : List (Db D)
  phase : Phase D
  lastSetTimestamp : Nat
  myLastOptime : OpTime
  originalEndOpTime : OpTime
  secondary : Bool
  inShutdown : Bool

inductive SyncAction (ι : Type) where
  | beginShutdown
  | tryToGoLiveAsASecondary
  | startBatch (count : Nat)
  | writeData (k : Nat) (part : ι)
  | writeOpsToOplog
  | finishBatch
  | crash (lost : Nat)
  | cleanUpLastApplyBatch
  | startUp
  | callAgain

/-- The action writes the second marker. -/
def SyncAction.endsBatch {ι : Type} : SyncAction ι → Bool
  | .finishBatch => true
  | _ => false

namespace SyncNode
variable {D ι : Type} (src : Source D ι) (s : SyncNode D)

def commit (db : Db D) : SyncNode D := { s with db := db, history := s.db :: s.history }

/-- The node switches to SECONDARY if no batch is open and all it needs is applied. -/
def tryToGoLiveAsASecondary : SyncNode D :=
  if s.secondary then s
  else if !s.db.getMinValid.start.isNull || s.db.getMinValid.stop.gt s.myLastOptime then s
  else { s with secondary := true }

/-- The next entries behind the last one of the local oplog, under the first of the two markers. -/
def startBatch (count : Nat) : Option (SyncNode D) := do
  let last ← s.db.oplog.getLast?
  if count = 0 then none
  else
    let start : OpTime := ⟨s.lastSetTimestamp, OpTime.kUninitializedTerm⟩
    let stop := s.originalEndOpTime.max (src.optime (last + count))
    let s := s.commit { s.db with minvalid := some ⟨some start, stop⟩ }
    some { s with phase := .applying (List.range' (last + 1) count) stop s.db.data false }

/-- The second marker. In a shutdown `multiApply` returns before the writers are joined, and writers
that fail give up; what it returns is not looked at. -/
def finishBatch (ops : List Nat) (stop : OpTime) : Option (SyncNode D) := do
  let last ← ops.getLast?
  let db := { s.db with minvalid := some ⟨none, stop⟩ }
  if s.inShutdown then some { s.commit db with phase := .stopped ops }
  else
    some { s.commit db with
      phase := .idle
      myLastOptime := src.optime last
      lastSetTimestamp := (src.optime last).timestamp }

/-- The writers of a batch are joined, and what they have written in any order is what its entries
write one after the other. -/
def WritersAgree : Prop :=
  match s.phase with
  | .applying ops _ before _ => s.db.data = src.replay ops before
  | _ => True

/-- The process ends, and of the latest commits some are lost. -/
def crash (lost : Nat) : Option (SyncNode D) :=
  match (s.db :: s.history).drop lost with
  | [] => none
  | db :: history => some { s with db := db, history := history, phase := .down }

/-- The last entry of the oplog is loaded, and `oplogApplication` is called. -/
def startUp : Option (SyncNode D) := do
  let last ← s.db.oplog.getLast?
  return { s with
    phase := .idle
    lastSetTimestamp := (src.optime last).timestamp
    myLastOptime := src.optime last
    originalEndOpTime := s.db.getMinValid.stop
    secondary := false
    inShutdown := false }

def writeData (ops : List Nat) (k : Nat) (part : ι) : Option (SyncNode D) :=
  if k ∈ ops then some (s.commit { s.db with data := src.write k part s.db.data }) else none

def step : SyncAction ι → SyncNode D → Option (SyncNode D)
  | .crash lost, s => s.crash lost
  | .beginShutdown, s => some { s with inShutdown := true }
  | .cleanUpLastApplyBatch, s =>
    match s.phase with
    | .down => some { s.commit (s.db.cleanUpLastApplyBatch src) with phase := .cleaned }
    | _ => none
  | .startUp, s =>
    match s.phase with
    | .cleaned => s.startUp src
    | _ => none
  | .tryToGoLiveAsASecondary, s =>
    match s.phase with
    | .idle => some s.tryToGoLiveAsASecondary
    | _ => none
  | .startBatch count, s =>
    match s.phase with
    | .idle => s.startBatch src count
    | _ => none
  -- before each call the node is made RECOVERING
  | .callAgain, s =>
    match s.phase with
    | .idle => some { s with originalEndOpTime := s.db.getMinValid.stop, secondary := false }
    | _ => none
  | .writeData k part, s =>
    match s.phase with
    | .applying ops _ _ _ | .stopped ops => s.writeData src ops k part
    | _ => none
  | .writeOpsToOplog, s =>
    match s.phase with
    | .applying ops stop before false =>
      some { s.commit { s.db with oplog := s.db.oplog ++ ops } with
        phase := .applying ops stop before true }
    | _ => none
  | .finishBatch, s =>
    match s.phase with
    | .applying ops stop _ true => s.finishBatch src ops stop
    | _ => none

end SyncNode

end MongolDb.Repl
