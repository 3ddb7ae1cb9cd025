import Mathlib.Algebra.Ring.Nat
import MongolDb.Lib.Outcome

/-! The search for the newest operation that two oplogs share (repl/roll_back_local_operations.cpp).
An oplog is the list of what its iterator returns, newest first. -/
namespace MongolDb.Repl.RollBack
open Outcome

/-- What the search reads of an operation. -/
@[ext] structure Operation where
  ts : Nat
  h : Int
  deriving DecidableEq

/-- `getSecs()`: the upper half of a timestamp. -/
def Operation.secs (o : Operation) : Nat := o.ts / 2 ^ 32

/-- A local operation and its record id. -/
abbrev Value := Operation × Int

inductive ErrorCode where
  | oplogStartMissing
  | exceededTimeLimit
  | noMatchingDocument
  | invalidSyncSource
  | noSuchKey
  | other (code : Nat)
  deriving DecidableEq

structure Status where
  code : ErrorCode
  reason : String
  deriving DecidableEq

inductive Failure where
  | status (s : Status)
  | invariant
  deriving DecidableEq

structure Finder where
  /-- `_localOplogValue`, once it has been read, and what the iterator returns after it. -/
  locals : List Value
  scanned : Nat
  /-- What has been handed to `rollbackOperation`, in order. -/
  rolledBack : List Operation

/-- A timestamp and a local record id. -/
abbrev RollbackCommonPoint := Nat × Int

section Search
variable (rollbackOperation : Operation → Except Status Unit)

/-- The part of the first call: reads the newest local operation. -/
def start (s : Finder) (operation : Operation) : Except Failure Unit :=
  if s.scanned = 0 then
    match s.locals with
    | [] => .error (.status ⟨.oplogStartMissing, "no oplog during initsync"⟩)
    | value :: _ =>
      let diff : Int := value.1.secs - operation.secs
      if 1800 < diff then
        .error (.status ⟨.exceededTimeLimit,
          "rollback error: not willing to roll back more than 30 minutes of data"⟩)
      else .ok ()
  else .ok ()

/-- `rollbackOperation` may not fail with NoSuchKey, which means something else to the caller. -/
def rollBack (value : Value) : Except Failure Unit :=
  match rollbackOperation value.1 with
  | .ok () => .ok ()
  | .error status => .error (if status.code = .noSuchKey then .invariant else .status status)

def reachedBeginning (ending : String) : Failure :=
  .status ⟨.noMatchingDocument, "RS101 reached beginning of local oplog " ++ ending⟩

/-- The loop over the local operations that are newer than the remote one. The list is empty when
the iterator has not returned another one. -/
def rollBackNewer (theirTime : Nat) : List Value → Nat → List Operation → Except Failure Finder
  | [], _, _ => .error (reachedBeginning "[2]")
  | value :: rest, scanned, rolledBack =>
    if theirTime < value.1.ts then do
      rollBack rollbackOperation value
      rollBackNewer theirTime rest (scanned + 1) (rolledBack ++ [value.1])
    else .ok ⟨value :: rest, scanned, rolledBack⟩

/-- What follows the loop. `none` stands for the status NoSuchKey, on which the caller reads another
remote operation. -/
def compareWith (operation : Operation) (s : Finder) :
    Except Failure (Finder × Option RollbackCommonPoint) :=
  match s.locals with
  | [] => .error .invariant
  | value :: rest =>
    if value.1.ts = operation.ts then
      if value.1.h = operation.h then
        .ok ({ s with scanned := s.scanned + 1 }, some (value.1.ts, value.2))
      else do
        rollBack rollbackOperation value
        if rest = [] then .error (reachedBeginning "[1]")
        else .ok (⟨rest, s.scanned + 1, s.rolledBack ++ [value.1]⟩, none)
    else if value.1.ts < operation.ts then .ok ({ s with scanned := s.scanned + 1 }, none)
    else .ok (s, some (2 ^ 32, 0))

def onRemoteOperation (s : Finder) (operation : Operation) :
    Except Failure (Finder × Option RollbackCommonPoint) := do
  start s operation
  let s ← rollBackNewer rollbackOperation operation.ts s.locals s.scanned s.rolledBack
  compareWith rollbackOperation operation s

def syncLoop : List Operation → Finder → Except Failure (RollbackCommonPoint × List Operation)
  | [], _ =>
    .error (.status ⟨.noMatchingDocument, "RS100 reached beginning of remote oplog [1]"⟩)
  | operation :: remote, s => do
    match ← onRemoteOperation rollbackOperation s operation with
    | (s, some point) => .ok (point, s.rolledBack)
    | (s, none) => syncLoop remote s

/-- The common point, and the operations that were handed to `rollbackOperation`. -/
def syncRollBackLocalOperations (localOplog : List Value) (remoteOplog : List Operation) :
    Except Failure (RollbackCommonPoint × List Operation) :=
  if remoteOplog = [] then
    .error (.status ⟨.invalidSyncSource, "remote oplog empty or unreadable"⟩)
  else syncLoop rollbackOperation remoteOplog ⟨localOplog, 0, []⟩

end Search

/-- The newest of the local entries that the other oplog has too, with the newer ones rolled back
after those in `calls`. -/
def Finds (f : Operation → Except Status Unit) (locals : List Value)
    (remotes calls : List Operation) (r : RollbackCommonPoint × List Operation) : Prop :=
  ∃ newer e older, locals = newer ++ e :: older ∧ e.1 ∈ remotes ∧
    (∀ x ∈ newer, x.1 ∉ remotes ∧ f x.1 = .ok ()) ∧
    r = ((e.1.ts, e.2), calls ++ newer.map Prod.fst)

/-- Newest first, with no timestamp twice. -/
def Newest (ops : List Operation) : Prop := ops.Pairwise fun a b => b.ts < a.ts

/-- The newest local operation is at most half an hour newer than the newest remote one. -/
def WithinLimit (locals : List Value) (remotes : List Operation) : Prop :=
  ∀ v ∈ locals.head?, ∀ o ∈ remotes.head?, (v.1.secs : Int) - o.secs ≤ 1800

section Spec
variable {f : Operation → Except Status Unit} {locals : List Value}
  {remotes calls : List Operation} {r : RollbackCommonPoint × List Operation} {v : Value}
  {o : Operation} {s : Finder}

theorem not_finds_nil : ¬ Finds f [] remotes calls r := by
  rintro ⟨newer, e, older, hl, -⟩
  simp at hl

theorem finds_hit (h : v.1 ∈ remotes) :
    Finds f (v :: locals) remotes calls r ↔ r = ((v.1.ts, v.2), calls) := by
  constructor
  · rintro ⟨newer, e, older, hl, -, hnewer, hr⟩
    cases newer with
    | nil =>
      cases hl
      simpa using hr
    | cons x newer =>
      cases hl
      exact absurd h (hnewer _ (by simp)).1
  · intro hr
    exact ⟨[], v, locals, rfl, h, by simp, by simpa using hr⟩

theorem finds_skip (h : v.1 ∉ remotes) : Finds f (v :: locals) remotes calls r ↔
    f v.1 = .ok () ∧ Finds f locals remotes (calls ++ [v.1]) r := by
  constructor
  · rintro ⟨newer, e, older, hl, he, hnewer, hr⟩
    cases newer with
    | nil =>
      cases hl
      exact absurd he h
    | cons x newer =>
      cases hl
      obtain ⟨hx, hrest⟩ := List.forall_mem_cons.mp hnewer
      exact ⟨hx.2, newer, e, older, rfl, he, hrest, by simpa using hr⟩
  · rintro ⟨hv, newer, e, older, rfl, he, hnewer, hr⟩
    exact ⟨v :: newer, e, older, rfl, he, List.forall_mem_cons.mpr ⟨⟨h, hv⟩, hnewer⟩,
      by simpa using hr⟩

theorem finds_cons_remote (h : ∀ x ∈ locals, x.1 ≠ o) :
    Finds f locals (o :: remotes) calls r ↔ Finds f locals remotes calls r := by
  have hmem : ∀ x ∈ locals, x.1 ∈ o :: remotes ↔ x.1 ∈ remotes := fun x hx => by simp [h x hx]
  refine exists_congr fun newer => exists_congr fun e => exists_congr fun older =>
    and_congr_right fun hl => and_congr (hmem e (by simp [hl])) (and_congr_left fun _ => ?_)
  exact forall₂_congr fun x hx => by rw [hmem x (by simp [hl, hx])]

/-- An operation that has to be rolled back, whatever is done with the rest. -/
theorem rollBack_bind_eq_ok {k : Unit → Except Failure (RollbackCommonPoint × List Operation)} :
    (rollBack f v >>= k) = .ok r ↔ f v.1 = .ok () ∧ k () = .ok r := by
  unfold rollBack
  cases f v.1 with
  | ok u => exact (and_iff_right rfl).symm
  | error e => exact ⟨nofun, nofun⟩

theorem Newest.not_mem {a : Operation} (hr : Newest (o :: remotes)) (hle : o.ts ≤ a.ts)
    (hne : a ≠ o) : a ∉ o :: remotes := by
  intro hmem
  rcases List.mem_cons.mp hmem with he | hmem
  · exact hne he
  · exact absurd ((List.pairwise_cons.mp hr).1 a hmem) (Nat.not_lt.mpr hle)

/-- One remote operation, and what is done with the outcome. -/
theorem round_eq_ok_iff {k : Finder × Option RollbackCommonPoint →
      Except Failure (RollbackCommonPoint × List Operation)} (scanned : Nat)
    (hr : Newest (o :: remotes)) (hl : Newest (locals.map Prod.fst))
    (hsome : ∀ s point, k (s, some point) = .ok (point, s.rolledBack))
    (hnone : ∀ s, Newest (s.locals.map Prod.fst) → 0 < s.scanned →
      (k (s, none) = .ok r ↔ Finds f s.locals remotes s.rolledBack r)) :
    (rollBackNewer f o.ts locals scanned calls >>= fun s => compareWith f o s >>= k) = .ok r ↔
      Finds f locals (o :: remotes) calls r := by
  induction locals generalizing scanned calls with
  | nil => exact ⟨nofun, fun h => absurd h not_finds_nil⟩
  | cons v locals ih =>
    obtain ⟨hrest, htail⟩ := List.pairwise_cons.mp hl
    have hrest : ∀ x ∈ locals, x.1.ts < v.1.ts := fun x hx => hrest x.1 (List.mem_map_of_mem hx)
    rw [rollBackNewer]
    by_cases hnewer : o.ts < v.1.ts
    · have hne : v.1 ≠ o := fun he => absurd hnewer (he ▸ Nat.lt_irrefl _)
      rw [if_pos hnewer, finds_skip (hr.not_mem (Nat.le_of_lt hnewer) hne),
        ← ih (scanned + 1) htail, bind_assoc, rollBack_bind_eq_ok]
    · rw [if_neg hnewer, ok_bind]
      simp only [compareWith]
      by_cases hts : v.1.ts = o.ts
      · rw [if_pos hts]
        by_cases hh : v.1.h = o.h
        · have hmem : v.1 ∈ o :: remotes := by simp [Operation.ext hts hh]
          rw [if_pos hh, ok_bind, hsome, finds_hit hmem]
          exact ⟨fun h => (Except.ok.inj h).symm, fun h => congrArg Except.ok h.symm⟩
        · -- another operation of the same time, which the other oplog does not have
          have hne : v.1 ≠ o := fun he => hh (congrArg _ he)
          have hold : ∀ x ∈ locals, x.1 ≠ o := by
            rintro x hx rfl
            exact absurd hts (Nat.ne_of_gt (hrest x hx))
          rw [if_neg hh, bind_assoc, rollBack_bind_eq_ok,
            finds_skip (hr.not_mem (Nat.le_of_eq hts.symm) hne), finds_cons_remote hold]
          refine and_congr_right fun _ => ?_
          by_cases hnil : locals = []
          · rw [if_pos hnil, hnil]
            exact ⟨nofun, fun h => absurd h not_finds_nil⟩
          · rw [if_neg hnil]
            exact hnone ⟨locals, scanned + 1, calls ++ [v.1]⟩ htail (Nat.succ_pos _)
      · have hlt : v.1.ts < o.ts := Nat.lt_of_le_of_ne (Nat.not_lt.mp hnewer) hts
        have hold : ∀ x ∈ v :: locals, x.1 ≠ o := by
          rintro x hx rfl
          rcases List.mem_cons.mp hx with rfl | hx
          · exact hts rfl
          · exact hnewer (hrest x hx)
        rw [if_neg hts, if_pos hlt, finds_cons_remote hold]
        exact hnone ⟨v :: locals, scanned + 1, calls⟩ hl (Nat.succ_pos _)

theorem syncLoop_cons (hstart : start s o = .ok ()) (hr : Newest (o :: remotes))
    (hl : Newest (s.locals.map Prod.fst))
    (ih : ∀ s : Finder, Newest (s.locals.map Prod.fst) → 0 < s.scanned →
      (syncLoop f remotes s = .ok r ↔ Finds f s.locals remotes s.rolledBack r)) :
    syncLoop f (o :: remotes) s = .ok r ↔ Finds f s.locals (o :: remotes) s.rolledBack r := by
  rw [syncLoop, onRemoteOperation, hstart, ok_bind, bind_assoc]
  exact round_eq_ok_iff s.scanned hr hl (fun _ _ => rfl) ih

/-- From the second remote operation on. -/
theorem syncLoop_eq_ok_iff (hr : Newest remotes) (hl : Newest (s.locals.map Prod.fst))
    (hscanned : 0 < s.scanned) :
    syncLoop f remotes s = .ok r ↔ Finds f s.locals remotes s.rolledBack r := by
  induction remotes generalizing s with
  | nil => exact ⟨nofun, fun ⟨_, _, _, _, he, _⟩ => nomatch he⟩
  | cons o remotes ih =>
    have hstart : start s o = .ok () := if_neg (Nat.pos_iff_ne_zero.mp hscanned)
    exact syncLoop_cons hstart hr hl fun s hs => ih (List.pairwise_cons.mp hr).2 hs

/-- `rollbackOperation` fails on none of these operations with NoSuchKey. -/
def NoKeyError (f : Operation → Except Status Unit) (locals : List Value) : Prop :=
  ∀ v ∈ locals, ∀ status, f v.1 = .error status → status.code ≠ .noSuchKey

theorem rollBack_holds {v : Value} (h : NoKeyError f locals) (hv : v ∈ locals) :
    Holds (· = .invariant) (fun _ => True) (rollBack f v) := by
  unfold rollBack
  split
  next => trivial
  next status hstatus => simp [h v hv status hstatus]

theorem rollBackNewer_holds {time scanned : Nat} {calls : List Operation}
    (h : NoKeyError f locals) :
    Holds (· = .invariant) (fun s => s.locals ≠ [] ∧ NoKeyError f s.locals)
      (rollBackNewer f time locals scanned calls) := by
  induction locals generalizing scanned calls with
  | nil => simp [rollBackNewer, reachedBeginning]
  | cons v locals ih =>
    rw [rollBackNewer]
    split
    · exact (rollBack_holds h List.mem_cons_self).bind fun _ _ => ih (List.forall_mem_cons.mp h).2
    · exact ⟨List.cons_ne_nil _ _, h⟩

theorem compareWith_holds {s : Finder} {o : Operation} (hne : s.locals ≠ [])
    (h : NoKeyError f s.locals) :
    Holds (· = .invariant) (fun r => NoKeyError f r.1.locals) (compareWith f o s) := by
  obtain ⟨locals, scanned, calls⟩ := s
  cases locals with
  | nil => exact absurd rfl hne
  | cons v rest =>
    simp only [compareWith]
    have hroll := rollBack_holds h (List.mem_cons_self (a := v))
    split_ifs
    · exact h
    · exact hroll.bind fun _ _ => by simp [reachedBeginning]
    · exact hroll.bind fun _ _ => (List.forall_mem_cons.mp h).2
    · exact h
    · exact h

/-- A search that fails returns a status. -/
theorem syncLoop_holds {s : Finder} (h : NoKeyError f s.locals) :
    Holds (· = .invariant) (fun _ => True) (syncLoop f remotes s) := by
  induction remotes generalizing s with
  | nil => simp [syncLoop]
  | cons o remotes ih =>
    have hstart : Holds (· = .invariant) (fun _ => True) (start s o) := by
      simp only [start]
      repeat' split
      all_goals simp
    rw [syncLoop, onRemoteOperation]
    refine (hstart.bind fun _ _ => (rollBackNewer_holds h).bind fun s hs =>
      compareWith_holds hs.1 hs.2).bind ?_
    rintro ⟨s, point⟩ hs
    cases point with
    | some point => trivial
    | none => exact ih hs

/-- The search succeeds exactly when it may start, some local operation is in the remote oplog, and
the local operations newer than the newest such one can be rolled back. It returns that operation's
timestamp and record id, and has rolled back the newer ones in turn. Otherwise it returns a status,
unless `rollbackOperation` fails with NoSuchKey. -/
theorem syncRollBack_eq_ok_iff (hl : Newest (locals.map Prod.fst)) (hr : Newest remotes) :
    (syncRollBackLocalOperations f locals remotes = .ok r ↔
      WithinLimit locals remotes ∧ Finds f locals remotes [] r) ∧
    (NoKeyError f locals → syncRollBackLocalOperations f locals remotes ≠ .error .invariant) := by
  unfold syncRollBackLocalOperations
  cases remotes with
  | nil => exact ⟨⟨nofun, fun ⟨_, _, _, _, _, he, _⟩ => nomatch he⟩, nofun⟩
  | cons o remotes =>
    refine ⟨?_, fun h => Holds.not_error (syncLoop_holds h) rfl⟩
    cases locals with
    | nil => exact ⟨nofun, fun h => absurd h.2 not_finds_nil⟩
    | cons v locals =>
      have hwithin : WithinLimit (v :: locals) (o :: remotes) ↔
          ¬ 1800 < (v.1.secs : Int) - o.secs := by simp [WithinLimit]
      rw [hwithin]
      by_cases hlimit : 1800 < (v.1.secs : Int) - o.secs
      · have hstart : start ⟨v :: locals, 0, []⟩ o = .error _ := if_pos hlimit
        rw [if_neg (List.cons_ne_nil _ _), syncLoop, onRemoteOperation, hstart]
        exact ⟨nofun, fun h => absurd hlimit h.1⟩
      · have hstart : start ⟨v :: locals, 0, []⟩ o = .ok () := if_neg hlimit
        refine (syncLoop_cons hstart hr hl fun s hs => ?_).trans (and_iff_right hlimit).symm
        exact syncLoop_eq_ok_iff (List.pairwise_cons.mp hr).2 hs

theorem syncRollBack_one_newer :
    syncRollBackLocalOperations (fun _ => .ok ()) [(⟨3, 7⟩, 30), (⟨2, 5⟩, 20)] [⟨2, 5⟩] =
      .ok ((2, 20), [⟨3, 7⟩]) :=
  (syncRollBack_eq_ok_iff (by simp [Newest]) (by simp [Newest])).1.mpr
    ⟨by simp [WithinLimit, Operation.secs], [(⟨3, 7⟩, 30)], (⟨2, 5⟩, 20), [], by simp⟩

/-- Two oplogs share an operation, and the search refuses to go back to it. -/
theorem syncRollBack_refuses :
    syncRollBackLocalOperations (fun _ => .ok ())
      [(⟨1802 * 2 ^ 32, 7⟩, 30), (⟨2 ^ 32, 5⟩, 20)] [⟨2 ^ 32, 5⟩] =
        .error (.status ⟨.exceededTimeLimit,
          "rollback error: not willing to roll back more than 30 minutes of data"⟩) := by
  rfl

end Spec

end MongolDb.Repl.RollBack
