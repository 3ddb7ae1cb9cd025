import Mathlib.Data.Finset.Union
import MongolDb.Lib.CycleSearch
import MongolDb.Lock.HeadInvariant
import MongolDb.Lock.Manager

/-! The deadlock detector on a lock manager that does not change while it runs. -/
namespace MongolDb.Lock
open LockMode Transition Relation List

variable {s t : State} {requests : Nat → List ResourceId} {h : LockHead} {r q : LockRequest}
  {waits : Nat → Bool} {l : List LockRequest} {A B : Nat}

def LockHead.findRequest (h : LockHead) (lockerId : Nat) : Option LockRequest :=
  (h.grantedList ++ h.conflictList).find? fun r => r.id.locker = lockerId

/-- `Locker::getWaitingResource`; `requests` is each locker's map of requests, in its order. -/
def getWaitingResource (s : State) (requests : Nat → List ResourceId) (locker : Nat) :
    Option ResourceId :=
  (requests locker).find? fun resId =>
    ((s.heads resId).bind (·.findRequest locker)).any fun r => decide (r.status ≠ .granted)

/-- The requests before `request` on a queue, nearest first: the walk from `request->prev`. -/
def before (request : LockRequest) (l : List LockRequest) : List LockRequest :=
  (l.reverse.dropWhile fun it => decide (it.id ≠ request.id)).tail

/-- Whether `it`, met on the granted queue, is an owner that `request` has to wait for. -/
def ownsGranted (request it : LockRequest) (seen : Bool) : Bool :=
  if request.status = .waiting then
    decide (conflicts request.mode {it.mode}) || decide (conflicts request.mode {it.convertMode})
  else
    decide (conflicts request.convertMode {it.mode}) ||
      (seen && decide (conflicts request.convertMode {it.convertMode}))

/-- The loop over the granted queue from its back; `seen` once it has passed `request`. -/
def grantedOwners (waits : Nat → Bool) (request : LockRequest) :
    Bool → List LockRequest → List Nat
  | _, [] => []
  | seen, it :: rest =>
    if it.id = request.id then grantedOwners waits request true rest
    else if ownsGranted request it seen && waits it.id.locker then
      it.id.locker :: grantedOwners waits request seen rest
    else grantedOwners waits request seen rest

/-- The loop over the waiting requests that would be granted before `request`. -/
def waitingOwners (waits : Nat → Bool) (request : LockRequest) (l : List LockRequest) : List Nat :=
  if request.status = .waiting then
    ((before request l).filter fun it =>
      decide (conflicts request.mode {it.mode}) && waits it.id.locker).map (·.id.locker)
  else []

def owners (waits : Nat → Bool) (h : LockHead) (request : LockRequest) : List Nat :=
  grantedOwners waits request false h.grantedList.reverse ++
    waitingOwners waits request h.conflictList

structure DeadlockDetector where
  queue : List (Nat × ResourceId)
  graph : List (Nat × ResourceId × List Nat)
  foundCycle : Bool
  deriving DecidableEq

namespace DeadlockDetector
variable (s requests)

def new (initialLocker : Nat) : DeadlockDetector :=
  match getWaitingResource s requests initialLocker with
  | none => ⟨[], [], false⟩
  | some resId => ⟨[(initialLocker, resId)], [], false⟩

/-- The request of a node, unless it has been granted by now. -/
def blockedRequest (node : Nat × ResourceId) : Option (LockHead × LockRequest) :=
  (s.heads node.2).bind fun h =>
    (h.findRequest node.1).bind fun request =>
      if request.status = .waiting ∨ request.status = .converting then some (h, request) else none

def nodeOwners (h : LockHead) (request : LockRequest) : List Nat :=
  owners (fun l => (getWaitingResource s requests l).isSome) h request

def processNextNode (initialLocker : Nat)
    (d : DeadlockDetector) (node : Nat × ResourceId) : DeadlockDetector :=
  match blockedRequest s node with
  | none => d
  | some (h, request) =>
    if node.1 ∈ d.graph.map Prod.fst then
      { d with foundCycle := d.foundCycle || decide (node.1 = initialLocker) }
    else
      { d with
        graph := (node.1, node.2, nodeOwners s requests h request) :: d.graph
        queue := ((nodeOwners s requests h request).filterMap fun l =>
          (getWaitingResource s requests l).map (l, ·)).reverse ++ d.queue }

/-- `next`, without its result: whether the queue is empty. -/
def next (initialLocker : Nat) (d : DeadlockDetector) : DeadlockDetector :=
  match d.queue with
  | [] => d
  | front :: rest => processNextNode s requests initialLocker { d with queue := rest } front

/-- `check`: calls `next` until the queue is empty; `none` when the fuel runs out first. -/
def check (s : State) (requests : Nat → List ResourceId) (initialLocker : Nat) :
    Nat → DeadlockDetector → Option DeadlockDetector
  | 0, _ => none
  | fuel + 1, d =>
    if (next s requests initialLocker d).queue = [] then some (next s requests initialLocker d)
    else check s requests initialLocker fuel (next s requests initialLocker d)

def hasCycle (d : DeadlockDetector) : Bool := d.foundCycle

end DeadlockDetector

/-- The waits that the detector follows: `A` waits for `B`, which waits itself. A conversion waits for
held modes, and for the pending modes of conversions in front of it. -/
def DirectWait (s : State) (requests : Nat → List ResourceId) (A B : Nat) : Prop :=
  ∃ resId h r, getWaitingResource s requests A = some resId ∧ s.heads resId = some h ∧
    h.findRequest A = some r ∧ getWaitingResource s requests B ≠ none ∧
    ((r.status = .waiting ∧
        ((∃ q ∈ h.grantedList, q.id.locker = B ∧ q.id ≠ r.id ∧
            (Conflict r.mode q.mode ∨ Conflict r.mode q.convertMode)) ∨
          ∃ q ∈ before r h.conflictList, q.id.locker = B ∧ Conflict r.mode q.mode)) ∨
      (r.status = .converting ∧
        ((∃ q ∈ h.grantedList, q.id.locker = B ∧ q.id ≠ r.id ∧ Conflict r.convertMode q.mode) ∨
          ∃ q ∈ before r h.grantedList, q.id.locker = B ∧ q.id ≠ r.id ∧
            Conflict r.convertMode q.convertMode)))

theorem conflicts_singleton {m m' : LockMode} : conflicts m {m'} ↔ Conflict m m' := by
  simp [conflicts_iff]

theorem mem_waitingOwners (hs : r.status = .waiting) :
    B ∈ waitingOwners waits r l ↔
      waits B = true ∧ ∃ q ∈ before r l, q.id.locker = B ∧ Conflict r.mode q.mode := by
  simp only [waitingOwners, hs, if_true, mem_map, mem_filter, Bool.and_eq_true,
    decide_eq_true_eq, conflicts_singleton]
  constructor
  · rintro ⟨q, ⟨hq, hc, hw⟩, rfl⟩
    exact ⟨hw, q, hq, rfl, hc⟩
  · rintro ⟨hw, q, hq, rfl, hc⟩
    exact ⟨q, ⟨hq, hc, hw⟩, rfl⟩

theorem mem_grantedOwners_cons {it : LockRequest} {seen : Bool} (hid : it.id ≠ r.id) :
    B ∈ grantedOwners waits r seen (it :: l) ↔
      (waits B = true ∧ it.id.locker = B ∧ ownsGranted r it seen = true) ∨
        B ∈ grantedOwners waits r seen l := by
  rw [grantedOwners, if_neg hid]
  split
  · next hhit =>
    rw [Bool.and_eq_true] at hhit
    rw [mem_cons]
    refine or_congr_left ⟨?_, fun h => h.2.1.symm⟩
    rintro rfl
    exact ⟨hhit.2, rfl, hhit.1⟩
  · next hhit =>
    rw [Bool.and_eq_true, not_and] at hhit
    refine (or_iff_right ?_).symm
    rintro ⟨hw, rfl, ho⟩
    exact hhit ho hw

/-- A waiting request looks at both modes of everything on the granted queue. -/
theorem mem_grantedOwners_waiting (hs : r.status = .waiting) (seen : Bool) :
    B ∈ grantedOwners waits r seen l ↔ waits B = true ∧ ∃ q ∈ l, q.id.locker = B ∧ q.id ≠ r.id ∧
      (Conflict r.mode q.mode ∨ Conflict r.mode q.convertMode) := by
  induction l generalizing seen with
  | nil => simp [grantedOwners]
  | cons it rest ih =>
    rw [exists_mem_cons_iff]
    by_cases hid : it.id = r.id
    · rw [grantedOwners, if_pos hid, ih]
      simp [hid]
    · rw [mem_grantedOwners_cons hid, ih, and_or_left]
      simp [ownsGranted, hs, conflicts_singleton, hid]

/-- A converting request looks at the held modes of the others, and at the pending modes of those
the walk meets after it. -/
theorem mem_grantedOwners_converting (hs : r.status = .converting) (seen : Bool) :
    B ∈ grantedOwners waits r seen l ↔ waits B = true ∧
      ((∃ q ∈ l, q.id.locker = B ∧ q.id ≠ r.id ∧ Conflict r.convertMode q.mode) ∨
        ∃ q ∈ (if seen then l else (l.dropWhile fun it => decide (it.id ≠ r.id)).tail),
          q.id.locker = B ∧ q.id ≠ r.id ∧ Conflict r.convertMode q.convertMode) := by
  induction l generalizing seen with
  | nil => cases seen <;> simp [grantedOwners]
  | cons it rest ih =>
    rw [exists_mem_cons_iff]
    by_cases hid : it.id = r.id
    · rw [grantedOwners, if_pos hid, ih]
      cases seen <;> simp [hid]
    · rw [mem_grantedOwners_cons hid, ih, ← and_or_left]
      cases seen <;> simp [ownsGranted, hs, conflicts_singleton, hid, and_or_left, or_assoc,
        or_left_comm]

namespace DeadlockDetector

/-- The nodes the detector queues when it processes a locker, as it queues them. -/
def successors (s : State) (requests : Nat → List ResourceId) (A : Nat) : Option (List Nat) :=
  (getWaitingResource s requests A).bind fun resId =>
    (blockedRequest s (A, resId)).map fun (h, r) => (nodeOwners s requests h r).reverse

theorem blockedRequest_eq_some {resId : ResourceId} :
    blockedRequest s (A, resId) = some (h, r) ↔ s.heads resId = some h ∧ h.findRequest A = some r ∧
      (r.status = .waiting ∨ r.status = .converting) := by
  simp only [blockedRequest, Option.bind_eq_some_iff]
  constructor
  · rintro ⟨h', hh, r', hr, he⟩
    split at he
    · next hs =>
      cases he
      exact ⟨hh, hr, hs⟩
    · cases he
  · rintro ⟨hh, hr, hs⟩
    exact ⟨h, hh, r, hr, if_pos hs⟩

theorem mem_nodeOwners {resId : ResourceId} (hw : getWaitingResource s requests A = some resId)
    (hh : s.heads resId = some h) (hr : h.findRequest A = some r)
    (hs : r.status = .waiting ∨ r.status = .converting) :
    B ∈ nodeOwners s requests h r ↔ DirectWait s requests A B := by
  simp only [DirectWait, hw, Option.some.injEq, exists_and_left, exists_eq_left', hh, hr]
  rw [nodeOwners, owners, mem_append, ← Option.isSome_iff_ne_none]
  rcases hs with hs | hs
  · rw [mem_grantedOwners_waiting hs, mem_waitingOwners hs, ← and_or_left]
    simp [hs]
  · rw [mem_grantedOwners_converting hs]
    simp [waitingOwners, hs, before]

theorem edge_iff : CycleSearch.Edge (successors s requests) A B ↔ DirectWait s requests A B := by
  simp only [CycleSearch.Edge, successors, Option.bind_eq_some_iff, Option.map_eq_some_iff]
  constructor
  · rintro ⟨next, ⟨resId, hw, ⟨h, r⟩, hb, rfl⟩, hB⟩
    obtain ⟨hh, hr, hs⟩ := blockedRequest_eq_some.mp hb
    exact (mem_nodeOwners hw hh hr hs).mp (mem_reverse.mp hB)
  · intro hwaits
    obtain ⟨resId, h, r, hw, hh, hr, -, hB⟩ := id hwaits
    have hs : r.status = .waiting ∨ r.status = .converting := hB.imp And.left And.left
    refine ⟨_, ⟨resId, hw, (h, r), blockedRequest_eq_some.mpr ⟨hh, hr, hs⟩, rfl⟩, ?_⟩
    exact mem_reverse.mpr ((mem_nodeOwners hw hh hr hs).mpr hwaits)

/-- The detector carries out a search over the lockers. -/
structure Refines (s : State) (requests : Nat → List ResourceId) (d : DeadlockDetector)
    (k : CycleSearch.Search Nat) : Prop where
  queue : d.queue.map Prod.fst = k.queue
  waiting : ∀ node ∈ d.queue, getWaitingResource s requests node.1 = some node.2
  graph : d.graph.map Prod.fst = k.seen
  found : d.foundCycle = k.found

variable {d : DeadlockDetector} {k k' : CycleSearch.Search Nat} {L : Nat}

theorem map_fst_filterMap {W : Nat → Option ResourceId} {ls : List Nat}
    (hW : ∀ l ∈ ls, W l ≠ none) :
    (ls.filterMap fun l => (W l).map (l, ·)).map Prod.fst = ls := by
  induction ls with
  | nil => rfl
  | cons l ls ih =>
    obtain ⟨resId, hl⟩ := Option.ne_none_iff_exists'.mp (hW l (by simp))
    rw [filterMap_cons_some (by rw [hl, Option.map_some]), map_cons,
      ih (forall_mem_cons.mp hW).2]

theorem Refines.next (hr : Refines s requests d k) :
    Refines s requests (next s requests L d) (CycleSearch.visit (successors s requests) L k) := by
  obtain ⟨hqueue, hwait, hgraph, hfound⟩ := hr
  cases hq : d.queue with
  | nil =>
    have hk : k.queue = [] := by rw [← hqueue, hq, map_nil]
    simp only [DeadlockDetector.next, CycleSearch.visit, hq, hk]
    exact ⟨hqueue, hwait, hgraph, hfound⟩
  | cons front rest =>
    have hk : k.queue = front.1 :: rest.map Prod.fst := by rw [← hqueue, hq, map_cons]
    have hrest : ∀ node ∈ rest, getWaitingResource s requests node.1 = some node.2 :=
      fun node hn => hwait node (by simp [hq, hn])
    have hfront := hwait front (by simp [hq])
    have hsucc : successors s requests front.1 = (blockedRequest s front).map fun (h, r) =>
        (nodeOwners s requests h r).reverse := by
      rw [successors, hfront]
      rfl
    simp only [DeadlockDetector.next, CycleSearch.visit, hq, hk, processNextNode, hsucc]
    cases hb : blockedRequest s front with
    | none => exact ⟨rfl, hrest, hgraph, hfound⟩
    | some hr =>
      obtain ⟨h, r⟩ := hr
      simp only [Option.map_some, ← hgraph]
      split
      · exact ⟨rfl, hrest, rfl, by rw [hfound]⟩
      · obtain ⟨hh, hr, hs⟩ := blockedRequest_eq_some.mp hb
        have hwaits : ∀ B ∈ nodeOwners s requests h r, getWaitingResource s requests B ≠ none := by
          intro B hB
          obtain ⟨-, -, -, -, -, -, hwB, -⟩ := (mem_nodeOwners hfront hh hr hs).mp hB
          exact hwB
        have hmap := map_fst_filterMap hwaits
        refine ⟨by rw [map_append, map_reverse, hmap], fun node hn => ?_, rfl, hfound⟩
        rcases mem_append.mp hn with hn | hn
        · obtain ⟨l, -, hl⟩ := mem_filterMap.mp (mem_reverse.mp hn)
          obtain ⟨resId, hW, rfl⟩ := Option.map_eq_some_iff.mp hl
          exact hW
        · exact hrest node hn

theorem Refines.check {fuel : Nat} (hr : Refines s requests d k)
    (hk : CycleSearch.search (successors s requests) L fuel k = some k') :
    ∃ d', check s requests L fuel d = some d' ∧ Refines s requests d' k' := by
  induction fuel generalizing d k with
  | zero => cases hk
  | succ fuel ih =>
    have hn := hr.next (L := L)
    have hempty : (DeadlockDetector.next s requests L d).queue = [] ↔
        (CycleSearch.visit (successors s requests) L k).queue = [] := by
      rw [← hn.queue, map_eq_nil_iff]
    unfold CycleSearch.search at hk
    unfold DeadlockDetector.check
    split at hk
    · next hnil =>
      cases hk
      exact ⟨_, if_pos (hempty.mpr hnil), hn⟩
    · next hnil =>
      obtain ⟨d', hd', hr'⟩ := ih hn hk
      exact ⟨d', by rw [if_neg fun he => hnil (hempty.mp he)]; exact hd', hr'⟩

theorem check_mono {n m : Nat} {d' : DeadlockDetector} (hd : check s requests L n d = some d')
    (hnm : n ≤ m) : check s requests L m d = some d' := by
  induction n generalizing d m with
  | zero => cases hd
  | succ n ih =>
    obtain ⟨m, rfl⟩ : ∃ j, m = j + 1 := ⟨m - 1, by omega⟩
    unfold DeadlockDetector.check at hd ⊢
    split at hd
    · next hnil => rwa [if_pos hnil]
    · next hnil =>
      rw [if_neg hnil]
      exact ih hd (by omega)

end DeadlockDetector

namespace State

/-- What is reached, if anything, differs from `s` in the lock head of `resId` at most. -/
def ChangesOnly (s : State) (resId : ResourceId) (o : Option State) : Prop :=
  ∀ t, o = some t → ∀ R, R ≠ resId → t.heads R = s.heads R

namespace ChangesOnly
variable {α : Type} {resId : ResourceId} {o o' : Option State} {c : Prop} [Decidable c]

theorem none : ChangesOnly s resId none := by
  rintro t ⟨⟩

theorem same (ht : t.heads = s.heads) : ChangesOnly s resId (some t) := by
  rintro _ ⟨⟩ R -
  rw [ht]

theorem update {h : Option LockHead} (ht : t.heads = Function.update s.heads resId h) :
    ChangesOnly s resId (some t) := by
  rintro _ ⟨⟩ R hR
  rw [ht, Function.update_of_ne hR]

theorem modifyRequest {place : Place} {id : RequestId} {f : LockRequest → LockRequest} :
    ChangesOnly s resId (some (s.modifyRequest resId place id f)) := by
  cases place with
  | head => exact update rfl
  | partition p => exact same rfl

theorem ite (h : ChangesOnly s resId o) (h' : ChangesOnly s resId o') :
    ChangesOnly s resId (if c then o else o') := by
  split
  · exact h
  · exact h'

theorem bind {o : Option α} {f : α → Option State} (h : ∀ a, ChangesOnly s resId (f a)) :
    ChangesOnly s resId (o.bind f) := by
  intro t ht
  obtain ⟨a, -, ht⟩ := Option.bind_eq_some_iff.mp ht
  exact h a t ht

theorem map {o : Option α} {f : α → State} (h : ∀ a, ChangesOnly s resId (some (f a))) :
    ChangesOnly s resId (o.map f) := by
  rw [Option.map_eq_bind]
  exact bind h

end ChangesOnly

/-- A step changes at most one lock head. -/
theorem changesOnly_step (s : State) (a : Action) : ∃ resId, ChangesOnly s resId (s.step a) := by
  cases a with
  | lockFast resId locker flags mode => exact ⟨resId, .ite (.same rfl) .none⟩
  | lockHead resId locker flags mode =>
    refine ⟨resId, .ite .none ?_⟩
    split
    · exact .none
    · exact .ite (.update rfl) (.update rfl)
  | lockDone b =>
    simp only [State.step, State.lockDone]
    split
    · exact ⟨_, .bind fun h => .ite .none (.map fun out => .update rfl)⟩
    · exact ⟨0, .none⟩
  | migrate b =>
    simp only [State.step, State.migrate]
    cases s.inside b with
    | none => exact ⟨0, .none⟩
    | some sec =>
      rw [Option.bind_some]
      refine ⟨sec.resId, .bind fun h => .bind fun p => .ite ?_ .none⟩
      split
      · exact .update rfl
      · exact .map fun h => .update rfl
  | convertBegin resId place id flags mode =>
    exact ⟨resId, .bind fun r =>
      .ite .none (.ite .modifyRequest (.ite .modifyRequest .none))⟩
  | convertHead resId place id =>
    refine ⟨resId, .bind fun r => ?_⟩
    split
    · exact .ite .none (.same rfl)
    · exact .none
  | convertDone b =>
    simp only [State.step, State.convertDone]
    split
    · next resId id _ =>
      refine ⟨resId, .bind fun h => .ite .none (.bind fun r => ?_)⟩
      split
      · exact .map fun out => .update rfl
      · exact .none
    · exact ⟨0, .none⟩
  | unlockBegin resId place id =>
    exact ⟨resId, .bind fun r => .ite .none (.ite .modifyRequest
      (.ite (.ite .modifyRequest .none) (.ite .modifyRequest .none)))⟩
  | unlockPartition resId place id =>
    refine ⟨resId, .bind fun r => .ite .none ?_⟩
    split
    · exact .same rfl
    · exact .modifyRequest
  | unlockHead resId id | downgrade resId id mode =>
    exact ⟨resId, .ite .none (.bind fun h => .bind fun r => .ite .none (.map fun h => .update rfl))⟩
  | cleanupHead resId => exact ⟨resId, .ite .none (.same rfl)⟩
  | cleanupDone b =>
    simp only [State.step, State.cleanupDone]
    split
    · exact ⟨_, .bind fun h => .ite .none (.ite (.same rfl) (.ite (.update rfl) .none))⟩
    · exact ⟨0, .none⟩

/-- Only finitely many resources ever have a lock head. -/
theorem heads_finite (h : Reach State.step (fun _ _ => True) .initial s) :
    ∃ resources : Finset ResourceId, ∀ R ∉ resources, s.heads R = none := by
  induction h with
  | init => exact ⟨∅, fun _ _ => rfl⟩
  | step _ _ hst ih =>
    obtain ⟨resources, hres⟩ := ih
    obtain ⟨resId, hother⟩ := changesOnly_step _ _
    refine ⟨insert resId resources, fun R hR => ?_⟩
    rw [Finset.mem_insert, not_or] at hR
    rw [hother _ hst R hR.1, hres R hR.2]

end State

def lockersOn (s : State) (resId : ResourceId) : List Nat :=
  match s.heads resId with
  | none => []
  | some h => (h.grantedList ++ h.conflictList).map (·.id.locker)

theorem mem_of_mem_before (hq : q ∈ before r l) : q ∈ l :=
  mem_reverse.mp ((dropWhile_sublist _).subset (mem_of_mem_tail hq))

theorem DirectWait.mem_lockersOn (hw : DirectWait s requests A B) :
    ∃ resId, s.heads resId ≠ none ∧ B ∈ lockersOn s resId := by
  obtain ⟨resId, h, r, -, hh, -, -, hB⟩ := hw
  refine ⟨resId, by simp [hh], ?_⟩
  have hmem : ∃ q ∈ h.grantedList ++ h.conflictList, q.id.locker = B := by
    rcases hB with ⟨-, ⟨q, hq, hB, -⟩ | ⟨q, hq, hB, -⟩⟩ | ⟨-, ⟨q, hq, hB, -⟩ | ⟨q, hq, hB, -⟩⟩
    · exact ⟨q, mem_append_left _ hq, hB⟩
    · exact ⟨q, mem_append_right _ (mem_of_mem_before hq), hB⟩
    · exact ⟨q, mem_append_left _ hq, hB⟩
    · exact ⟨q, mem_append_left _ (mem_of_mem_before hq), hB⟩
  rw [lockersOn, hh]
  exact mem_map.mpr hmem

/-- The detector's loop ends in every reachable state, and it reports a cycle exactly when the
locker it started from is on a cycle of the waits it follows. -/
theorem check_found_iff (h : Reach State.step (fun _ _ => True) .initial s)
    (requests : Nat → List ResourceId) (L : Nat) :
    ∃ n d, (∀ fuel, n ≤ fuel → DeadlockDetector.check s requests L fuel
        (.new s requests L) = some d) ∧
      (d.hasCycle = true ↔ TransGen (DirectWait s requests) L L) := by
  have hedges : CycleSearch.Edge (DeadlockDetector.successors s requests) = DirectWait s requests := by
    funext A B
    exact propext DeadlockDetector.edge_iff
  unfold DeadlockDetector.new
  cases hL : getWaitingResource s requests L with
  | none =>
    -- a locker that waits for nothing has no node
    refine ⟨1, ⟨[], [], false⟩, fun fuel hf => ?_, ?_⟩
    · obtain ⟨m, rfl⟩ := Nat.exists_eq_add_of_le' hf
      rfl
    · refine ⟨by simp [DeadlockDetector.hasCycle], fun hc => ?_⟩
      obtain ⟨B, ⟨resId, -, -, hw, -⟩, -⟩ := TransGen.head'_iff.mp hc
      rw [hL] at hw
      cases hw
  | some resId =>
    obtain ⟨resources, hres⟩ := State.heads_finite h
    obtain ⟨nodes, hroot, hclosed⟩ : ∃ nodes : Finset Nat, L ∈ nodes ∧ ∀ A ∈ nodes, ∀ B,
        CycleSearch.Edge (DeadlockDetector.successors s requests) A B → B ∈ nodes := by
      refine ⟨insert L (resources.biUnion fun R => (lockersOn s R).toFinset),
        Finset.mem_insert_self _ _, fun A _ B he => ?_⟩
      rw [hedges] at he
      obtain ⟨R, hR, hB⟩ := he.mem_lockersOn
      refine Finset.mem_insert_of_mem (Finset.mem_biUnion.mpr ⟨R, ?_, mem_toFinset.mpr hB⟩)
      by_contra hnot
      exact hR (hres R hnot)
    obtain ⟨n, k, hk, hfound⟩ := CycleSearch.search_found_iff hroot hclosed
    have hstart : DeadlockDetector.Refines s requests ⟨[(L, resId)], [], false⟩
        (CycleSearch.start L) := ⟨rfl, by simp [hL], rfl, rfl⟩
    obtain ⟨d, hcheck, hd⟩ := hstart.check (hk n (Nat.le_refl n))
    refine ⟨n, d, fun fuel hf => DeadlockDetector.check_mono hcheck hf, ?_⟩
    rw [DeadlockDetector.hasCycle, hd.found, hfound, hedges]

/-! Deadlocks by the grant rules of `_onLockModeChanged`. -/

/-- The mode a blocked request asks for. -/
def LockRequest.wanted (r : LockRequest) : LockMode :=
  if r.status = .waiting then r.mode else r.convertMode

/-- The blocked request of a locker, and the head it is on. -/
def blockedOn (s : State) (requests : Nat → List ResourceId) (A : Nat) :
    Option (LockHead × LockRequest) :=
  (getWaitingResource s requests A).bind fun resId => DeadlockDetector.blockedRequest s (A, resId)

/-- A request of `B` keeps the blocked request of `A` from being granted, by the mode it holds or by
the one it is to be converted to. -/
def keptBlockedBy (s : State) (requests : Nat → List ResourceId) (A B : Nat) : Bool :=
  (blockedOn s requests A).any fun (h, r) => h.grantedList.any fun q =>
    decide (q.id.locker = B ∧ q.id ≠ r.id ∧ q.Blocks r.wanted)

/-- What the two loops of `_onLockModeChanged` test before they grant a blocked request. -/
theorem exists_keptBlockedBy_iff (hb : blockedOn s requests A = some (h, r)) (hok : h.Ok) :
    (∃ B, keptBlockedBy s requests A B = true) ↔ conflicts r.wanted
      (if r.status = .waiting then h.granted.modes
        else h.granted.without fun m => r.currentRequestHolds m + r.currentRequestWaits m) := by
  have hkept : (∃ B, keptBlockedBy s requests A B = true) ↔
      ∃ q ∈ h.grantedList, q.id ≠ r.id ∧ q.Blocks r.wanted := by
    simp [keptBlockedBy, hb]
  obtain ⟨resId, -, hblocked⟩ := Option.bind_eq_some_iff.mp hb
  obtain ⟨-, hfind, hs⟩ := DeadlockDetector.blockedRequest_eq_some.mp hblocked
  rw [hkept]
  rcases mem_append.mp (mem_of_find?_eq_some hfind) with hr | hr
  · have hconv : r.status = .converting := by
      rcases (hok.granted.held r hr).status with hst | hst
      · simp [hst.1] at hs
      · exact hst.1
    rw [if_neg (by simp [hconv])]
    exact (hok.granted.conflicts_without hr fun m _ => (weight_converting hconv m).symm).symm
  · rw [if_pos (hok.conflict.waiting r hr).1, hok.granted.conflicts_modes]
    constructor
    · rintro ⟨q, hq, -, hblocks⟩
      exact ⟨q, hq, hblocks⟩
    · rintro ⟨q, hq, hblocks⟩
      exact ⟨q, hq, hok.apart q hq r hr, hblocks⟩

/-- The locker is one of a set of lockers each of which another member keeps blocked. -/
def Deadlocked (s : State) (requests : Nat → List ResourceId) (L : Nat) : Prop :=
  ∃ S : Set Nat, L ∈ S ∧ ∀ A ∈ S, ∃ B ∈ S, B ≠ A ∧ keptBlockedBy s requests A B = true

/-- The wait-for graph: `A` waits for whoever holds or is to be given a mode in its way on the granted
queue, and for those before it on the conflict queue. -/
def WaitsFor (s : State) (requests : Nat → List ResourceId) (A B : Nat) : Prop :=
  ∃ h r, blockedOn s requests A = some (h, r) ∧
    ((∃ q ∈ h.grantedList, q.id.locker = B ∧ q.id ≠ r.id ∧
        (Conflict r.wanted q.mode ∨ Conflict r.wanted q.convertMode)) ∨
      r.status = .waiting ∧ ∃ q ∈ before r h.conflictList, q.id.locker = B ∧ Conflict r.mode q.mode)

theorem waitsFor_of_directWait (hw : DirectWait s requests A B) : WaitsFor s requests A B := by
  obtain ⟨resId, h, r, hw, hh, hr, -, hB⟩ := hw
  have hs : r.status = .waiting ∨ r.status = .converting := hB.imp And.left And.left
  have hblocked : blockedOn s requests A = some (h, r) := by
    rw [blockedOn, hw]
    exact DeadlockDetector.blockedRequest_eq_some.mpr ⟨hh, hr, hs⟩
  refine ⟨h, r, hblocked, ?_⟩
  rcases hB with ⟨hst, hB | hB⟩ | ⟨hst, ⟨q, hq, hB, hne, hc⟩ | ⟨q, hq, hB, hne, hc⟩⟩
  · rw [LockRequest.wanted, if_pos hst]
    exact .inl hB
  · exact .inr ⟨hst, hB⟩
  all_goals
    have hwanted : r.wanted = r.convertMode := if_neg (by simp [hst])
    rw [hwanted]
  · exact .inl ⟨q, hq, hB, hne, .inl hc⟩
  · exact .inl ⟨q, mem_of_mem_before hq, hB, hne, .inr hc⟩

theorem waitsFor_of_keptBlockedBy (hk : keptBlockedBy s requests A B = true) :
    WaitsFor s requests A B := by
  rw [keptBlockedBy, Option.any_eq_true] at hk
  obtain ⟨⟨h, r⟩, hb, hq⟩ := hk
  simp only [any_eq_true, decide_eq_true_eq] at hq
  obtain ⟨q, hq, hB, hne, hblocks⟩ := hq
  exact ⟨h, r, hb, .inl ⟨q, hq, hB, hne, hblocks.imp_right And.right⟩⟩

/-- Lockers 0 and 1 hold IS. While locker 2 holds S, 0 is to be converted to IX and then 1 to S. -/
def pendingConversions : List Action :=
  [.lockHead 3 2 ⟨false, false⟩ modeS, .lockDone 3, .lockHead 3 0 ⟨false, false⟩ modeIS, .lockDone 3,
    .lockHead 3 1 ⟨false, false⟩ modeIS, .lockDone 3,
    .convertBegin 3 .head ⟨0, 1⟩ ⟨false, false⟩ modeIX, .convertHead 3 .head ⟨0, 1⟩, .convertDone 3,
    .convertBegin 3 .head ⟨1, 2⟩ ⟨false, false⟩ modeS, .convertHead 3 .head ⟨1, 2⟩, .convertDone 3,
    .unlockBegin 3 .head ⟨2, 0⟩, .unlockHead 3 ⟨2, 0⟩]

def pendingRequests : Nat → List ResourceId
  | 0 | 1 => [3]
  | _ => []

end MongolDb.Lock
