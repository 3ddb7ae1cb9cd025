import MongolDb.Lib.ByteOrder
import MongolDb.Lib.Reach

/-! The order in which the writers of a secondary fill a capped collection. -/
namespace MongolDb.Repl
open Transition ByteOrder List Function

inductive OpType where
  | i | u | d | c | n
deriving DecidableEq

def isCrudOpType : OpType → Bool
  | .i | .u | .d => true
  | .c | .n => false

structure OplogEntry (D : Type) where
  ns : Bytes
  op : OpType
  o : D
  o2 : D

/-- The hash of a namespace, and what the `_id` of a document makes of it. -/
structure Hasher (D : Type) where
  ns : Bytes → UInt32
  id : D → UInt32 → UInt32

/-- What the writers have to apply and have applied, and the entries of all batches. -/
structure SyncTail (D : Type) (n : Nat) where
  writerVectors : Fin n → List (OplogEntry D)
  applied : List (OplogEntry D)
  oplog : List (OplogEntry D)

inductive SyncTail.Action (D : Type) (n : Nat) where
  | multiApply (ops : List (OplogEntry D))
  | syncApply (i : Fin n)

variable {D : Type} {n : Nat}

def Hasher.writer [NeZero n] (hasher : Hasher D) (docLocking : Bool) (op : OplogEntry D) : Fin n :=
  let hash := hasher.ns op.ns
  let id := if op.op = .u then op.o2 else op.o
  .ofNat n (if docLocking && isCrudOpType op.op then hasher.id id hash else hash).toNat

def fillWriterVectors (writer : OplogEntry D → Fin n) (ops : List (OplogEntry D)) :
    Fin n → List (OplogEntry D) :=
  ops.foldl (fun vectors op => update vectors (writer op) (vectors (writer op) ++ [op])) fun _ => []

/-- A batch starts when the writers have joined; a writer applies its entries one by one. -/
def SyncTail.step (writer : OplogEntry D → Fin n) :
    Action D n → SyncTail D n → Option (SyncTail D n)
  | .multiApply ops, s =>
    if ∀ i, s.writerVectors i = [] then
      some ⟨fillWriterVectors writer ops, s.applied, s.oplog ++ ops⟩
    else none
  | .syncApply i, s =>
    match s.writerVectors i with
    | [] => none
    | op :: ops => some ⟨update s.writerVectors i ops, s.applied ++ [op], s.oplog⟩

def insertsInto (ns : Bytes) (op : OplogEntry D) : Bool := op.op = .i ∧ op.ns = ns

variable {writer : OplogEntry D → Fin n} {ops : List (OplogEntry D)} {p : OplogEntry D → Bool}
  {s t : SyncTail D n}

theorem fillWriterVectors_eq (i : Fin n) :
    fillWriterVectors writer ops i = ops.filter (writer · = i) := by
  induction ops using reverseRecOn with
  | nil => rfl
  | append_singleton ops op ih =>
    rw [fillWriterVectors, foldl_concat, filter_append, ← ih]
    by_cases hi : writer op = i
    · subst hi
      simp [fillWriterVectors]
    · simp [fillWriterVectors, hi, update_of_ne (Ne.symm hi)]

/-- One writer has all that is left of some entries, in the order of the oplog. -/
def InOrder (p : OplogEntry D → Bool) (s : SyncTail D n) : Prop :=
  ∃ w, (∀ i ≠ w, (s.writerVectors i).filter p = []) ∧
    s.applied.filter p ++ (s.writerVectors w).filter p = s.oplog.filter p

theorem InOrder.syncApply {i : Fin n} (h : InOrder p s)
    (hst : SyncTail.step writer (.syncApply i) s = some t) : InOrder p t := by
  obtain ⟨w, hother, horder⟩ := h
  rw [SyncTail.step] at hst
  split at hst
  · cases hst
  next op ops hi =>
    cases hst
    by_cases hw : i = w
    · subst hw
      refine ⟨i, fun j hj => ?_, ?_⟩
      · simpa [hj] using hother j hj
      · simpa [hi, ← filter_append] using horder
    · have hnone := hother i hw
      rw [hi, filter_cons] at hnone
      split at hnone
      · cases hnone
      next hop =>
        refine ⟨w, fun j hj => ?_, by simpa [hop, update_of_ne (Ne.symm hw)] using horder⟩
        by_cases hji : j = i
        · subst hji
          simpa using hnone
        · simpa [hji] using hother j hj

theorem InOrder.multiApply {w : Fin n} (h : InOrder p s)
    (hw : ∀ op ∈ ops, p op = true → writer op = w)
    (hst : SyncTail.step writer (.multiApply ops) s = some t) : InOrder p t := by
  obtain ⟨v, -, horder⟩ := h
  rw [SyncTail.step] at hst
  split at hst
  next hidle =>
    cases hst
    rw [hidle, filter_nil, append_nil] at horder
    refine ⟨w, fun i hi => ?_, ?_⟩
    · simp only [fillWriterVectors_eq, filter_filter, filter_eq_nil_iff]
      intro op hop
      by_cases hp : p op = true <;> simp [hp, hw op hop, Ne.symm hi]
    · simp only [filter_append, ← horder, fillWriterVectors_eq, filter_filter]
      refine congrArg _ (filter_congr fun op hop => ?_)
      by_cases hp : p op = true <;> simp [hp, hw op hop]
  · cases hst

/-- All that a batch inserts into a collection goes to one writer. -/
def OneWriter (writer : OplogEntry D → Fin n) (ns : Bytes) : SyncTail.Action D n → Prop
  | .multiApply ops => ∃ w, ∀ op ∈ ops, insertsInto ns op = true → writer op = w
  | .syncApply _ => True

/-- Between batches the inserts into a collection have been applied in the order of the oplog, if
the engine does not lock documents or none of the batches spreads them over writers. -/
theorem inserts_in_oplog_order [NeZero n] {hasher : Hasher D} {docLocking : Bool} {ns : Bytes}
    (h : Reach (SyncTail.step (hasher.writer docLocking))
      (fun _ a => docLocking = true → OneWriter (hasher.writer true) ns a) ⟨fun _ => [], [], []⟩ s)
    (hidle : ∀ i, s.writerVectors i = []) :
    s.applied.filter (insertsInto ns) = s.oplog.filter (insertsInto ns) := by
  have horder : InOrder (insertsInto ns) s := by
    refine h.invariant ⟨0, fun _ _ => rfl, rfl⟩ ?_
    intro s t a hs ha hst
    cases a with
    | syncApply i => exact hs.syncApply hst
    | multiApply ops =>
      obtain ⟨w, hw⟩ : OneWriter (hasher.writer docLocking) ns (.multiApply ops) := by
        cases docLocking with
        | true => exact ha rfl
        | false =>
          refine ⟨.ofNat n (hasher.ns ns).toNat, fun op _ hop => ?_⟩
          rw [← (of_decide_eq_true hop).2]
          rfl
      exact hs.multiApply hw hst
  obtain ⟨w, -, heq⟩ := horder
  rwa [hidle, filter_nil, append_nil] at heq

/-- Two inserts as one batch, and the writers in the order in which they come to apply them. -/
def applyTwo (hasher : Hasher UInt32) (order : List (Fin 2)) : Option (SyncTail UInt32 2) :=
  run (SyncTail.step (hasher.writer true))
    (.multiApply [⟨[], .i, 0, 0⟩, ⟨[], .i, 1, 1⟩] :: order.map .syncApply) ⟨fun _ => [], [], []⟩

theorem inserts_in_oplog_order_two : ∃ s, applyTwo ⟨fun _ => 0, fun _ _ => 0⟩ [0, 0] = some s ∧
    s.applied.filter (insertsInto []) = s.oplog.filter (insertsInto []) := by
  obtain ⟨s, hs, hidle⟩ : ∃ s, applyTwo ⟨fun _ => 0, fun _ _ => 0⟩ [0, 0] = some s ∧
    ∀ i, s.writerVectors i = [] := ⟨_, rfl, by decide⟩
  refine ⟨s, hs, inserts_in_oplog_order (reach_of_run hs ?_) hidle⟩
  intro _ a _ _
  cases a with
  | multiApply ops => exact ⟨0, fun op _ _ => by simp [Hasher.writer]⟩
  | syncApply i => trivial

/-- If the hashes of the two documents differ, the second insert can be applied first. -/
theorem inserts_reordered : (applyTwo ⟨fun _ => 0, fun id _ => id⟩ [1, 0]).map
    (fun s => (s.applied.map OplogEntry.o, s.oplog.map OplogEntry.o,
      s.writerVectors 0 ++ s.writerVectors 1)) = some ([1, 0], [0, 1], []) := rfl

end MongolDb.Repl
