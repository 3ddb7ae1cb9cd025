import Mathlib.Order.Monotone.Basic
import MongolDb.Repl.ApplyBatches

/-! Crashes at any point leave a state from which the batch that was open is applied again before the
node becomes readable. -/
namespace MongolDb.Repl
open Redo Transition List Nat

variable {D ι : Type} {src : Source D ι}

section
variable {i j n e k : Nat} {stop : OpTime}

theorem Source.timestamp_pos (src : Source D ι) (i : Nat) : 0 < (src.optime i).timestamp := by
  have hnull := src.notNull i
  rw [OpTime.isNull, decide_eq_false_iff_not] at hnull
  apply Nat.pos_of_ne_zero
  intro hzero
  rw [hzero] at hnull
  exact hnull rfl

theorem Source.lt_iff : (src.optime i).lt (src.optime j) = true ↔ i < j := by
  constructor
  · intro h
    rcases lt_trichotomy i j with hlt | rfl | hgt
    · exact hlt
    · exact absurd h (by rw [OpTime.lt_asymm h]; decide)
    · exact absurd h (by rw [OpTime.lt_asymm (src.increasing hgt).1]; decide)
  · exact fun h => (src.increasing h).1

theorem Source.timestamp_lt_iff :
    (src.optime i).timestamp < (src.optime j).timestamp ↔ i < j :=
  StrictMono.lt_iff_lt (f := fun i => (src.optime i).timestamp) fun _ _ h => (src.increasing h).2

variable (src) in
/-- The time is that of the last of the first `e` entries. -/
def Source.EndsAt (stop : OpTime) (e : Nat) : Prop :=
  (e = 0 ∧ stop = .null) ∨ ∃ j, e = j + 1 ∧ stop = src.optime j

theorem endsAt_max (h : src.EndsAt stop e) (k : Nat) :
    src.EndsAt (stop.max (src.optime k)) (max e (k + 1)) := by
  rcases h with ⟨rfl, rfl⟩ | ⟨j, rfl, rfl⟩
  · have hlt : OpTime.null.lt (src.optime k) = true := by
      rw [OpTime.lt, if_pos (.inl rfl)]
      exact decide_eq_true (src.timestamp_pos k)
    rw [OpTime.max, if_pos hlt, Nat.zero_max]
    exact .inr ⟨k, rfl, rfl⟩
  · rw [OpTime.max]
    split
    next hlt =>
      rw [Source.lt_iff] at hlt
      exact .inr ⟨k, max_eq_right (by omega), rfl⟩
    next hlt =>
      rw [Source.lt_iff] at hlt
      exact .inr ⟨j, max_eq_left (by omega), rfl⟩

/-- A time that is not after that of the entry `n` is that of an entry up to it. -/
theorem Source.EndsAt.le_of_not_gt (h : src.EndsAt stop e) (hgt : stop.gt (src.optime n) = false) :
    e ≤ n + 1 := by
  rcases h with ⟨rfl, rfl⟩ | ⟨j, rfl, rfl⟩
  · exact zero_le _
  · rw [OpTime.gt, Bool.not_eq_false', Bool.or_eq_true] at hgt
    rcases hgt with hlt | heq
    · rw [Source.lt_iff] at hlt
      omega
    · have htimes := OpTime.timestamp_eq_of_eq heq
      by_contra hnot
      have hlater := (src.increasing (show n < j by omega)).2
      omega

end

section
variable {m n : Nat}

theorem scanBack_range (m n : Nat) (found : Bool) (last : Option Nat) :
    scanBack src (src.optime m).timestamp (List.range n).reverse found last =
      if n = 0 then (found, last)
      else if n ≤ m then (found, some (n - 1))
      else (true, some (max m 1 - 1)) := by
  induction n generalizing found last with
  | zero => rfl
  | succ n ih =>
    rw [range_succ, reverse_append, reverse_singleton, singleton_append, scanBack,
      ih, if_neg (succ_ne_zero n)]
    simp only [Source.timestamp_lt_iff]
    by_cases hlt : n < m
    · rw [if_pos hlt, if_pos (succ_le_of_lt hlt), Nat.add_sub_cancel]
    · have hm : ¬ n + 1 ≤ m := hlt
      rw [if_neg hlt, if_neg hm]
      by_cases hzero : n = 0
      · rw [if_pos hzero, show max m 1 - 1 = n by omega]
      · rw [if_neg hzero]
        by_cases hle : n ≤ m
        · rw [if_pos hle, show max m 1 - 1 = n - 1 by omega]
        · rw [if_neg hle]

theorem range_add (k c : Nat) : List.range (k + c) = List.range k ++ List.range' k c := by
  rw [range_eq_range', range_eq_range', ← range'_append_1, zero_add]

theorem cappedTruncateAfter_range {k n : Nat} (h : k < n) :
    cappedTruncateAfter k (List.range n) = List.range (k + 1) := by
  obtain ⟨c, rfl⟩ := Nat.exists_eq_add_of_lt h
  have hall : ∀ x ∈ range k, decide (x ≠ k) = true := by
    intro x hx
    have hlt := mem_range.mp hx
    exact decide_eq_true (by omega)
  rw [cappedTruncateAfter, add_assoc, range_add, takeWhile_append_of_pos hall, range'_succ]
  simp [range_succ]

/-- The entry that the marker names goes too, but the first one of the oplog stays. -/
theorem truncateOplogTo_range (m n : Nat) :
    ∃ n', truncateOplogTo src (src.optime m).timestamp (List.range (n + 1)) = List.range (n' + 1) ∧
      n' ≤ m := by
  rw [truncateOplogTo, scanBack_range, if_neg (succ_ne_zero n)]
  by_cases hle : n + 1 ≤ m
  · rw [if_pos hle]
    exact ⟨n, rfl, by omega⟩
  · rw [if_neg hle]
    refine ⟨max m 1 - 1, ?_, by omega⟩
    exact cappedTruncateAfter_range (by omega)

end

/-- The oplog ends with the entry `n`, and the data are those of its entries, apart from what a
batch up to the first `e` entries may have left. -/
structure Db.Ready (src : Source D ι) (db : Db D) (n e : Nat) : Prop where
  oplog : db.oplog = List.range (n + 1)
  stop : src.EndsAt db.getMinValid.stop e
  data : src.Dirty (n + 1) (max (n + 1) e) db.data

/-- What a crash may leave: no batch is open, or the marker names the entry before the batch. -/
def Db.Recoverable (src : Source D ι) (db : Db D) : Prop :=
  (db.getMinValid.start.isNull = true ∧ ∃ n e, db.Ready src n e) ∨
    (db.getMinValid.start.isNull = false ∧ ∃ m n e, db.oplog = List.range (n + 1) ∧
      src.EndsAt db.getMinValid.stop e ∧
      db.getMinValid.start.timestamp = (src.optime m).timestamp ∧ m + 1 ≤ e ∧
      src.Dirty (m + 1) e db.data)

theorem Db.Recoverable.cleanUp {db : Db D} (h : db.Recoverable src) :
    (db.cleanUpLastApplyBatch src).Recoverable src ∧
      ∃ n e, (db.cleanUpLastApplyBatch src).Ready src n e := by
  rcases h with ⟨hnull, n, e, hready⟩ | ⟨hnull, m, n, e, hoplog, hstop, hstart, hm, hdirty⟩
  · rw [Db.cleanUpLastApplyBatch, if_pos hnull]
    exact ⟨.inl ⟨hnull, n, e, hready⟩, n, e, hready⟩
  · obtain ⟨n', htruncate, hn'⟩ := @truncateOplogTo_range D ι src m n
    have hclean : db.cleanUpLastApplyBatch src = { db with oplog := range (n' + 1) } := by
      rw [Db.cleanUpLastApplyBatch, hnull, if_neg (by decide), hoplog, hstart, htruncate]
    rw [hclean]
    refine ⟨.inr ⟨hnull, m, n', e, rfl, hstop, hstart, hm, hdirty⟩, n', e, rfl, hstop, ?_⟩
    rw [max_eq_right (by omega)]
    exact hdirty.back_to (by omega)

namespace SyncNode
variable {s t : SyncNode D} {n c e : Nat}

section
variable (src) (s)

/-- Between two batches, behind the entry `n`; the markers found at the start go up to the first `e`
entries. -/
structure Idle (n e : Nat) : Prop where
  ready : ∃ e', s.db.Ready src n e'
  lastSetTimestamp : s.lastSetTimestamp = (src.optime n).timestamp
  myLastOptime : s.myLastOptime = src.optime n
  originalEnd : src.EndsAt s.originalEndOpTime e
  data : src.Dirty (n + 1) (max (n + 1) e) s.db.data

/-- A batch of `c + 1` entries behind the entry `n`. -/
structure Applying (ops : List Nat) (stop : OpTime) (before : D)
    (oplogWritten : Bool) (n c e : Nat) : Prop where
  ops_eq : ops = List.range' (n + 1) (c + 1)
  originalEnd : src.EndsAt s.originalEndOpTime e
  endsAt : src.EndsAt stop (max e (n + c + 2))
  minvalid : s.db.minvalid =
    some ⟨some ⟨(src.optime n).timestamp, OpTime.kUninitializedTerm⟩, stop⟩
  oplog : s.db.oplog = List.range (if oplogWritten then n + c + 2 else n + 1)
  started : src.Dirty (n + 1) (max e (n + c + 2)) before
  data : src.Dirty (n + 1) (max e (n + c + 2)) s.db.data

def PhaseHolds : Phase D → Prop
  | .down => True
  | .cleaned => ∃ n e, s.db.Ready src n e
  | .idle => ∃ n e, s.Idle src n e
  | .applying ops stop before oplogWritten => ∃ n c e, s.Applying src ops stop before oplogWritten n c e
  | .stopped _ => False

/-- Every committed state can be recovered from. -/
structure Invariant : Prop where
  recoverable : ∀ db ∈ s.db :: s.history, db.Recoverable src
  phase : s.PhaseHolds src s.phase

end

theorem Invariant.commit (h : s.Invariant src) {db : Db D} (hdb : db.Recoverable src) :
    ∀ db' ∈ db :: s.db :: s.history, db'.Recoverable src := by
  intro db' hdb'
  rcases mem_cons.mp hdb' with rfl | hdb'
  · exact hdb
  · exact h.recoverable db' hdb'

theorem Invariant.of_phase {phase : Phase D} (h : s.Invariant src) (hphase : s.phase = phase) :
    s.PhaseHolds src phase :=
  hphase ▸ h.phase

theorem Invariant.of_flags (h : s.Invariant src) (secondary inShutdown : Bool) :
    Invariant src { s with secondary := secondary, inShutdown := inShutdown } := by
  refine ⟨h.recoverable, ?_⟩
  cases hphase : s.phase with
  | down => trivial
  | cleaned | stopped ops => exact h.of_phase hphase
  | idle =>
    obtain ⟨n, e, hidle⟩ := h.of_phase hphase
    exact ⟨n, e, { hidle with }⟩
  | applying ops stop before oplogWritten =>
    obtain ⟨n, c, e, happlying⟩ := h.of_phase hphase
    exact ⟨n, c, e, { happlying with }⟩

/-- While a batch is open, the marker lets every committed state be recovered from. -/
theorem Applying.recoverable {ops : List Nat} {stop : OpTime} {before : D} {oplogWritten : Bool}
    (h : s.Applying src ops stop before oplogWritten n c e) : s.db.Recoverable src := by
  have hmin : s.db.getMinValid = ⟨⟨(src.optime n).timestamp, OpTime.kUninitializedTerm⟩, stop⟩ := by
    rw [Db.getMinValid, h.minvalid]
    rfl
  have hnull : s.db.getMinValid.start.isNull = false := by
    rw [hmin]
    exact src.notNull n
  refine .inr ⟨hnull, n, (if oplogWritten then n + c + 1 else n), max e (n + c + 2), ?_, ?_, ?_, ?_, h.data⟩
  · rw [h.oplog]
    cases oplogWritten <;> rfl
  · rw [hmin]
    exact h.endsAt
  · rw [hmin]
  · omega

theorem getLast?_range (n : Nat) : (List.range (n + 1)).getLast? = some n := by
  rw [range_succ, getLast?_concat]

section
variable (h : s.Invariant src)
include h

theorem Invariant.startUp (hphase : s.phase = .cleaned)
    (hst : s.startUp src = some t) : t.Invariant src := by
  obtain ⟨n, e, hready⟩ := h.of_phase hphase
  rw [SyncNode.startUp, hready.oplog, getLast?_range] at hst
  cases hst
  exact ⟨h.recoverable, n, e, ⟨e, hready⟩, rfl, rfl, hready.stop, hready.data⟩

theorem Invariant.startBatch {count : Nat} (hphase : s.phase = .idle)
    (hst : s.startBatch src count = some t) : t.Invariant src := by
  obtain ⟨n, e, ⟨⟨e', hready⟩, hset, -, hend, hdata⟩⟩ := h.of_phase hphase
  rw [SyncNode.startBatch, hready.oplog, getLast?_range] at hst
  simp only [Option.bind_eq_bind, Option.bind_some] at hst
  cases count with
  | zero => cases hst
  | succ c =>
    rw [if_neg (succ_ne_zero c)] at hst
    cases hst
    have hmax := endsAt_max hend (n + (c + 1))
    have hdirty : src.Dirty (n + 1) (max e (n + c + 2)) s.db.data := hdata.extend (by omega)
    have happlying : Applying src
        { s.commit { s.db with minvalid := some ⟨some ⟨s.lastSetTimestamp, OpTime.kUninitializedTerm⟩,
            s.originalEndOpTime.max (src.optime (n + (c + 1)))⟩ } with
          phase := .applying (range' (n + 1) (c + 1))
            (s.originalEndOpTime.max (src.optime (n + (c + 1)))) s.db.data false }
        (range' (n + 1) (c + 1)) (s.originalEndOpTime.max (src.optime (n + (c + 1)))) s.db.data
        false n c e :=
      ⟨rfl, hend, hmax, by rw [hset]; rfl, hready.oplog, hdirty, hdirty⟩
    exact ⟨h.commit happlying.recoverable, n, c, e, happlying⟩

theorem Invariant.crash {lost : Nat} (hst : s.crash lost = some t) : t.Invariant src := by
  rw [SyncNode.crash] at hst
  split at hst
  next => cases hst
  next db history hdrop =>
    cases hst
    refine ⟨?_, trivial⟩
    intro db' hdb'
    apply h.recoverable db'
    apply mem_of_mem_drop
    rw [hdrop]
    exact hdb'

theorem Invariant.cleanUp :
    Invariant src { s.commit (s.db.cleanUpLastApplyBatch src) with phase := .cleaned } := by
  obtain ⟨hrecoverable, hready⟩ := (h.recoverable s.db mem_cons_self).cleanUp
  exact ⟨h.commit hrecoverable, hready⟩

theorem Invariant.callAgain (hphase : s.phase = .idle) :
    Invariant src { s with originalEndOpTime := s.db.getMinValid.stop, secondary := false } := by
  obtain ⟨n, e, ⟨⟨e', hready⟩, hset, hlast, -, -⟩⟩ := h.of_phase hphase
  refine ⟨h.recoverable, ?_⟩
  rw [hphase]
  exact ⟨n, e', ⟨e', hready⟩, hset, hlast, hready.stop, hready.data⟩

end

variable {ops : List Nat} {stop : OpTime} {before : D} {oplogWritten : Bool}

theorem Invariant.writeData {k : Nat} {part : ι} (h : s.Invariant src)
    (hphase : s.phase = .applying ops stop before oplogWritten)
    (hst : s.writeData src ops k part = some t) : t.Invariant src := by
  obtain ⟨n, c, e, happlying⟩ := h.of_phase hphase
  rw [SyncNode.writeData] at hst
  split at hst
  next hk =>
    cases hst
    rw [happlying.ops_eq, mem_range'_1] at hk
    have hdata := happlying.data.write hk.1 (show k < max e (n + c + 2) by omega) part
    have hnext : Applying src (s.commit { s.db with data := src.write k part s.db.data }) ops stop
        before oplogWritten n c e := { happlying with data := hdata }
    refine ⟨h.commit hnext.recoverable, ?_⟩
    show PhaseHolds src _ s.phase
    rw [hphase]
    exact ⟨n, c, e, hnext⟩
  next => cases hst

theorem Invariant.writeOpsToOplog (h : s.Invariant src)
    (hphase : s.phase = .applying ops stop before false) :
    Invariant src { s.commit { s.db with oplog := s.db.oplog ++ ops } with
      phase := .applying ops stop before true } := by
  obtain ⟨n, c, e, happlying⟩ := h.of_phase hphase
  have hoplog : s.db.oplog ++ ops = range (n + c + 2) := by
    rw [happlying.oplog, happlying.ops_eq, if_neg (by decide), ← range_add,
      show n + 1 + (c + 1) = n + c + 2 by omega]
  have hnext : Applying src { s.commit { s.db with oplog := s.db.oplog ++ ops } with
      phase := .applying ops stop before true } ops stop before true n c e :=
    { happlying with oplog := hoplog }
  exact ⟨h.commit hnext.recoverable, n, c, e, hnext⟩

/-- A node that is down with no batch open: its data are the entries of its oplog, and the marker
asks for none behind them. -/
structure Settled (src : Source D ι) (s : SyncNode D) (n : Nat) : Prop where
  phase : s.phase = .down
  history : s.history = []
  oplog : s.db.oplog = List.range (n + 1)
  data : s.db.data = src.seq (n + 1)
  start : s.db.getMinValid.start.isNull = true
  stop : ∃ e ≤ n + 1, src.EndsAt s.db.getMinValid.stop e

theorem Settled.invariant (h : s.Settled src n) : s.Invariant src := by
  obtain ⟨e, he, hstop⟩ := h.stop
  have hready : s.db.Ready src n e := by
    refine ⟨h.oplog, hstop, ?_⟩
    rw [max_eq_left he, h.data]
    exact .clean (n + 1)
  have hrecoverable : s.db.Recoverable src := .inl ⟨h.start, n, e, hready⟩
  constructor
  · intro db hdb
    rw [h.history] at hdb
    rwa [mem_singleton.mp hdb]
  · rw [h.phase]
    trivial

variable (src) in
/-- A batch does not end in a shutdown, and not before its writers have applied it. -/
def Running (s : SyncNode D) (a : SyncAction ι) : Prop :=
  a.endsBatch = true → s.inShutdown = false ∧ s.WritersAgree src

instance decidableRunning [DecidableEq D] (s : SyncNode D) (a : SyncAction ι) :
    Decidable (s.Running src a) := by
  unfold Running WritersAgree
  cases s.phase <;> infer_instance

theorem Invariant.finishBatch (h : s.Invariant src) (hphase : s.phase = .applying ops stop before true)
    (hrunning : s.inShutdown = false) (hdone : s.WritersAgree src)
    (hst : s.finishBatch src ops stop = some t) :
    t.Invariant src := by
  obtain ⟨n, c, e, happlying⟩ := h.of_phase hphase
  have hops := happlying.ops_eq
  have hlast : ops.getLast? = some (n + c + 1) := by
    rw [hops, range'_concat, getLast?_concat]
    congr 1
    omega
  rw [SyncNode.finishBatch, hlast, hrunning] at hst
  cases hst
  rw [WritersAgree, hphase] at hdone
  have hdirty : src.Dirty (n + c + 1 + 1) (max e (n + c + 2)) s.db.data := by
    have hreplay := happlying.started.replay (show n + 1 + (c + 1) ≤ max e (n + c + 2) by omega)
    rwa [← hops, ← hdone, show n + 1 + (c + 1) = n + c + 1 + 1 by omega] at hreplay
  have hready : Db.Ready src { s.db with minvalid := some ⟨none, stop⟩ } (n + c + 1)
      (max e (n + c + 2)) := by
    refine ⟨happlying.oplog, happlying.endsAt, ?_⟩
    rw [max_eq_right (by omega)]
    exact hdirty
  have hrecoverable : Db.Recoverable src { s.db with minvalid := some ⟨none, stop⟩ } :=
    .inl ⟨OpTime.isNull_null, n + c + 1, _, hready⟩
  refine ⟨h.commit hrecoverable, n + c + 1, e, ⟨_, hready⟩, rfl, rfl, happlying.originalEnd, ?_⟩
  rw [max_comm]
  exact hdirty

theorem Invariant.step {a : SyncAction ι} (h : s.Invariant src) (ha : s.Running src a)
    (hst : SyncNode.step src a s = some t) : t.Invariant src := by
  cases a <;> rw [SyncNode.step] at hst
  case crash lost => exact h.crash hst
  case beginShutdown =>
    cases hst
    exact h.of_flags s.secondary true
  case cleanUpLastApplyBatch =>
    split at hst
    · cases hst
      exact h.cleanUp
    · cases hst
  case startUp =>
    split at hst
    next hphase => exact h.startUp hphase hst
    next => cases hst
  case tryToGoLiveAsASecondary =>
    split at hst
    next hphase =>
      cases hst
      rw [SyncNode.tryToGoLiveAsASecondary]
      split
      · exact h
      · split
        · exact h
        · exact h.of_flags true s.inShutdown
    next => cases hst
  case startBatch count =>
    split at hst
    next hphase => exact h.startBatch hphase hst
    next => cases hst
  case callAgain =>
    split at hst
    next hphase =>
      cases hst
      exact h.callAgain hphase
    next => cases hst
  case writeData k part =>
    split at hst
    next hphase => exact h.writeData hphase hst
    next hphase => exact (h.of_phase hphase).elim
    next => cases hst
  case writeOpsToOplog =>
    split at hst
    next hphase =>
      cases hst
      exact h.writeOpsToOplog hphase
    next => cases hst
  case finishBatch =>
    split at hst
    next hphase => exact h.finishBatch hphase (ha rfl).1 (ha rfl).2 hst
    next => cases hst

/-- Whenever the node switches to SECONDARY, its data are the entries of its oplog, applied one after
the other. -/
theorem live_data_eq_replay (hrestores : src.Restores) {init : SyncNode D} (hinit : init.Settled src n)
    (hreach : Reach (SyncNode.step src) (Running src) init s)
    (hst : SyncNode.step src .tryToGoLiveAsASecondary s = some t) (hbefore : s.secondary = false)
    (hlive : t.secondary = true) :
    t.db.data = src.replay t.db.oplog src.initial := by
  have hinv : s.Invariant src := hreach.invariant hinit.invariant fun hs ha hst => hs.step ha hst
  rw [SyncNode.step] at hst
  split at hst
  next hphase =>
    cases hst
    obtain ⟨k, e, hidle⟩ := hinv.of_phase hphase
    rw [SyncNode.tryToGoLiveAsASecondary, hbefore, if_neg (by decide)] at hlive ⊢
    split at hlive
    next =>
      rw [hbefore] at hlive
      cases hlive
    next hcheck =>
      rw [if_neg hcheck]
      simp only [Bool.or_eq_true, not_or, Bool.not_eq_true, Bool.not_eq_false'] at hcheck
      obtain ⟨hnull, hgt⟩ := hcheck
      rcases hinv.recoverable s.db mem_cons_self with ⟨-, n', e', hready⟩ | ⟨hopen, -⟩
      · obtain ⟨e'', hready''⟩ := hidle.ready
        obtain rfl : n' = k := by
          have hlen := congrArg length (hready.oplog.symm.trans hready''.oplog)
          simpa using hlen
        rw [hidle.myLastOptime] at hgt
        have hle := hready.stop.le_of_not_gt hgt
        have hdata := hready.data
        rw [max_eq_left hle] at hdata
        rw [hready.oplog]
        exact hrestores hdata
      · rw [hnull] at hopen
        cases hopen
  next => cases hst

end SyncNode

/-- One register, which each entry sets to its number plus one. -/
def registerLog : Log Nat Unit := ⟨0, fun k _ => k + 1, fun k _ _ => k + 1⟩

theorem register_seq (n : Nat) : registerLog.seq n = n := by
  cases n with
  | zero => rfl
  | succ n => rw [Log.seq_succ]; rfl

theorem register_restores : registerLog.Restores := by
  have hdirty : ∀ {p q d : Nat}, registerLog.Dirty p q d → p ≤ q ∧ (p < q ∨ d = p) := by
    intro p q d h
    induction h with
    | clean p => exact ⟨le_refl p, .inr (register_seq p)⟩
    | write _ hp hq _ ih => exact ⟨ih.1, .inl (by omega)⟩
    | extend _ hq ih => exact ⟨by omega, by omega⟩
    | back _ ih => exact ⟨by omega, .inl (by omega)⟩
    | apply _ hq ih => exact ⟨hq, .inr rfl⟩
  intro p d h
  rcases (hdirty h).2 with hlt | heq
  · exact absurd hlt (lt_irrefl p)
  · rw [register_seq, heq]

def registerOptime (k : Nat) : OpTime := ⟨(k + 1) * 2 ^ 32, 1⟩

theorem registerOptime_increasing {i j : Nat} (h : i < j) :
    (registerOptime i).lt (registerOptime j) = true ∧
      (registerOptime i).timestamp < (registerOptime j).timestamp := by
  have hlt : (registerOptime i).timestamp < (registerOptime j).timestamp := by
    simp only [registerOptime]
    omega
  refine ⟨?_, hlt⟩
  rw [OpTime.lt, if_neg (by simp [registerOptime, OpTime.kUninitializedTerm])]
  simpa [registerOptime] using h

theorem registerOptime_notNull (i : Nat) : (registerOptime i).isNull = false := by
  rw [OpTime.isNull, decide_eq_false_iff_not]
  simp only [registerOptime]
  omega

def registerSource : Source Nat Unit where
  toLog := registerLog
  optime := registerOptime
  increasing := registerOptime_increasing
  notNull := registerOptime_notNull

/-- A node that holds the first entry. -/
def registerNode : SyncNode Nat :=
  ⟨⟨none, [0], 1⟩, [], .down, 0, .null, .null, false, false⟩

theorem registerNode_settled : registerNode.Settled registerSource 0 :=
  ⟨rfl, rfl, rfl, rfl, OpTime.isNull_null, 0, zero_le _, .inl ⟨rfl, rfl⟩⟩

/-- A shutdown begins when the second entry stands in the oplog but has not been applied; the marker
is taken away all the same, and the node goes live without the entry after the next start. -/
theorem shutdown_loses_entry :
    (run (SyncNode.step registerSource) [.cleanUpLastApplyBatch, .startUp, .startBatch 1,
        .writeOpsToOplog, .beginShutdown, .finishBatch, .crash 0, .cleanUpLastApplyBatch, .startUp,
        .tryToGoLiveAsASecondary] registerNode).map
      (fun t => (t.secondary, t.db.oplog, t.db.data)) = some (true, [0, 1], 1) ∧
    registerSource.replay [0, 1] registerSource.initial = 2 := by
  decide

/-- A crash in a batch of two entries, of which one write was made and kept. -/
theorem live_data_eq_replay_crash :
    ∃ s t, SyncNode.step registerSource .tryToGoLiveAsASecondary s = some t ∧ t.secondary = true ∧
      t.db.data = registerSource.replay t.db.oplog registerSource.initial := by
  obtain ⟨s, hrun, hbefore, t, hst, hlive⟩ : ∃ s,
      run (guarded (SyncNode.step registerSource) fun s a => decide (s.Running registerSource a))
        [.cleanUpLastApplyBatch, .startUp, .startBatch 2, .writeData 2 (), .crash 0,
          .cleanUpLastApplyBatch, .startUp, .startBatch 2, .writeData 1 (), .writeData 2 (),
          .writeOpsToOplog, .finishBatch] registerNode = some s ∧ s.secondary = false ∧
      ∃ t, SyncNode.step registerSource .tryToGoLiveAsASecondary s = some t ∧ t.secondary = true :=
    ⟨_, rfl, rfl, _, rfl, rfl⟩
  have hreach := (reach_of_guarded_run hrun).mono fun s a ha => of_decide_eq_true ha
  exact ⟨s, t, hst, hlive, SyncNode.live_data_eq_replay register_restores registerNode_settled hreach
    hst hbefore hlive⟩

end MongolDb.Repl
