import MongolDb.Lib.Reach
import MongolDb.MmapV1.Preimages

/-! Units of work are atomic in memory: an abort brings every byte back and a commit declares the
bytes that were written, as long as the pre-images stay where an `int` reaches them. -/
namespace MongolDb.MmapV1
open Ranges List

section Commit
variable {begun data : Data} {D : Nat → Prop} {last : Intent} {ws : List Write}
  {u : DurRecoveryUnit}

/-- Every run of such bytes is shorter than `2 ^ 31`. -/
def ShortRuns (D : Nat → Prop) : Prop :=
  ∀ addr n, (∀ a, InRange (addr, addr + n) a → D a) → n < 2 ^ 31

/-- A write that begins in an intent or right behind it. -/
theorem inRange_extend {w : Write} {a : Nat} (hle : last.addr ≤ w.addr)
    (hmeets : w.addr ≤ last.stop) :
    InRange (Intent.range ⟨last.addr, max last.len (w.stop - last.addr)⟩) a ↔
      InRange last.range a ∨ InRange w.range a := by
  simp only [InRange, Intent.range, Intent.stop, Write.range, Write.stop] at hmeets ⊢
  omega

theorem within_cons {w : Write} (h : ∀ a, Owns ((w :: ws).map Write.range) a → D a) :
    (∀ a, InRange w.range a → D a) ∧ ∀ a, Owns (ws.map Write.range) a → D a :=
  ⟨fun a ha => h a (owns_cons.mpr (.inl ha)), fun a ha => h a (owns_cons.mpr (.inr ha))⟩

theorem owns_coalesceInitial (hruns : ShortRuns D) (hlast : ∀ a, InRange last.range a → D a)
    (hws : ∀ a, Owns (ws.map Write.range) a → D a)
    (hsorted : ws.Pairwise fun v w => v.addr ≤ w.addr) (hfirst : ∀ w ∈ ws, last.addr ≤ w.addr)
    (a : Nat) :
    Owns ((coalesceInitial last ws).map Intent.range) a ↔
      InRange last.range a ∨ Owns (ws.map Write.range) a := by
  induction ws generalizing last with
  | nil => simp [coalesceInitial, Owns]
  | cons w ws ih =>
    obtain ⟨hle, hsorted⟩ := pairwise_cons.mp hsorted
    obtain ⟨hw, hrest⟩ := within_cons hws
    rw [coalesceInitial, map_cons, owns_cons, ← or_assoc]
    split
    · next hmeets =>
      have hext := fun a => @inRange_extend last w a (hfirst w mem_cons_self) hmeets
      have hD : ∀ a,
          InRange (Intent.range ⟨last.addr, max last.len (w.stop - last.addr)⟩) a → D a :=
        fun a ha => ((hext a).mp ha).elim (hlast a) (hw a)
      -- the two make one run, so the length does not wrap
      have hlen : max last.len (w.stop - last.addr) < 2 ^ 31 := hruns _ _ hD
      have hmod : (w.stop - last.addr) % 2 ^ 32 = w.stop - last.addr :=
        Nat.mod_eq_of_lt (by omega)
      rw [hmod, ← hext a]
      exact ih hD hrest hsorted (forall_mem_cons.mp hfirst).2
    · rw [map_cons, owns_cons, or_assoc]
      exact or_congr_right (@ih w.intent hw hrest hsorted hle)

theorem coalesceMerged_eq_ok (hruns : ShortRuns D) (hlast : ∀ a, InRange last.range a → D a)
    (hws : ∀ a, Owns (ws.map Write.range) a → D a)
    (hapart : ws.Pairwise fun v w => v.stop ≤ w.addr) (hfirst : ∀ w ∈ ws, last.stop ≤ w.addr) :
    ∃ intents, coalesceMerged last ws = .ok intents ∧ ∀ a, Owns (intents.map Intent.range) a ↔
      InRange last.range a ∨ Owns (ws.map Write.range) a := by
  induction ws generalizing last with
  | nil => exact ⟨_, rfl, by simp [Owns]⟩
  | cons w ws ih =>
    obtain ⟨hle, hapart⟩ := pairwise_cons.mp hapart
    obtain ⟨hw, hrest⟩ := within_cons hws
    have hnext := hfirst w mem_cons_self
    have haddr : last.addr ≤ last.stop := Nat.le_add_right _ _
    simp only [map_cons, owns_cons, ← or_assoc]
    rw [coalesceMerged, if_neg (not_lt.mpr (haddr.trans hnext))]
    by_cases hadj : w.addr = last.stop
    · have hext : ∀ a, InRange (Intent.range ⟨last.addr, last.len + w.len⟩) a ↔
          InRange last.range a ∨ InRange w.range a := by
        intro a
        simp only [InRange, Intent.range, Intent.stop, Write.range, Write.stop] at hadj ⊢
        omega
      have hD : ∀ a, InRange (Intent.range ⟨last.addr, last.len + w.len⟩) a → D a :=
        fun a ha => ((hext a).mp ha).elim (hlast a) (hw a)
      have hlen : last.len + w.len < 2 ^ 31 := hruns _ _ hD
      have hmod : (last.len + w.len) % 2 ^ 32 = last.len + w.len := Nat.mod_eq_of_lt (by omega)
      have hstop : Intent.stop ⟨last.addr, last.len + w.len⟩ = w.stop := by
        simp only [Intent.stop, Write.stop] at hadj ⊢
        omega
      rw [if_pos hadj, hmod]
      obtain ⟨intents, hok, howns⟩ := ih hD hrest hapart fun v hv => hstop.le.trans (hle v hv)
      exact ⟨intents, hok, fun a => (howns a).trans (or_congr_left (hext a))⟩
    · rw [if_neg hadj, if_neg (by omega)]
      obtain ⟨intents, hok, howns⟩ := @ih w.intent hw hrest hapart hle
      refine ⟨last :: intents, by rw [hok]; rfl, fun a => ?_⟩
      rw [map_cons, owns_cons, howns a, or_assoc]
      rfl

theorem owns_initialIntents (hruns : ShortRuns D) (hws : ∀ a, Owns (ws.map Write.range) a → D a)
    (hsorted : ws.Pairwise fun v w => v.addr ≤ w.addr) (a : Nat) :
    Owns ((initialIntents ws).map Intent.range) a ↔ Owns (ws.map Write.range) a := by
  cases ws with
  | nil => rfl
  | cons w ws =>
    obtain ⟨hle, hsorted⟩ := pairwise_cons.mp hsorted
    rw [initialIntents, map_cons, owns_cons]
    obtain ⟨hw, hrest⟩ := within_cons hws
    exact @owns_coalesceInitial D w.intent ws hruns hw hrest hsorted hle a

theorem mergedIntents_eq_ok (hruns : ShortRuns D) (hws : ∀ a, Owns (ws.map Write.range) a → D a)
    (hapart : ws.Pairwise fun v w => v.stop ≤ w.addr) :
    ∃ intents, mergedIntents ws = .ok intents ∧
      ∀ a, Owns (intents.map Intent.range) a ↔ Owns (ws.map Write.range) a := by
  cases ws with
  | nil => exact ⟨_, rfl, fun a => Iff.rfl⟩
  | cons w ws =>
    obtain ⟨hle, hapart⟩ := pairwise_cons.mp hapart
    obtain ⟨hw, hrest⟩ := within_cons hws
    obtain ⟨intents, hok, howns⟩ := @coalesceMerged_eq_ok D w.intent ws hruns hw hrest hapart hle
    refine ⟨intents, hok, fun a => ?_⟩
    rw [howns a, map_cons, owns_cons]
    rfl

/-- The intents declare the bytes that were written, and no invariant fails. -/
theorem Working.markWritesForJournaling {kDebugBuild : Bool} {sorted : List Write}
    (h : Working kDebugBuild begun D data u) (hruns : ShortRuns D)
    (hperm : sorted.Perm u.initialWrites) (hsorted : sorted.Pairwise fun v w => v.addr ≤ w.addr) :
    ∃ intents, u.markWritesForJournaling sorted = .ok intents ∧
      ∀ a, Owns (intents.map Intent.range) a ↔ D a := by
  have hD : ∀ a,
      Owns (u.mergedWrites.map Write.range) a ∨ Owns (sorted.map Write.range) a ↔ D a := by
    intro a
    rw [← h.owns a, map_append, owns_append]
    apply or_congr_right
    have hall := (hperm.trans u.initialWrites.reverse_perm.symm).map Write.range
    exact exists_congr fun e => and_congr_left fun _ => hall.mem_iff
  unfold DurRecoveryUnit.markWritesForJournaling
  split
  · next hzero =>
    refine ⟨_, rfl, fun a => ?_⟩
    rw [← h.owns a]
    exact iff_of_eq (congrArg (fun l => Owns (l.map Write.range) a) (h.counted hzero).symm)
  · obtain ⟨intents, hok, howns⟩ :=
      mergedIntents_eq_ok hruns (fun a ha => (hD a).mp (.inl ha)) h.apart
    refine ⟨_, by rw [hok]; rfl, fun a => ?_⟩
    rw [map_append, owns_append, howns a, or_comm, ← hD a]
    apply or_congr_right
    exact owns_initialIntents hruns (fun a ha => (hD a).mp (.inr ha)) hsorted a

end Commit

/-- `begun` is the data as the unit of work found it, `declared` the ranges it has declared. -/
structure World where
  unit : DurRecoveryUnit
  data : Data
  begun : Data
  declared : List (Nat × Nat)

inductive Call where
  | beginUnitOfWork
  | writingPtr (addr len : Nat)
  | modify (data : Data)
  | commitUnitOfWork (sorted : List Write)
  | abortUnitOfWork

namespace World

def start (data : Data) : World := ⟨.fresh, data, data, []⟩

def step (kDebugBuild isDurable : Bool) : Call → World → Option World
  | .beginUnitOfWork, w => w.unit.beginUnitOfWork.toOption.map fun u =>
      { w with unit := u, begun := w.data, declared := [] }
  | .writingPtr addr len, w =>
    (w.unit.writingPtr kDebugBuild w.data addr len).toOption.map fun u =>
      { w with unit := u, declared := (addr, addr + len) :: w.declared }
  | .modify data, w => some { w with data := data }
  | .commitUnitOfWork sorted, w => (w.unit.commitUnitOfWork isDurable sorted).toOption.map fun r =>
      { w with unit := r.1, declared := [] }
  | .abortUnitOfWork, w => (w.unit.abortUnitOfWork w.data).toOption.map fun r =>
      { w with unit := r.1, data := r.2, declared := [] }

/-- Only declared bytes are modified, and `std::sort` sorts. -/
def Allowed (w : World) : Call → Prop
  | .modify data => ∀ a, ¬ Owns w.declared a → data a = w.data a
  | .commitUnitOfWork sorted => sorted.Perm w.unit.initialWrites ∧
      sorted.Pairwise fun v w => v.addr ≤ w.addr
  | _ => True

section Runs
variable {kDebugBuild isDurable : Bool} {w w' : World} {action : Call} {data : Data}

/-- Between two units of work nothing is kept. -/
def Inv (kDebugBuild : Bool) (w : World) : Prop :=
  w.unit = .fresh ∨ Working kDebugBuild w.begun (Owns w.declared) w.data w.unit

theorem Inv.working (h : w.Inv kDebugBuild) (hin : w.unit.inUnitOfWork = true) :
    Working kDebugBuild w.begun (Owns w.declared) w.data w.unit := by
  rcases h with hfresh | hworking
  · rw [hfresh] at hin
    cases hin
  · exact hworking

theorem inv_step (h : w.Inv kDebugBuild) (hallowed : w.Allowed action)
    (hstep : step kDebugBuild isDurable action w = some w') : w'.Inv kDebugBuild := by
  cases action with
  | beginUnitOfWork =>
    obtain ⟨u, hok, rfl⟩ := Outcome.toOption_map_eq_some hstep
    unfold DurRecoveryUnit.beginUnitOfWork at hok
    split at hok
    · cases hok
    · next hin =>
      cases hok
      rcases h with hfresh | hworking
      · right
        have hlog : Log w.data (Owns []) w.data [] [] :=
          (Log.empty w.data).congr fun a => by simp [Owns]
        simp only [hfresh]
        exact ⟨⟨hlog, List.Pairwise.nil⟩, rfl, rfl, fun hne => absurd rfl hne, fun _ => rfl⟩
      · exact absurd hworking.inUnit hin
  | writingPtr addr len =>
    obtain ⟨u, hok, rfl⟩ := Outcome.toOption_map_eq_some hstep
    have hin : w.unit.inUnitOfWork = true := by
      by_contra hin
      rw [DurRecoveryUnit.writingPtr, if_pos (by simpa using hin)] at hok
      cases hok
    have hworking := h.working hin
    have hlen := (hworking.writingPtr_ok_iff addr len).mp ⟨u, hok⟩
    obtain ⟨u', hok', hnew⟩ := hworking.writingPtr hlen addr
    cases hok.symm.trans hok'
    exact .inr (hnew.congr fun a => or_comm.trans owns_cons.symm)
  | modify data =>
    cases hstep
    rcases h with hfresh | hworking
    · exact .inl hfresh
    · exact .inr { hworking with toLog := hworking.toLog.modify hallowed }
  | commitUnitOfWork sorted =>
    obtain ⟨r, hok, rfl⟩ := Outcome.toOption_map_eq_some hstep
    left
    unfold DurRecoveryUnit.commitUnitOfWork at hok
    split at hok
    · cases hok
    · obtain ⟨_, -, rfl⟩ := Outcome.map_eq_ok hok
      rfl
  | abortUnitOfWork =>
    obtain ⟨r, hok, rfl⟩ := Outcome.toOption_map_eq_some hstep
    left
    unfold DurRecoveryUnit.abortUnitOfWork at hok
    split at hok
    · cases hok
    · obtain ⟨_, -, rfl⟩ := Outcome.map_eq_ok hok
      rfl

theorem reach_inv (h : Transition.Reach (step kDebugBuild isDurable) Allowed (start data) w) :
    w.Inv kDebugBuild :=
  h.invariant (.inl rfl) inv_step

/-- In every state that units of work lead to: a call of `writingPtr` returns if its length passes
the check, an abort brings the data back if all pre-images are within the reach of an `int`, and
the intents of a commit are the declared bytes. -/
theorem unit_of_work_atomic
    (h : Transition.Reach (step kDebugBuild isDurable) Allowed (start data) w)
    (hin : w.unit.inUnitOfWork = true) :
    (∀ addr len, (∃ u, w.unit.writingPtr kDebugBuild w.data addr len = .ok u) ↔ len < intMax) ∧
    (w.unit.abortUnitOfWork w.data = .ok (.fresh, w.begun) ↔
      ∀ v ∈ w.unit.stored, v.size < 2 ^ 31) ∧
    (ShortRuns (Owns w.declared) → ∀ sorted : List Write, sorted.Perm w.unit.initialWrites →
      (sorted.Pairwise fun v w => v.addr ≤ w.addr) →
      ∃ intents, w.unit.commitUnitOfWork true sorted = .ok (.fresh, intents) ∧
        ∀ a, Owns (intents.map Intent.range) a ↔ Owns w.declared a) := by
  have hworking := (reach_inv h).working hin
  refine ⟨hworking.writingPtr_ok_iff, hworking.abort_iff, ?_⟩
  intro hruns sorted hperm hsorted
  obtain ⟨intents, hok, howns⟩ := hworking.markWritesForJournaling hruns hperm hsorted
  refine ⟨intents, ?_, howns⟩
  rw [DurRecoveryUnit.commitUnitOfWork, if_neg (by simp [hin]), if_pos rfl, hok]
  rfl

theorem unit_of_work_atomic_small :
    ∃ w : World, w.unit.inUnitOfWork = true ∧ w.declared = [(3, 5)] ∧ w.data 4 = 7 ∧
      w.unit.abortUnitOfWork w.data = .ok (.fresh, fun _ => 0) ∧
      ∃ intents, w.unit.commitUnitOfWork true w.unit.initialWrites = .ok (.fresh, intents) ∧
        ∀ a, Owns (intents.map Intent.range) a ↔ Owns [(3, 5)] a := by
  let d : Data := fun a => if a = 4 then 7 else 0
  let w : World := ⟨⟨true, false, 1, [⟨3, 2, 0⟩], [], [0, 0]⟩, d, fun _ => 0, [(3, 5)]⟩
  have hmodify : ∀ a, ¬ Owns [(3, 5)] a → d a = 0 := by
    intro a ha
    apply if_neg
    rintro rfl
    exact ha ⟨(3, 5), mem_singleton_self _, by decide⟩
  have hreach : Transition.Reach (step true true) Allowed (start fun _ => 0) w :=
    .step (a := .modify d) (.step (a := .writingPtr 3 2)
      (.step (a := .beginUnitOfWork) .init trivial rfl) trivial rfl) hmodify rfl
  have hruns : ShortRuns (Owns [(3, 5)]) := by
    intro addr n hall
    by_contra hn
    have hlast := hall (addr + (n - 1)) ⟨Nat.le_add_right _ _, by simp only; omega⟩
    have hfirst := hall addr ⟨le_rfl, by simp only; omega⟩
    simp only [Owns, InRange, mem_singleton, exists_eq_left] at hlast hfirst
    omega
  obtain ⟨-, habort, hcommit⟩ := unit_of_work_atomic hreach rfl
  exact ⟨w, rfl, rfl, rfl, habort.mpr (by decide), hcommit hruns _ (.refl _) (by decide)⟩

/-- A unit of work with `size` bytes of pre-images, all for bytes before `stop`. -/
structure Before (stop size : Nat) (w : World) : Prop where
  inUnit : w.unit.inUnitOfWork = true
  enabled : w.unit.rollbackWritesDisabled = false
  before : ∀ v ∈ w.unit.mergedWrites, v.stop ≤ stop
  length : w.unit.preimageBuffer.length = size

theorem Before.step {stop size addr len : Nat} (h : w.Before stop size) (hstop : stop ≤ addr)
    (hpos : 0 < len) (hlen : len < intMax)
    (hover : kMaxUnmergedPreimageBytes kDebugBuild < size + len) :
    ∃ w', step kDebugBuild isDurable (.writingPtr addr len) w = some w' ∧
      w'.Before (addr + len) (size + len) ∧ w'.declared = (addr, addr + len) :: w.declared ∧
      ⟨addr, len, size⟩ ∈ w'.unit.stored := by
  have hbehind : ∀ v ∈ w.unit.mergedWrites, v.stop ≤ addr := fun v hv => (h.before v hv).trans hstop
  let u : DurRecoveryUnit := { w.unit with
    writeCount := w.unit.writeCount + 1
    mergedWrites := w.unit.mergedWrites ++ [⟨addr, len, w.unit.preimageBuffer.length⟩]
    preimageBuffer := w.unit.preimageBuffer ++ bytesAt w.data addr len }
  have hcall : w.unit.writingPtr kDebugBuild w.data addr len = .ok u :=
    writingPtr_behind h.inUnit h.enabled hpos hlen hbehind (h.length.symm ▸ hover)
  refine ⟨{ w with unit := u, declared := (addr, addr + len) :: w.declared }, ?_,
    ⟨h.inUnit, h.enabled, ?_, ?_⟩, rfl, ?_⟩
  · rw [World.step, hcall]
    rfl
  · intro v hv
    rcases mem_append.mp hv with hv | hv
    · exact (hbehind v hv).trans (Nat.le_add_right _ _)
    · rw [mem_singleton.mp hv]
      exact le_rfl
  · simp only [u, length_append, length_bytesAt, h.length]
  · simp [DurRecoveryUnit.stored, u, h.length]

theorem shortRuns_three {n : Nat} (hn : n < 2 ^ 31) :
    ShortRuns (Owns [(n + 4, n + 5), (n + 1, n + 3), (0, n)]) := by
  intro addr k hall
  by_contra hk
  have hfree : ∀ a, addr ≤ a → a < addr + 2 ^ 31 →
      n + 4 ≤ a ∧ a < n + 5 ∨ n + 1 ≤ a ∧ a < n + 3 ∨ a < n := by
    intro a hle hlt
    have ha := hall a ⟨hle, by simp only; omega⟩
    simpa [Owns, InRange] using ha
  have h₀ := hfree addr
  have h₁ := hfree n
  have h₃ := hfree (n + 5)
  omega

/-- Once the buffer holds `2 ^ 31` bytes, the next pre-image has a negative offset. -/
theorem abort_out_of_range :
    ∃ w, Transition.Reach (step false true) Allowed (start fun _ => 0) w ∧
      w.unit.inUnitOfWork = true ∧ ShortRuns (Owns w.declared) ∧
      w.unit.abortUnitOfWork w.data = .error .outOfRange := by
  let w₀ : World := { start fun _ => 0 with
    unit := { DurRecoveryUnit.fresh with inUnitOfWork := true } }
  have hreach₀ : Transition.Reach (step false true) Allowed (start fun _ => 0) w₀ :=
    .step (a := .beginUnitOfWork) .init trivial rfl
  have h₀ : w₀.Before 0 0 := ⟨rfl, rfl, fun v hv => absurd hv not_mem_nil, rfl⟩
  obtain ⟨n, hn⟩ : ∃ n, n = 2 ^ 31 - 2 := ⟨_, rfl⟩
  have hmax : kMaxUnmergedPreimageBytes false < n := hn ▸ (by decide)
  have hint : n < intMax := hn ▸ (by decide)
  obtain ⟨w₁, hstep₁, h₁, hdecl₁, -⟩ :=
    @Before.step false true _ _ _ 0 n h₀ le_rfl (by omega) hint (by omega)
  obtain ⟨w₂, hstep₂, h₂, hdecl₂, -⟩ :=
    @Before.step false true _ _ _ (n + 1) 2 h₁ (by omega) (by decide) (by decide) (by omega)
  obtain ⟨w₃, hstep₃, h₃, hdecl₃, hmem⟩ :=
    @Before.step false true _ _ _ (n + 4) 1 h₂ (by omega) (by decide) (by decide) (by omega)
  have hallowed : ∀ (w : World) (addr len : Nat), w.Allowed (.writingPtr addr len) :=
    fun _ _ _ => trivial
  have hreach := ((hreach₀.step (hallowed _ _ _) hstep₁).step (hallowed _ _ _) hstep₂).step
    (hallowed _ _ _) hstep₃
  have hdeclared : w₃.declared = [(n + 4, n + 5), (n + 1, n + 3), (0, n)] := by
    rw [hdecl₃, hdecl₂, hdecl₁, Nat.zero_add]
    rfl
  refine ⟨w₃, hreach, h₃.inUnit, hdeclared ▸ shortRuns_three (by omega), ?_⟩
  exact ((reach_inv hreach).working h₃.inUnit).abort_error hmem (by simp only; omega)

end Runs

end World

end MongolDb.MmapV1
