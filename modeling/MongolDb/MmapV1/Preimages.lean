import Mathlib.Data.List.TakeWhile
import MongolDb.Lib.Outcome
import MongolDb.MmapV1.RecoveryUnit

/-! What the pre-images of a unit of work are worth: along every run of `writingPtr` they bring back
the data as the unit of work found it, each byte from the oldest write that covers it. -/
namespace MongolDb.MmapV1
open Overwrite Ranges List

section Log
variable {begun data data' : Data} {D D' : Nat → Prop} {l l' : List Write}
  {buffer more : List UInt8} {addr n : Nat} {w : Write}

/-- The bytes that a write's pre-image gives back. -/
def Write.preimage (buffer : List UInt8) (w : Write) : Patch Nat UInt8 := fun a =>
  if InRange w.range a then buffer[w.size + (a - w.addr)]? else none

@[simp] theorem length_bytesAt (data : Data) (addr len : Nat) :
    (bytesAt data addr len).length = len := by
  simp [bytesAt]

theorem preimage_append (h : w.size + w.len ≤ buffer.length) :
    w.preimage (buffer ++ more) = w.preimage buffer := by
  funext a
  unfold Write.preimage
  split
  · next ha =>
    have hlt : w.size + (a - w.addr) < buffer.length := by
      have hstop : a < w.addr + w.len := ha.2
      have haddr : w.addr ≤ a := ha.1
      omega
    exact getElem?_append_left hlt
  · rfl

theorem preimage_eq_none (h : w.size + w.len ≤ buffer.length) {a : Nat} :
    w.preimage buffer a = none ↔ ¬ InRange w.range a := by
  unfold Write.preimage
  split
  · next ha =>
    have hstop : a < w.addr + w.len := ha.2
    have haddr : w.addr ≤ a := ha.1
    simp only [getElem?_eq_none_iff, ha, not_true_eq_false, iff_false]
    omega
  · next ha => simp [ha]

theorem preimage_new {a : Nat} {b : UInt8}
    (h : Write.preimage (buffer ++ bytesAt data addr n) ⟨addr, n, buffer.length⟩ a = some b) :
    b = data a ∧ InRange (addr, addr + n) a := by
  unfold Write.preimage at h
  split at h
  · next ha =>
    have hstop : a < addr + n := ha.2
    have haddr : addr ≤ a := ha.1
    have hk : a - addr < n := by omega
    rw [getElem?_append_right (Nat.le_add_right _ _), Nat.add_sub_cancel_left, bytesAt,
      getElem?_map, getElem?_range hk] at h
    have hb : data (addr + (a - addr)) = b := Option.some.inj h
    rw [Nat.add_sub_cancel' haddr] at hb
    exact ⟨hb.symm, ha⟩
  · cases h

/-- Writes that bring back the data as the unit of work found it, over the bytes declared. -/
structure Log (begun : Data) (D : Nat → Prop) (data : Data) (l : List Write)
    (buffer : List UInt8) : Prop where
  undo : replay (l.map (Write.preimage buffer)) data = begun
  owns : ∀ a, Owns (l.map Write.range) a ↔ D a
  pos : ∀ w ∈ l, 0 < w.len
  short : ∀ w ∈ l, w.len < 2 ^ 31
  inside : ∀ w ∈ l, w.size + w.len ≤ buffer.length
  -- the pre-images lie one behind the other
  starts : ∀ w ∈ l, w.size = 0 ∨ ∃ v ∈ l, v.size + v.len = w.size
  ends : buffer.length = 0 ∨ ∃ v ∈ l, v.size + v.len = buffer.length

namespace Log

theorem empty (data : Data) : Log data (fun _ => False) data [] [] := by
  refine ⟨rfl, ?_, ?_, ?_, ?_, ?_, .inl rfl⟩ <;> simp [Owns]

theorem congr (h : Log begun D data l buffer) (hD : ∀ a, D a ↔ D' a) : Log begun D' data l buffer :=
  { h with owns := fun a => (h.owns a).trans (hD a) }

theorem owned (h : Log begun D data l buffer) (hw : w ∈ l) {a : Nat} (ha : InRange w.range a) :
    D a :=
  (h.owns a).mp ⟨w.range, mem_map_of_mem hw, ha⟩

/-- Bytes that were declared may change. -/
theorem modify (h : Log begun D data l buffer) (hdata : ∀ a, ¬ D a → data' a = data a) :
    Log begun D data' l buffer := by
  refine { h with undo := ?_ }
  rw [← h.undo]
  apply replay_of_agree_off
  intro a ha
  apply hdata a
  intro hD
  obtain ⟨e, he, hin⟩ := (h.owns a).mpr hD
  obtain ⟨w, hw, rfl⟩ := mem_map.mp he
  exact (preimage_eq_none (h.inside w hw)).mp (ha _ (mem_map_of_mem hw)) hin

/-- A new pre-image, anywhere among those it does not meet and before the others. -/
theorem store (h : Log begun D data (l ++ l') buffer) (hpos : 0 < n) (hshort : n < 2 ^ 31)
    (hfree : ∀ w ∈ l, ∀ a, InRange (addr, addr + n) a → ¬ InRange w.range a) :
    Log begun (fun a => D a ∨ InRange (addr, addr + n) a) data
      (l ++ ⟨addr, n, buffer.length⟩ :: l') (buffer ++ bytesAt data addr n) := by
  have hmem : ∀ {w : Write}, w ∈ l ++ ⟨addr, n, buffer.length⟩ :: l' ↔
      w = ⟨addr, n, buffer.length⟩ ∨ w ∈ l ++ l' := by
    intro w
    simp only [mem_append, mem_cons]
    tauto
  have hall : ∀ {P : Write → Prop}, P ⟨addr, n, buffer.length⟩ → (∀ w ∈ l ++ l', P w) →
      ∀ w ∈ l ++ ⟨addr, n, buffer.length⟩ :: l', P w := by
    intro P hnew hold w hw
    rcases hmem.mp hw with rfl | hw
    · exact hnew
    · exact hold w hw
  have hends : ∀ m, (m = 0 ∨ ∃ v ∈ l ++ l', v.size + v.len = m) →
      m = 0 ∨ ∃ v ∈ l ++ ⟨addr, n, buffer.length⟩ :: l', v.size + v.len = m := by
    rintro m (hm | ⟨v, hv, hm⟩)
    · exact .inl hm
    · exact .inr ⟨v, hmem.mpr (.inr hv), hm⟩
  have hold : ∀ l₁ ⊆ l ++ l', l₁.map (Write.preimage (buffer ++ bytesAt data addr n)) =
      l₁.map (Write.preimage buffer) := by
    intro l₁ hl
    exact map_congr_left fun w hw => preimage_append (h.inside w (hl hw))
  refine ⟨?_, ?_, hall hpos h.pos, hall hshort h.short, ?_,
    hall (hends _ h.ends) fun w hw => hends _ (h.starts w hw), ?_⟩
  · rw [← h.undo, map_append, map_cons, hold l (subset_append_left l l'),
      hold l' (subset_append_right l l'), map_append]
    apply replay_insert
    intro a b hb
    obtain ⟨hdata, ha⟩ := preimage_new hb
    refine ⟨hdata, ?_⟩
    intro p hp
    obtain ⟨w, hw, rfl⟩ := mem_map.mp hp
    exact (preimage_eq_none (h.inside w (mem_append_left l' hw))).mpr (hfree w hw a ha)
  · intro a
    rw [owns_of_mem_iff (l := (l ++ l').map Write.range) (e := (addr, addr + n)), h.owns a, or_comm]
    intro e
    simp only [mem_map, hmem]
    constructor
    · rintro ⟨w, rfl | hw, rfl⟩
      · exact .inl rfl
      · exact .inr ⟨w, hw, rfl⟩
    · rintro (rfl | ⟨w, hw, rfl⟩)
      · exact ⟨_, .inl rfl, rfl⟩
      · exact ⟨w, .inr hw, rfl⟩
  · rw [length_append, length_bytesAt]
    exact hall le_rfl fun w hw => (h.inside w hw).trans (Nat.le_add_right _ _)
  · exact .inr ⟨_, hmem.mpr (.inl rfl), by rw [length_append, length_bytesAt]⟩

end Log

end Log

section WritingPtr
variable {begun data : Data} {D : Nat → Prop} {merged initial before rest : List Write}
  {buffer : List UInt8} {addr stop : Nat}

/-- The merged writes are in order and do not overlap. -/
structure Kept (begun : Data) (D : Nat → Prop) (data : Data) (merged initial : List Write)
    (buffer : List UInt8) : Prop extends Log begun D data (merged ++ initial.reverse) buffer where
  apart : merged.Pairwise fun v w => v.stop ≤ w.addr

theorem Kept.congr {D' : Nat → Prop} (h : Kept begun D data merged initial buffer)
    (hD : ∀ a, D a ↔ D' a) : Kept begun D' data merged initial buffer :=
  ⟨h.toLog.congr hD, h.apart⟩

theorem or_inRange_iff {p : Prop} {a : Nat} (h : stop ≤ addr) : p ∨ InRange (addr, stop) a ↔ p := by
  simp only [InRange]
  exact ⟨fun ha => ha.resolve_right (by omega), .inl⟩

theorem Kept.storeUncovered (h : Kept begun D data (before ++ rest) initial buffer)
    (hbefore : ∀ v ∈ before, v.stop ≤ addr) (hrest : ∀ w ∈ rest, stop ≤ w.addr)
    (hshort : stop < addr + 2 ^ 31) :
    Kept begun (fun a => D a ∨ InRange (addr, stop) a) data
      (before ++ ((storeUncovered false data addr stop buffer).1 ++ rest)) initial
      (storeUncovered false data addr stop buffer).2 := by
  unfold MmapV1.storeUncovered
  split
  · next hlt =>
    have hstop : addr + (stop - addr) = stop := Nat.add_sub_cancel' hlt.le
    have hlog := h.toLog
    rw [append_assoc] at hlog
    have hfree : ∀ w ∈ before, ∀ a, InRange (addr, addr + (stop - addr)) a →
        ¬ InRange w.range a := by
      intro w hw a ha hin
      exact absurd hin.2 (not_lt.mpr ((hbefore w hw).trans ha.1))
    refine ⟨?_, ?_⟩
    · have hnew := hlog.store (Nat.sub_pos_of_lt hlt) (by omega) hfree
      rw [hstop] at hnew
      simpa using hnew
    · have hold := pairwise_append.mp h.apart
      simp only [singleton_append, pairwise_append, pairwise_cons, mem_cons]
      refine ⟨hold.1, ⟨fun w hw => ?_, hold.2.1⟩, ?_⟩
      · exact hstop.le.trans (hrest w hw)
      · rintro v hv w (rfl | hw)
        · exact hbefore v hv
        · exact hold.2.2 v hv w hw
  · next hlt =>
    exact h.congr fun a => (or_inRange_iff (not_lt.mp hlt)).symm

theorem storeUncovered_stop {v : Write}
    (hv : v ∈ (storeUncovered false data addr stop buffer).1) : v.stop = stop := by
  unfold storeUncovered at hv
  split at hv
  · next hlt =>
    rw [mem_singleton.mp hv]
    exact Nat.add_sub_cancel' hlt.le
  · cases hv

theorem length_le_storeUncovered :
    buffer.length ≤ (storeUncovered false data addr stop buffer).2.length := by
  unfold storeUncovered
  split <;> simp

/-- What a round adds before a covering write and what the later ones add behind it. -/
theorem declared_past {c e a : Nat} (hcovered : ∀ a, c ≤ a → a < e → D a) (haddr : addr ≤ e) :
    (D a ∨ InRange (addr, min c stop) a) ∨ InRange (e, stop) a ↔ D a ∨ InRange (addr, stop) a := by
  simp only [InRange]
  constructor
  · rintro ((hD | hin) | hin)
    · exact .inl hD
    · exact .inr (by omega)
    · exact .inr (by omega)
  · rintro (hD | hin)
    · exact .inl (.inl hD)
    · by_cases hbefore : a < c
      · exact .inl (.inr (by omega))
      · by_cases hinside : a < e
        · exact .inl (.inl (hcovered a (not_lt.mp hbefore) hinside))
        · exact .inr (by omega)

/-- The loop stores what is not covered yet, and no `dassert` fails. -/
theorem Kept.mergeLoop (h : Kept begun D data (before ++ rest) initial buffer)
    (hbefore : ∀ v ∈ before, v.stop ≤ addr) (hrest : ∀ w ∈ rest.head?, addr < w.stop)
    (hshort : stop < addr + 2 ^ 31) :
    ∃ rest' buffer', mergeLoop false data stop rest addr buffer = .ok (rest', buffer') ∧
      Kept begun (fun a => D a ∨ InRange (addr, stop) a) data (before ++ rest') initial buffer' ∧
      buffer.length ≤ buffer'.length := by
  -- along the covering writes; those passed join the writes before
  induction rest generalizing before addr buffer D with
  | nil =>
    have hnew := h.storeUncovered hbefore (fun w hw => absurd hw not_mem_nil) hshort
    rw [append_nil] at hnew
    exact ⟨(MmapV1.storeUncovered false data addr stop buffer).1, _, rfl, hnew,
      length_le_storeUncovered⟩
  | cons cw rest ih =>
    have hcw : cw ∈ (before ++ cw :: rest) ++ initial.reverse := by simp
    have hahead : ∀ w ∈ rest, cw.stop ≤ w.addr :=
      (pairwise_cons.mp (pairwise_append.mp h.apart).2.1).1
    have haddr : addr < cw.stop := hrest cw rfl
    have hcovered : ∀ a, cw.addr ≤ a → a < cw.stop → D a := fun a hle hlt =>
      h.owned hcw ⟨hle, hlt⟩
    have hle : cw.addr ≤ cw.stop := Nat.le_add_right _ _
    rw [MmapV1.mergeLoop]
    by_cases hdone : stop ≤ addr
    · exact ⟨_, _, if_pos hdone, h.congr fun a => (or_inRange_iff hdone).symm, le_rfl⟩
    · rw [if_neg hdone, if_neg (not_le.mpr haddr)]
      have hnext : ∀ w ∈ cw :: rest, min cw.addr stop ≤ w.addr := by
        intro w hw
        rcases mem_cons.mp hw with rfl | hw
        · exact min_le_left _ _
        · exact ((min_le_left _ _).trans hle).trans (hahead w hw)
      have hnew := h.storeUncovered hbefore hnext (by omega)
      generalize hst : MmapV1.storeUncovered false data addr (min cw.addr stop) buffer = new at hnew
      have hlen : buffer.length ≤ new.2.length := hst ▸ length_le_storeUncovered
      by_cases hlast : stop ≤ cw.stop
      · refine ⟨_, _, if_pos hlast, hnew.congr fun a => ?_, hlen⟩
        exact (or_inRange_iff hlast).symm.trans (declared_past hcovered haddr.le)
      · have hhead : ¬ (rest.head?.any fun w => decide (w.addr < cw.stop)) = true := by
          cases rest with
          | nil => simp
          | cons w rest => simpa using hahead w mem_cons_self
        rw [if_neg hlast, if_neg hhead]
        have hsplit : before ++ (new.1 ++ cw :: rest) = (before ++ new.1 ++ [cw]) ++ rest := by simp
        rw [hsplit] at hnew
        have hpassed : ∀ v ∈ before ++ new.1 ++ [cw], v.stop ≤ cw.stop := by
          intro v hv
          rcases mem_append.mp hv with hv | hv
          · rcases mem_append.mp hv with hv | hv
            · exact (hbefore v hv).trans haddr.le
            · rw [← hst] at hv
              exact (storeUncovered_stop hv).le.trans ((min_le_left _ _).trans hle)
          · rw [mem_singleton.mp hv]
        have hcovering : ∀ w ∈ rest.head?, cw.stop < w.stop := by
          intro w hw
          have hw : w ∈ rest := mem_of_mem_head? hw
          have hpos : 0 < w.len := h.pos w (by simp [hw])
          exact Nat.lt_of_le_of_lt (hahead w hw) (Nat.lt_add_of_pos_right hpos)
        obtain ⟨rest', buffer', hloop, hkept, hlen'⟩ := ih hnew hpassed hcovering (by omega)
        refine ⟨new.1 ++ cw :: rest', buffer', ?_, ?_, hlen.trans hlen'⟩
        · rw [hloop]
          rfl
        · have hsplit' : before ++ (new.1 ++ cw :: rest') = (before ++ new.1 ++ [cw]) ++ rest' := by
            simp
          rw [hsplit']
          exact hkept.congr fun a => declared_past hcovered haddr.le

variable {kDebugBuild : Bool} {u : DurRecoveryUnit} {len : Nat}

/-- A unit of work that is under way. -/
structure Working (kDebugBuild : Bool) (begun : Data) (D : Nat → Prop) (data : Data)
    (u : DurRecoveryUnit) : Prop
    extends Kept begun D data u.mergedWrites u.initialWrites u.preimageBuffer where
  inUnit : u.inUnitOfWork = true
  enabled : u.rollbackWritesDisabled = false
  -- no initial write follows a merged one
  full : u.mergedWrites ≠ [] → kMaxUnmergedPreimageBytes kDebugBuild ≤ u.preimageBuffer.length
  counted : u.writeCount = 0 → u.stored = []

namespace Working
variable (h : Working kDebugBuild begun D data u)
include h

theorem congr {D' : Nat → Prop} (hD : ∀ a, D a ↔ D' a) : Working kDebugBuild begun D' data u :=
  { h with toKept := h.toKept.congr hD }

theorem count :
    Working kDebugBuild begun D data { u with writeCount := u.writeCount + 1 } :=
  { h with counted := fun hzero => absurd hzero (Nat.succ_ne_zero _) }

theorem mergingWritingPtr (hlen : len < intMax)
    (hover : kMaxUnmergedPreimageBytes kDebugBuild < u.preimageBuffer.length + len) (addr : Nat) :
    ∃ merged buffer, u.mergingWritingPtr data addr len =
        .ok { u with mergedWrites := merged, preimageBuffer := buffer } ∧
      Kept begun (fun a => D a ∨ InRange (addr, addr + len) a) data merged u.initialWrites buffer ∧
      kMaxUnmergedPreimageBytes kDebugBuild ≤ buffer.length := by
  have hkept := h.toKept
  rw [← @takeWhile_append_dropWhile Write (·.stop ≤ addr) u.mergedWrites] at hkept
  have hbefore : ∀ v ∈ u.mergedWrites.takeWhile (·.stop ≤ addr), v.stop ≤ addr := by
    intro v hv
    have hstop := mem_takeWhile_imp hv
    exact of_decide_eq_true hstop
  have hrest : ∀ w ∈ (u.mergedWrites.dropWhile (·.stop ≤ addr)).head?, addr < w.stop := by
    intro w hw
    have hnot := head?_dropWhile_not (fun w : Write => decide (w.stop ≤ addr)) u.mergedWrites
    rw [Option.mem_def.mp hw] at hnot
    exact not_le.mp (of_decide_eq_false hnot)
  have hshort : addr + len < addr + 2 ^ 31 := by
    simp only [intMax] at hlen
    omega
  obtain ⟨rest, buffer, hloop, hkept', hle⟩ := hkept.mergeLoop hbefore hrest hshort
  refine ⟨_, buffer, ?_, hkept', ?_⟩
  · rw [DurRecoveryUnit.mergingWritingPtr, h.enabled, hloop]
    rfl
  · by_cases hmerged : u.mergedWrites = []
    · -- the first merged write is stored whole
      rw [hmerged, dropWhile_nil, MmapV1.mergeLoop, storeUncovered] at hloop
      by_cases hpos : addr < addr + len
      · rw [if_pos hpos] at hloop
        obtain ⟨-, rfl⟩ := Prod.ext_iff.mp (Except.ok.inj hloop)
        simp only [Bool.false_eq_true, if_false, length_append, length_bytesAt]
        omega
      · omega
    · exact (h.full hmerged).trans hle

theorem pushInitial (hpos : 0 < len)
    (hlen : len < intMax)
    (hroom : u.preimageBuffer.length + len ≤ kMaxUnmergedPreimageBytes kDebugBuild) (addr : Nat) :
    Kept begun (fun a => D a ∨ InRange (addr, addr + len) a) data u.mergedWrites
      (u.initialWrites ++ [⟨addr, len, u.preimageBuffer.length⟩])
      (u.preimageBuffer ++ bytesAt data addr len) := by
  have hmerged : u.mergedWrites = [] := by
    by_contra hne
    have hfull := h.full hne
    omega
  have hlog : Log begun D data ([] ++ u.initialWrites.reverse) u.preimageBuffer := by
    have hlog := h.toLog
    rwa [hmerged] at hlog
  have hshort : len < 2 ^ 31 := by
    simp only [intMax] at hlen
    omega
  have hfree : ∀ w ∈ ([] : List Write), ∀ a, InRange (addr, addr + len) a →
      ¬ InRange w.range a := fun w hw => absurd hw not_mem_nil
  have hnew := hlog.store hpos hshort hfree
  refine ⟨?_, h.apart⟩
  simpa [hmerged] using hnew

theorem writingPtr (hlen : len < intMax)
    (addr : Nat) :
    ∃ u', u.writingPtr kDebugBuild data addr len = .ok u' ∧
      Working kDebugBuild begun (fun a => D a ∨ InRange (addr, addr + len) a) data u' := by
  unfold DurRecoveryUnit.writingPtr
  rw [if_neg (by simp [h.inUnit])]
  by_cases hzero : len = 0
  · exact ⟨u, if_pos hzero, h.congr fun a => (or_inRange_iff (by omega)).symm⟩
  · rw [if_neg hzero, if_neg (not_le.mpr hlen)]
    by_cases hover : kMaxUnmergedPreimageBytes kDebugBuild < u.preimageBuffer.length + len
    · obtain ⟨merged, buffer, hmerge, hkept, hfull⟩ := h.count.mergingWritingPtr hlen hover addr
      refine ⟨{ u with
        writeCount := u.writeCount + 1, mergedWrites := merged, preimageBuffer := buffer }, ?_, ?_⟩
      · rw [if_pos hover, hmerge]
        exact if_neg (not_lt.mpr hfull)
      · exact ⟨hkept, h.inUnit, h.enabled, fun _ => hfull, fun hcount => nomatch hcount⟩
    · have hkept := h.pushInitial (Nat.pos_of_ne_zero hzero) hlen (not_lt.mp hover) addr
      refine ⟨_, if_neg hover, ?_⟩
      unfold DurRecoveryUnit.pushInitial
      simp only [h.enabled, Bool.false_eq_true, if_false]
      refine ⟨hkept, h.inUnit, rfl, fun hne => ?_, fun hcount => nomatch hcount⟩
      exact (h.full hne).trans (by simp)

theorem writingPtr_ok_iff (addr len : Nat) :
    (∃ u', u.writingPtr kDebugBuild data addr len = .ok u') ↔ len < intMax := by
  constructor
  · rintro ⟨u', hok⟩
    by_contra hlen
    have hzero : len ≠ 0 := by
      simp only [intMax] at hlen
      omega
    rw [DurRecoveryUnit.writingPtr, if_neg (by simp [h.inUnit]), if_neg hzero,
      if_pos (not_lt.mp hlen)] at hok
    cases hok
  · intro hlen
    obtain ⟨u', hok, -⟩ := h.writingPtr hlen addr
    exact ⟨u', hok⟩

end Working

/-- A call for bytes behind all the merged writes. -/
theorem writingPtr_behind (hin : u.inUnitOfWork = true)
    (henabled : u.rollbackWritesDisabled = false) (hpos : 0 < len) (hlen : len < intMax) (hbehind : ∀ v ∈ u.mergedWrites, v.stop ≤ addr)
    (hover : kMaxUnmergedPreimageBytes kDebugBuild < u.preimageBuffer.length + len) :
    u.writingPtr kDebugBuild data addr len = .ok { u with
      writeCount := u.writeCount + 1
      mergedWrites := u.mergedWrites ++ [⟨addr, len, u.preimageBuffer.length⟩]
      preimageBuffer := u.preimageBuffer ++ bytesAt data addr len } := by
  have hdrop : u.mergedWrites.dropWhile (·.stop ≤ addr) = [] := by
    simpa using hbehind
  have htake : u.mergedWrites.takeWhile (·.stop ≤ addr) = u.mergedWrites := by
    simpa using hbehind
  have hfull : ¬ (u.preimageBuffer ++ bytesAt data addr len).length <
      kMaxUnmergedPreimageBytes kDebugBuild := by
    rw [length_append, length_bytesAt]
    omega
  have hloop : mergeLoop false data (addr + len) [] addr u.preimageBuffer =
      .ok ([⟨addr, len, u.preimageBuffer.length⟩], u.preimageBuffer ++ bytesAt data addr len) := by
    rw [mergeLoop, storeUncovered, if_pos (Nat.lt_add_of_pos_right hpos), Nat.add_sub_cancel_left]
    rfl
  rw [DurRecoveryUnit.writingPtr, if_neg (by simp [hin]), if_neg hpos.ne', if_neg (not_le.mpr hlen),
    if_pos hover, DurRecoveryUnit.mergingWritingPtr]
  simp only [hdrop, htake, henabled, hloop]
  exact if_neg hfull

end WritingPtr

section Rollback
variable {begun data : Data} {D : Nat → Prop} {l : List Write} {buffer : List UInt8} {w : Write}

theorem offset_of_lt (h : w.size < 2 ^ 31) : w.offset = w.size := by
  apply Int.bmod_eq_of_le
  · omega
  · omega

theorem offset_neg (hle : 2 ^ 31 ≤ w.size) (hlt : w.size < 2 ^ 32) : w.offset < 0 := by
  have hhigh : ¬ (w.size : Int) % (2 ^ 32 : Nat) < ((2 ^ 32 : Nat) + 1) / 2 := by omega
  have hoff : w.offset = w.size % (2 ^ 32 : Nat) - (2 ^ 32 : Nat) :=
    (Int.bmod_def _ _).trans (if_neg hhigh)
  omega

theorem copyPreimage_of_lt (hsize : w.size < 2 ^ 31) (hin : w.size + w.len ≤ buffer.length) :
    copyPreimage buffer data w = .ok (apply data (w.preimage buffer)) := by
  have hoff := offset_of_lt hsize
  have hreach : 0 ≤ w.offset ∧ w.offset ≤ buffer.length := by
    omega
  have hnat : w.offset.toNat = w.size := by rw [hoff, Int.toNat_natCast]
  unfold copyPreimage
  simp only [if_pos hreach, hnat]
  apply congrArg Except.ok
  funext a
  unfold apply Write.preimage
  split
  · rfl
  · rfl

theorem foldlM_copyPreimage (hsize : ∀ w ∈ l, w.size < 2 ^ 31)
    (hin : ∀ w ∈ l, w.size + w.len ≤ buffer.length) (data : Data) :
    l.foldlM (copyPreimage buffer) data = .ok (replay (l.map (Write.preimage buffer)) data) := by
  induction l generalizing data with
  | nil => rfl
  | cons w l ih =>
    have hcopy := @copyPreimage_of_lt data buffer w (hsize w mem_cons_self)
      (hin w mem_cons_self)
    rw [foldlM_cons, hcopy]
    exact ih (forall_mem_cons.mp hsize).2
      (forall_mem_cons.mp hin).2 _

theorem foldlM_copyPreimage_error (h : ∃ w ∈ l, w.offset < 0) (data : Data) :
    l.foldlM (copyPreimage buffer) data = .error .outOfRange := by
  induction l generalizing data with
  | nil =>
    obtain ⟨w, hw, -⟩ := h
    cases hw
  | cons v l ih =>
    rw [foldlM_cons]
    by_cases hv : 0 ≤ v.offset ∧ v.offset ≤ buffer.length
    · rw [copyPreimage, if_pos hv]
      obtain ⟨w, hw, hneg⟩ := h
      rcases mem_cons.mp hw with rfl | hw
      · omega
      · exact ih ⟨w, hw, hneg⟩ _
    · rw [copyPreimage, if_neg hv]
      rfl

/-- As no pre-image is longer than an `int`, the first one out of reach has a negative offset. -/
theorem Log.exists_offset_neg (h : Log begun D data l buffer) {n : Nat} (hw : w ∈ l)
    (hn : w.size = n) (hle : 2 ^ 31 ≤ n) : ∃ v ∈ l, v.offset < 0 := by
  induction n using Nat.strong_induction_on generalizing w with
  | h n ih =>
    by_cases hlt : n < 2 ^ 32
    · exact ⟨w, hw, offset_neg (hn ▸ hle) (hn ▸ hlt)⟩
    · rcases h.starts w hw with hzero | ⟨v, hv, hsum⟩
      · omega
      · have hpos := h.pos v hv
        have hshort := h.short v hv
        exact ih v.size (by omega) hv rfl (by omega)

theorem Log.foldlM_iff (h : Log begun D data l buffer) :
    l.foldlM (copyPreimage buffer) data = .ok begun ↔ ∀ w ∈ l, w.size < 2 ^ 31 := by
  constructor
  · intro hok w hw
    by_contra hsize
    obtain ⟨v, hv, hneg⟩ := h.exists_offset_neg hw rfl (not_lt.mp hsize)
    rw [foldlM_copyPreimage_error ⟨v, hv, hneg⟩] at hok
    cases hok
  · intro hsize
    rw [foldlM_copyPreimage hsize h.inside, h.undo]

variable {kDebugBuild : Bool} {u : DurRecoveryUnit}

namespace Working
variable (h : Working kDebugBuild begun D data u)
include h

theorem abort_eq : u.abortUnitOfWork data =
    (u.stored.foldlM (copyPreimage u.preimageBuffer) data).map fun d => (.fresh, d) := by
  rw [DurRecoveryUnit.abortUnitOfWork, if_neg (by simp [h.inUnit]), DurRecoveryUnit.rollbackChanges,
    if_neg (by simp [h.enabled])]
  rfl

theorem abort_iff :
    u.abortUnitOfWork data = .ok (.fresh, begun) ↔ ∀ w ∈ u.stored, w.size < 2 ^ 31 := by
  rw [h.abort_eq]
  constructor
  · intro hok
    obtain ⟨d, hfold, hd⟩ := Outcome.map_eq_ok hok
    cases hd
    exact h.toLog.foldlM_iff.mp hfold
  · intro hsize
    rw [DurRecoveryUnit.stored, h.toLog.foldlM_iff.mpr hsize]
    rfl

theorem abort_error (hw : w ∈ u.stored)
    (hsize : 2 ^ 31 ≤ w.size) : u.abortUnitOfWork data = .error .outOfRange := by
  have hneg : ∃ v ∈ u.stored, v.offset < 0 := h.toLog.exists_offset_neg hw rfl hsize
  rw [h.abort_eq, foldlM_copyPreimage_error hneg]
  rfl

end Working

end Rollback

end MongolDb.MmapV1
