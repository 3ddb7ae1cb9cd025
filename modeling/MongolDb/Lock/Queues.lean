import MongolDb.Lock.Head

/-! The two queues of a lock head: what their requests and counters satisfy, and that each
way a request enters, changes or leaves keeps it. -/
namespace MongolDb.Lock
open LockMode Keyed List LockRequest

variable {l : List LockRequest} {c c' : ModeCounts} {m : LockMode} {n n' : LockMode → Nat}
  {r q : LockRequest} {conversions : Nat} {f : LockRequest → LockRequest}

/-- The counters are `n`, and the mask has the modes with a count. -/
structure ModeCounts.Counts (c : ModeCounts) (n : LockMode → Nat) : Prop where
  counts : ∀ m, c.counts m = n m
  modes : ∀ m, m ∈ c.modes ↔ n m ≠ 0

theorem ModeCounts.counts_zero : zero.Counts fun _ => 0 := ⟨fun _ => rfl, by simp [zero]⟩

theorem ModeCounts.of_inc (h : c.inc m = some c') :
    c'.counts = Function.update c.counts m (c.counts m + 1) ∧
      c'.modes = if c.counts m = 0 then insert m c.modes else c.modes := by
  simp only [inc, Function.update_self, Nat.add_eq_right] at h
  split_ifs at h with hone <;> cases h <;> simp [hone]

theorem ModeCounts.of_dec (h : c.dec m = some c') :
    c.counts m ≠ 0 ∧ c'.counts = Function.update c.counts m (c.counts m - 1) ∧
      c'.modes = if c'.counts m = 0 then c.modes.erase m else c.modes := by
  simp only [dec, Function.update_self] at h
  split_ifs at h with hpos hzero <;> cases h <;> simp [hpos, hzero]

theorem ModeCounts.Counts.inc (hc : c.Counts n) (h : c.inc m = some c')
    (hn : ∀ i, n' i = n i + if m = i then 1 else 0) : c'.Counts n' := by
  obtain ⟨hcounts, hmodes⟩ := of_inc h
  constructor
  · intro i
    rw [hcounts, hn]
    by_cases hi : m = i
    · subst hi
      simp [hc.counts]
    · simp [Function.update_of_ne (Ne.symm hi), hi, hc.counts]
  · intro i
    have hmem := hc.modes i
    rw [hmodes, hc.counts, hn]
    by_cases hi : m = i
    · subst hi
      by_cases hzero : n m = 0 <;> simp [hmem, hzero]
    · split_ifs <;> simp [hmem, Ne.symm hi]

theorem ModeCounts.Counts.dec (hc : c.Counts n) (h : c.dec m = some c')
    (hn : ∀ i, n' i + (if m = i then 1 else 0) = n i) : c'.Counts n' := by
  obtain ⟨hpos, hcounts, hmodes⟩ := of_dec h
  have hcounts : ∀ i, c'.counts i = n' i := by
    intro i
    rw [hcounts]
    have hi := hn i
    by_cases he : m = i
    · subst he
      rw [if_pos rfl] at hi
      rw [Function.update_self, hc.counts, ← hi, Nat.add_sub_cancel]
    · rw [Function.update_of_ne (Ne.symm he), hc.counts, ← hi, if_neg he, Nat.add_zero]
  refine ⟨hcounts, fun i => ?_⟩
  have hmem := hc.modes i
  rw [hmodes, hcounts, ← hn] at *
  by_cases hi : m = i
  · subst hi
    split_ifs with hzero <;> simp [hmem, hzero]
  · split_ifs <;> simp [hmem, hi, Ne.symm hi]

/-- How often a request counts for a mode: once for the mode it holds, once for the mode it
waits to convert to. -/
def LockRequest.weight (r : LockRequest) (m : LockMode) : Nat :=
  (if r.mode = m then 1 else 0) + if r.status = .converting ∧ r.convertMode = m then 1 else 0

/-- The requests holding `m` and those converting to it. -/
def holding (l : List LockRequest) (m : LockMode) : Nat :=
  l.countP (fun r => r.mode = m) + l.countP fun r => r.status = .converting ∧ r.convertMode = m

def waitingFor (l : List LockRequest) (m : LockMode) : Nat :=
  l.countP fun r => r.mode = m

theorem holding_append (l : List LockRequest) (r : LockRequest) (m : LockMode) :
    holding (l ++ [r]) m = holding l m + r.weight m := by
  simp only [holding, weight, countP_append, countP_singleton,
    decide_eq_true_eq]
  omega

theorem holding_erase (h : (l.map LockRequest.id).Nodup) (hr : r ∈ l) (m : LockMode) :
    holding (erase LockRequest.id r.id l) m + r.weight m = holding l m := by
  have h₁ := countP_erase (fun q : LockRequest => decide (q.mode = m)) h hr rfl
  have h₂ := countP_erase
    (fun q : LockRequest => decide (q.status = .converting ∧ q.convertMode = m)) h hr rfl
  simp only [decide_eq_true_eq] at h₁ h₂
  simp only [holding, weight]
  omega

theorem holding_modify (h : (l.map LockRequest.id).Nodup) (hr : r ∈ l) (m : LockMode) :
    holding (modify LockRequest.id r.id f l) m + r.weight m = holding l m + (f r).weight m := by
  have h₁ := countP_modify (f := f) (fun q : LockRequest => decide (q.mode = m)) h hr rfl
  have h₂ := countP_modify (f := f)
    (fun q : LockRequest => decide (q.status = .converting ∧ q.convertMode = m)) h hr rfl
  simp only [decide_eq_true_eq] at h₁ h₂
  simp only [holding, weight]
  omega

theorem holding_ne_zero : holding l m ≠ 0 ↔
    ∃ r ∈ l, r.mode = m ∨ (r.status = .converting ∧ r.convertMode = m) := by
  rw [holding, ← Nat.pos_iff_ne_zero, Nat.add_pos_iff_pos_or_pos, countP_pos_iff,
    countP_pos_iff]
  simp only [decide_eq_true_eq]
  constructor
  · rintro (⟨r, hr, h⟩ | ⟨r, hr, h⟩)
    · exact ⟨r, hr, .inl h⟩
    · exact ⟨r, hr, .inr h⟩
  · rintro ⟨r, hr, h | h⟩
    · exact .inl ⟨r, hr, h⟩
    · exact .inr ⟨r, hr, h⟩

/-- A request that may stand on a granted queue. -/
structure LockRequest.Held (r : LockRequest) : Prop where
  mode : r.mode ≠ modeNone
  status : (r.status = .granted ∧ r.convertMode = modeNone) ∨
    (r.status = .converting ∧ r.convertMode ≠ modeNone ∧ r.mode ≠ r.convertMode ∧
      covers r.convertMode r.mode)
  call : ∀ m, r.call = .convert m → r.status = .granted ∧ covers m r.mode ∧ ¬ covers r.mode m

theorem LockRequest.Held.convertMode_of_granted (h : r.Held) (hs : r.status = .granted) :
    r.convertMode = modeNone := by
  rcases h.status with hst | hst
  · exact hst.2
  · exact absurd (hs.symm.trans hst.1) (by simp)

/-- `q` is in the way of `r` converting to `m`. -/
def LockRequest.Blocks (q : LockRequest) (m : LockMode) : Prop :=
  Conflict m q.mode ∨ (q.status = .converting ∧ Conflict m q.convertMode)

instance (q : LockRequest) (m : LockMode) : Decidable (q.Blocks m) :=
  inferInstanceAs (Decidable (_ ∨ _))

/-- The granted queue with its counters. -/
structure GrantedQueue (l : List LockRequest) (c : ModeCounts) (conversions : Nat) : Prop where
  nodup : (l.map LockRequest.id).Nodup
  held : ∀ r ∈ l, r.Held
  counts : c.Counts (holding l)
  conversions : conversions = l.countP fun r => r.status = .converting
  compatible : ∀ r ∈ l, ∀ q ∈ l, r.id ≠ q.id → ¬ Conflict r.mode q.mode

/-- The conflict queue with its counters. -/
structure ConflictQueue (l : List LockRequest) (c : ModeCounts) : Prop where
  nodup : (l.map LockRequest.id).Nodup
  waiting : ∀ r ∈ l, r.status = .waiting ∧ r.mode ≠ modeNone ∧ r.convertMode = modeNone ∧
    ∀ m, r.call ≠ .convert m
  counts : c.Counts (waitingFor l)

theorem weight_granted (hs : r.status = .granted) (m : LockMode) :
    r.weight m = r.currentRequestHolds m := by
  simp [weight, currentRequestHolds, hs]

theorem weight_converting (hs : r.status = .converting) (m : LockMode) :
    r.weight m = r.currentRequestHolds m + r.currentRequestWaits m := by
  simp [weight, currentRequestHolds, currentRequestWaits, hs]

theorem holds_le_holding (hr : r ∈ l) (m : LockMode) : r.currentRequestHolds m ≤ holding l m := by
  unfold currentRequestHolds
  split
  · next hm => exact Nat.pos_of_ne_zero (holding_ne_zero.mpr ⟨r, hr, .inl hm⟩)
  · exact Nat.zero_le _

theorem waits_le_holding (hr : r ∈ l) (hs : r.status = .converting) (m : LockMode) :
    r.currentRequestWaits m ≤ holding l m := by
  unfold currentRequestWaits
  split
  · next hm => exact Nat.pos_of_ne_zero (holding_ne_zero.mpr ⟨r, hr, .inr ⟨hs, hm⟩⟩)
  · exact Nat.zero_le _

namespace GrantedQueue

section
variable (hg : GrantedQueue l c conversions)
include hg

theorem mem_modes :
    m ∈ c.modes ↔ ∃ r ∈ l, r.mode = m ∨ (r.status = .converting ∧ r.convertMode = m) := by
  rw [hg.counts.modes, holding_ne_zero]

theorem conflicts_modes : conflicts m c.modes ↔ ∃ q ∈ l, q.Blocks m := by
  rw [conflicts_iff]
  constructor
  · rintro ⟨m', hm', hc⟩
    obtain ⟨q, hq, rfl | ⟨hs, rfl⟩⟩ := hg.mem_modes.mp hm'
    · exact ⟨q, hq, .inl hc⟩
    · exact ⟨q, hq, .inr ⟨hs, hc⟩⟩
  · rintro ⟨q, hq, hc | ⟨hs, hc⟩⟩
    · exact ⟨q.mode, hg.mem_modes.mpr ⟨q, hq, .inl rfl⟩, hc⟩
    · exact ⟨q.convertMode, hg.mem_modes.mpr ⟨q, hq, .inr ⟨hs, rfl⟩⟩, hc⟩

/-- The mask without a request's own contribution has exactly the modes of the others. -/
theorem conflicts_without (hr : r ∈ l)
    {own : LockMode → Nat} (hown : ∀ m ≠ modeNone, own m = r.weight m) :
    conflicts m (c.without own) ↔ ∃ q ∈ l, q.id ≠ r.id ∧ q.Blocks m := by
  have hmem : ∀ i, i ∈ c.without own ↔
      i ≠ modeNone ∧ holding (erase LockRequest.id r.id l) i ≠ 0 := by
    intro i
    have hw := holding_erase hg.nodup hr i
    have hsupp : i ∈ ({modeIS, modeIX, modeS, modeX} : Finset LockMode) ↔ i ≠ modeNone := by
      cases i <;> simp
    rw [ModeCounts.without, Finset.mem_filter, hsupp, hg.counts.counts]
    constructor
    · rintro ⟨hi, h⟩
      rw [hown i hi] at h
      exact ⟨hi, by omega⟩
    · rintro ⟨hi, h⟩
      rw [hown i hi]
      exact ⟨hi, by omega⟩
  rw [conflicts_iff]
  constructor
  · rintro ⟨i, hi, hc⟩
    obtain ⟨q, hq, hqm⟩ := holding_ne_zero.mp ((hmem i).mp hi).2
    rw [mem_erase] at hq
    refine ⟨q, hq.1, hq.2, ?_⟩
    rcases hqm with rfl | ⟨hs, rfl⟩
    · exact .inl hc
    · exact .inr ⟨hs, hc⟩
  · rintro ⟨q, hq, hne, hb⟩
    have hqe : q ∈ erase LockRequest.id r.id l := mem_erase.mpr ⟨hq, hne⟩
    rcases hb with hc | ⟨hs, hc⟩
    · refine ⟨q.mode, (hmem _).mpr ⟨(hg.held q hq).mode, ?_⟩, hc⟩
      exact holding_ne_zero.mpr ⟨q, hqe, .inl rfl⟩
    · refine ⟨q.convertMode, (hmem _).mpr ⟨fun he => not_conflict_modeNone (he ▸ hc), ?_⟩, hc⟩
      exact holding_ne_zero.mpr ⟨q, hqe, .inr ⟨hs, rfl⟩⟩

theorem push (hr : r.Held) (hs : r.status = .granted)
    (hnew : ∀ q ∈ l, q.id ≠ r.id) (hm : ¬ conflicts r.mode c.modes)
    (hc : c.inc r.mode = some c') : GrantedQueue (l ++ [r]) c' conversions where
  nodup := by
    rw [map_append, nodup_append]
    refine ⟨hg.nodup, by simp, ?_⟩
    intro a ha b hb
    obtain ⟨q, hq, rfl⟩ := mem_map.mp ha
    simp only [map_cons, map_nil, mem_singleton] at hb
    exact hb ▸ hnew q hq
  held := by
    intro q hq
    rcases mem_append.mp hq with hq | hq
    · exact hg.held q hq
    · rwa [mem_singleton.mp hq]
  counts := hg.counts.inc hc fun i => by
    rw [holding_append, weight_granted hs, currentRequestHolds]
  conversions := by simp [hg.conversions, hs]
  compatible := by
    have hfree : ∀ q ∈ l, ¬ Conflict r.mode q.mode := fun q hq hcf =>
      hm (hg.conflicts_modes.mpr ⟨q, hq, .inl hcf⟩)
    intro a ha b hb hne
    rcases mem_append.mp ha with ha | ha <;> rcases mem_append.mp hb with hb | hb
    · exact hg.compatible a ha b hb hne
    · rw [mem_singleton.mp hb, conflict_comm]
      exact hfree a ha
    · rw [mem_singleton.mp ha]
      exact hfree b hb
    · exact absurd (by rw [mem_singleton.mp ha, mem_singleton.mp hb]) hne

theorem remove (hr : r ∈ l) (hs : r.status = .granted) (hc : c.dec r.mode = some c') :
    GrantedQueue (erase LockRequest.id r.id l) c' conversions where
  nodup := nodup_erase hg.nodup
  held := fun q hq => hg.held q (mem_erase.mp hq).1
  counts := hg.counts.dec hc fun i => by
    rw [← holding_erase hg.nodup hr i, weight_granted hs, currentRequestHolds]
  conversions := by
    have := countP_erase (fun q : LockRequest => decide (q.status = .converting)) hg.nodup hr rfl
    simp only [hs, reduceCtorEq, decide_false, Bool.false_eq_true, if_false, Nat.add_zero] at this
    rw [hg.conversions, this]
  compatible := fun a ha b hb =>
    hg.compatible a (mem_erase.mp ha).1 b (mem_erase.mp hb).1

/-- A request may change in place when its new self is held, fits with the others and is
counted. -/
theorem replace {k : Nat} {v : LockMode → Nat}
    (hr : r ∈ l) (hf : ∀ q, (f q).id = q.id) (hheld : (f r).Held)
    (hcompat : ∀ q ∈ l, q.id ≠ r.id → ¬ Conflict (f r).mode q.mode)
    (hc : c'.Counts v) (hn : ∀ i, v i + r.weight i = holding l i + (f r).weight i)
    (hconv : k + (if r.status = .converting then 1 else 0)
      = conversions + if (f r).status = .converting then 1 else 0) :
    GrantedQueue (modify LockRequest.id r.id f l) c' k := by
  have hone : ∀ q ∈ l, q.id = r.id → q = r := fun q hq => eq_of_key_eq hg.nodup hq hr
  refine ⟨?_, ?_, ?_, ?_, ?_⟩
  · rw [map_key_modify hf]
    exact hg.nodup
  · intro q hq
    rcases mem_modify.mp hq with ⟨hq, -⟩ | ⟨a, ha, hid, rfl⟩
    · exact hg.held q hq
    · rwa [hone a ha hid]
  · have : v = holding (modify LockRequest.id r.id f l) := by
      funext i
      have h₁ := hn i
      have h₂ := holding_modify (f := f) hg.nodup hr i
      omega
    exact this ▸ hc
  · have := countP_modify (f := f) (fun q : LockRequest => decide (q.status = .converting))
      hg.nodup hr rfl
    simp only [decide_eq_true_eq] at this
    rw [hg.conversions] at hconv
    omega
  · intro a ha b hb hne
    rcases mem_modify.mp ha with ⟨ha', hane⟩ | ⟨a', ha', hid, rfl⟩ <;>
      rcases mem_modify.mp hb with ⟨hb', hbne⟩ | ⟨b', hb', hid', rfl⟩
    · exact hg.compatible a ha' b hb' hne
    · rw [hone b' hb' hid', conflict_comm]
      exact hcompat a ha' hane
    · rw [hone a' ha' hid]
      exact hcompat b hb' hbne
    · exact absurd (by rw [hone a' ha' hid, hone b' hb' hid']) hne

end

end GrantedQueue

namespace ConflictQueue

theorem mem_modes (hq : ConflictQueue l c) : m ∈ c.modes ↔ ∃ r ∈ l, r.mode = m := by
  rw [hq.counts.modes, waitingFor, ← Nat.pos_iff_ne_zero, countP_pos_iff]
  simp

theorem cons (hq : ConflictQueue l c) (hs : r.status = .waiting) (hm : r.mode ≠ modeNone)
    (hv : r.convertMode = modeNone) (hcall : ∀ m, r.call ≠ .convert m)
    (hnew : ∀ q ∈ l, q.id ≠ r.id) (hc : c.inc r.mode = some c') : ConflictQueue (r :: l) c' where
  nodup := by
    rw [map_cons, nodup_cons]
    refine ⟨?_, hq.nodup⟩
    rw [mem_map]
    rintro ⟨q, hql, he⟩
    exact hnew q hql he
  waiting := by
    intro q hql
    rcases mem_cons.mp hql with rfl | hql
    · exact ⟨hs, hm, hv, hcall⟩
    · exact hq.waiting q hql
  counts := hq.counts.inc hc fun i => by
    simp [waitingFor, countP_cons]

theorem perm {l' : List LockRequest} (hq : ConflictQueue l c) (hp : l.Perm l') :
    ConflictQueue l' c where
  nodup := ((hp.map LockRequest.id).nodup_iff).mp hq.nodup
  waiting := fun r hr => hq.waiting r (hp.mem_iff.mpr hr)
  counts := by
    have : waitingFor l = waitingFor l' := by
      funext i
      exact hp.countP_eq _
    exact this ▸ hq.counts

theorem remove (hq : ConflictQueue l c) (hr : r ∈ l) (hc : c.dec r.mode = some c') :
    ConflictQueue (erase LockRequest.id r.id l) c' where
  nodup := nodup_erase hq.nodup
  waiting := fun q hql => hq.waiting q (mem_erase.mp hql).1
  counts := hq.counts.dec hc fun i => by
    have := countP_erase (fun q : LockRequest => decide (q.mode = i)) hq.nodup hr rfl
    simpa [waitingFor] using this

/-- A waiting request may change in every field but its mode and status. -/
theorem replace (hq : ConflictQueue l c) (hr : r ∈ l)
    (hf : ∀ q, (f q).id = q.id) (hs : (f r).status = r.status) (hm : (f r).mode = r.mode)
    (hv : (f r).convertMode = r.convertMode) (hcall : ∀ m, (f r).call ≠ .convert m) :
    ConflictQueue (modify LockRequest.id r.id f l) c := by
  have hone : ∀ q ∈ l, q.id = r.id → q = r := fun q hql => eq_of_key_eq hq.nodup hql hr
  refine ⟨?_, ?_, ?_⟩
  · rw [map_key_modify hf]
    exact hq.nodup
  · intro q hql
    rcases mem_modify.mp hql with ⟨hql, -⟩ | ⟨a, ha, hid, rfl⟩
    · exact hq.waiting q hql
    · rw [hone a ha hid, hs, hm, hv]
      obtain ⟨h₁, h₂, h₃, -⟩ := hq.waiting r hr
      exact ⟨h₁, h₂, h₃, hcall⟩
  · have : waitingFor l = waitingFor (modify LockRequest.id r.id f l) := by
      funext i
      have := countP_modify (f := f) (fun q : LockRequest => decide (q.mode = i)) hq.nodup hr rfl
      simp only [hm] at this
      simp only [waitingFor]
      omega
    exact this ▸ hq.counts

end ConflictQueue

end MongolDb.Lock
