import MongolDb.MmapV1.JournalFiles

/-! What recovery finds after a crash at any point of a run. -/
namespace MongolDb.MmapV1
open Overwrite Transition List Nat

namespace State
variable {cfg : Config} {d : Data} {s t : State} {lsnFile : Option (Option LSNFile)}

/-- The sections prepared so far. -/
def sections (s : State) : List JSection := s.log ++ s.writer.queued.toList

/-- How far each copy of the data is. -/
structure DataInv (cfg : Config) (d : Data) (s : State) : Prop where
  copied_le : s.copied ≤ s.log.length
  buffer : s.sections.drop s.copied = s.writer.buffer.toList
  toCopy : ∀ e ∈ s.writer.toCopy, ∃ sec ∈ s.log.drop s.copied, e ∈ sec.entries
  shared : replay (s.writer.toCopy.map (JEntry.patch cfg.size)) s.shared = commit cfg.size s.log d
  flushed_le : s.flushed ≤ s.copied
  disk : Repairs (patches cfg.size (s.log.drop s.flushed)) s.disk (commit cfg.size s.log d)
  flush : ∀ pending, s.flush = some pending → s.flushed ≤ s.flushStart ∧ s.flushStart ≤ s.copied ∧
    ∀ a ∉ pending, Untouched (patches cfg.size (s.log.drop s.flushStart)) a →
      s.disk a = commit cfg.size s.log d a

/-- What the clock says about the sections that a flush has not put on disk. -/
structure TimeInv (s : State) : Prop where
  lastFlush_le : s.lastFlushTime ≤ s.preFlushTime
  preFlush_le : s.preFlushTime ≤ s.now
  lsn_le : ∀ v ∈ s.lsn, v ≤ s.lastFlushTime
  seq_le : ∀ sec ∈ s.sections, sec.header.seqNumber ≤ s.lastFlushTime
  sorted : s.sections.Pairwise fun x y => x.header.seqNumber ≤ y.header.seqNumber
  unflushed : ∀ sec ∈ s.sections.drop s.flushed,
    s.lastFlushTime ≤ sec.header.seqNumber + ExtraKeepTimeMs
  flushing : s.flush ≠ none → ∀ sec ∈ s.sections.drop s.flushStart,
    s.preFlushTime ≤ sec.header.seqNumber + ExtraKeepTimeMs
  removed_le : s.removed ≤ s.flushed

theorem patches_drop_subset (log : List JSection) {m n : Nat} (h : m ≤ n) :
    patches cfg.size (log.drop n) ⊆ patches cfg.size (log.drop m) := by
  apply patches_subset
  obtain ⟨k, rfl⟩ := Nat.exists_eq_add_of_le h
  rw [← drop_drop]
  exact drop_subset k _

section
variable (h : DataInv cfg d s)
include h

theorem DataInv.shared_repairs {k : Nat} (hk : k ≤ s.copied) :
    Repairs (patches cfg.size (s.log.drop k)) s.shared (commit cfg.size s.log d) := by
  refine (Repairs.of_replay h.shared).mono ?_
  intro p hp
  obtain ⟨e, he, rfl⟩ := mem_map.mp hp
  obtain ⟨sec, hsec, hmem⟩ := h.toCopy e he
  apply patches_drop_subset s.log hk
  exact mem_flatMap.mpr ⟨sec, hsec, mem_map_of_mem hmem⟩

omit h in
theorem dataInv_init (cfg : Config) (d : Data) (fileId : Nat) (preallocated : Bool) :
    DataInv cfg d (init d fileId preallocated) where
  copied_le := le_refl 0
  buffer := rfl
  toCopy := fun _ he => absurd he not_mem_nil
  shared := rfl
  flushed_le := le_refl 0
  disk := fun _ _ => rfl
  flush := fun _ hf => absurd hf.symm (Option.some_ne_none _)

/-- A step of the journal writer that changes neither the log nor the data. -/
theorem DataInv.move {w : Writer} (hw : s.writer = w)
    (hwriter : (t.writer.queued, t.writer.buffer, t.writer.toCopy) = (w.queued, w.buffer, w.toCopy))
    (hdata : (t.log, t.copied, t.shared, t.disk, t.flush, t.flushStart, t.flushed) =
      (s.log, s.copied, s.shared, s.disk, s.flush, s.flushStart, s.flushed)) : DataInv cfg d t := by
  simp only [Prod.mk.injEq] at hwriter hdata
  obtain ⟨hqueued, hbuffer, hcopy⟩ := hwriter
  obtain ⟨hlog, hcopied, hshared, hdisk, hflush, hstart, hflushed⟩ := hdata
  obtain ⟨h1, h2, h3, h4, h5, h6, h7⟩ := h
  rw [sections, hw] at h2
  rw [hw] at h3 h4
  constructor <;>
    simp only [sections, hlog, hcopied, hshared, hdisk, hflush, hstart, hflushed, hqueued,
      hbuffer, hcopy] <;> assumption

theorem DataInv.prepare (hstep : s.prepare cfg = some t) : DataInv cfg d t := by
  obtain ⟨f, hw, -, rfl⟩ := prepare_eq_some hstep
  have hbuffer := h.buffer
  have hshared := h.shared
  rw [sections, hw] at hbuffer
  rw [hw] at hshared
  refine ⟨h.copied_le, ?_, fun _ he => absurd he not_mem_nil, hshared, h.flushed_le, h.disk,
    h.flush⟩
  have hdone : s.log.drop s.copied = [] := by simpa [Writer.queued, Writer.buffer] using hbuffer
  show (s.log ++ [_]).drop s.copied = [_]
  rw [drop_append_of_le_length h.copied_le, hdone]
  rfl

theorem DataInv.endAppend (hstep : s.endAppend = some t) : DataInv cfg d t := by
  obtain ⟨sec, f, hw, -, rfl⟩ := endAppend_eq_some hstep
  have hbuffer : (s.log ++ [sec]).drop s.copied = [sec] := by
    have hb := h.buffer
    rw [sections, hw] at hb
    exact hb
  have hshared : s.shared = commit cfg.size s.log d := by
    have hs := h.shared
    rw [hw] at hs
    exact hs
  have hcopied := h.copied_le
  have hdrop : ∀ {n}, n ≤ s.copied → (s.log ++ [sec]).drop n = s.log.drop n ++ [sec] := by
    intro n hn
    exact drop_append_of_le_length (le_trans hn hcopied)
  have hpatches : ∀ {n}, n ≤ s.copied → patches cfg.size ((s.log ++ [sec]).drop n) =
      patches cfg.size (s.log.drop n) ++ patches cfg.size [sec] := by
    intro n hn
    rw [hdrop hn, patches_append]
  refine ⟨?_, ?_, ?_, ?_, h.flushed_le, ?_, ?_⟩
  · show s.copied ≤ (s.log ++ [sec]).length
    rw [length_append]
    omega
  · show (s.log ++ [sec] ++ []).drop s.copied = [sec]
    rw [append_nil, hbuffer]
  · intro e he
    refine ⟨sec, ?_, he⟩
    rw [hbuffer]
    exact mem_singleton.mpr rfl
  · show replay (sec.entries.map (JEntry.patch cfg.size)) s.shared = commit cfg.size (s.log ++ [sec]) d
    rw [commit_append, hshared, commit_singleton]
  · show Repairs (patches cfg.size ((s.log ++ [sec]).drop s.flushed)) s.disk _
    rw [hpatches h.flushed_le, commit_append]
    exact h.disk.extend _
  · intro pending hpending
    obtain ⟨hle, hstart, hdisk⟩ := h.flush pending hpending
    refine ⟨hle, hstart, ?_⟩
    intro a ha huntouched
    rw [hpatches hstart] at huntouched
    have hnew : Untouched (patches cfg.size [sec]) a :=
      fun p hp => huntouched p (mem_append_right _ hp)
    rw [commit_append, commit, replay_of_untouched hnew]
    exact hdisk a ha fun p hp => huntouched p (mem_append_left _ hp)

theorem DataInv.copyEntry (hstep : s.copyEntry cfg = some t) : DataInv cfg d t := by
  have hbuffer := h.buffer
  have hcopy := h.toCopy
  have hshared := h.shared
  rcases copyEntry_eq_some hstep with ⟨sec, e, rest, hw, rfl⟩ | ⟨sec, hw, rfl⟩
  · rw [hw] at hcopy hshared
    rw [sections, hw] at hbuffer
    exact ⟨h.copied_le, hbuffer, fun e' he => hcopy e' (mem_cons_of_mem e he), hshared,
      h.flushed_le, h.disk, h.flush⟩
  · rw [hw] at hshared
    rw [sections, hw] at hbuffer
    have hlast : s.log.drop s.copied = [sec] := by simpa [Writer.queued, Writer.buffer] using hbuffer
    have hlen := congrArg length hlast
    rw [length_drop, length_singleton] at hlen
    refine ⟨?_, ?_, fun _ he => absurd he not_mem_nil, hshared, ?_, h.disk, ?_⟩
    · show s.copied + 1 ≤ s.log.length
      omega
    · show (s.log ++ []).drop (s.copied + 1) = []
      rw [append_nil, ← drop_drop, hlast]
      rfl
    · exact le_succ_of_le h.flushed_le
    · intro pending hpending
      obtain ⟨hle, hstart, hdisk⟩ := h.flush pending hpending
      exact ⟨hle, le_succ_of_le hstart, hdisk⟩

omit h in
/-- A byte of the shared view reaches the disk. -/
theorem disk_toDisk {a b : Nat} {x : UInt8} (hshared : s.shared b = x) (hdisk : b ≠ a → s.disk b = x) :
    (s.toDisk a).disk b = x := by
  by_cases hab : b = a
  · subst hab
    exact (Function.update_self ..).trans hshared
  · exact (Function.update_of_ne hab ..).trans (hdisk hab)

theorem DataInv.toDisk (a : Nat) : DataInv cfg d (s.toDisk a) := by
  refine { h with disk := ?_, flush := ?_ }
  · intro b hb
    exact disk_toDisk (h.shared_repairs h.flushed_le b hb) fun _ => h.disk b hb
  · intro pending hpending
    obtain ⟨hle, hstart, hdisk⟩ := h.flush pending hpending
    refine ⟨hle, hstart, ?_⟩
    intro b hb huntouched
    exact disk_toDisk (h.shared_repairs hstart b huntouched) fun _ => hdisk b hb huntouched

theorem DataInv.preFlush (hstep : s.preFlush cfg = some t) : DataInv cfg d t := by
  obtain ⟨-, rfl⟩ := preFlush_eq_some hstep
  refine { h with flush := ?_ }
  intro pending hpending
  refine ⟨h.flushed_le, le_refl _, ?_⟩
  intro a ha _
  -- no entry reaches behind the end of the files
  cases Option.some.inj hpending
  exact h.disk a (untouched_of_le _ (Nat.le_of_not_lt fun hlt => ha (mem_range.mpr hlt)))

theorem DataInv.flushByte {a : Nat} (hstep : s.flushByte a = some t) : DataInv cfg d t := by
  obtain ⟨pending, hpending, rfl⟩ := flushByte_eq_some hstep
  refine { h.toDisk a with flush := ?_ }
  intro left hleft
  cases Option.some.inj hleft
  obtain ⟨hle, hstart, hdone⟩ := h.flush pending hpending
  refine ⟨hle, hstart, ?_⟩
  intro b hb huntouched
  apply disk_toDisk (h.shared_repairs hstart b huntouched)
  intro hab
  refine hdone b (fun hmem => hb ?_) huntouched
  exact mem_filter.mpr ⟨hmem, decide_eq_true hab⟩

theorem DataInv.postFlush (hstep : s.postFlush = some t) : DataInv cfg d t := by
  obtain ⟨hflush, rfl⟩ := postFlush_eq_some hstep
  obtain ⟨-, hstart, hdisk⟩ := h.flush [] hflush
  exact { h with
    flushed_le := hstart
    disk := fun a ha => hdisk a not_mem_nil ha
    flush := fun _ hf => absurd hf.symm (Option.some_ne_none _) }

theorem DataInv.step {a : Action} (hstep : s.step cfg a = some t) : DataInv cfg d t := by
  cases a with
  | tick ms =>
    cases hstep
    exact h.move rfl rfl rfl
  | write ofs bytes =>
    obtain ⟨view, intents, rfl⟩ := write_eq_some hstep
    exact h.move rfl rfl rfl
  | prepare => exact h.prepare hstep
  | beginAppend =>
    obtain ⟨sec, f, hw, -, rfl⟩ := beginAppend_eq_some hstep
    exact h.move hw rfl rfl
  | endAppend => exact h.endAppend hstep
  | updateLSNFile =>
    obtain ⟨sec, needed, lsn, hw, -, rfl⟩ := updateLSNFile_eq_some hstep
    exact h.move hw rfl rfl
  | rotate =>
    obtain ⟨sec, f, hw, -, rfl | rfl⟩ := rotate_eq_some hstep
    · exact h.move hw rfl rfl
    · exact h.move hw rfl rfl
  | removeUnneeded =>
    obtain ⟨sec, hw, rfl | ⟨f, rest, -, -, rfl⟩⟩ := removeUnneeded_eq_some hstep
    · exact h.move hw rfl rfl
    · exact h.move rfl rfl rfl
  | openFile preallocated =>
    obtain ⟨sec, hw, rfl⟩ := openFile_eq_some hstep
    exact h.move hw rfl rfl
  | writeHeader fileId =>
    obtain ⟨sec, f, hw, -, rfl⟩ := writeHeader_eq_some hstep
    exact h.move hw rfl rfl
  | copyEntry => exact h.copyEntry hstep
  | osWrite a =>
    cases hstep
    exact h.toDisk a
  | preFlush => exact h.preFlush hstep
  | flushByte a => exact h.flushByte hstep
  | postFlush => exact h.postFlush hstep

end

theorem timeInv_init (d : Data) (fileId : Nat) (preallocated : Bool) :
    (init d fileId preallocated).TimeInv where
  lastFlush_le := le_refl 0
  preFlush_le := le_refl 0
  lsn_le := fun _ hv => absurd hv not_mem_nil
  seq_le := fun _ hsec => absurd hsec not_mem_nil
  sorted := .nil
  unflushed := fun _ hsec => absurd hsec not_mem_nil
  flushing := fun hf => absurd rfl hf
  removed_le := le_refl 0

theorem sections_eq {w : Writer} (hw : s.writer = w) (hqueued : t.writer.queued = w.queued)
    (hlog : t.log = s.log) : t.sections = s.sections := by
  rw [sections, sections, hw, hqueued, hlog]

/-- A step that changes neither the sections nor the times of the flushes. -/
theorem TimeInv.move (h : s.TimeInv) (hsections : t.sections = s.sections)
    (hremoved : t.removed ≤ s.flushed) (hnow : s.now ≤ t.now)
    (hlsn : ∀ v ∈ t.lsn, v = s.lastFlushTime ∨ v ∈ s.lsn) (hflush : t.flush = none ↔ s.flush = none)
    (hpre : t.preFlushTime = s.preFlushTime) (hlast : t.lastFlushTime = s.lastFlushTime)
    (hstart : t.flushStart = s.flushStart) (hflushed : t.flushed = s.flushed) : t.TimeInv where
  lastFlush_le := by
    rw [hlast, hpre]
    exact h.lastFlush_le
  preFlush_le := by
    rw [hpre]
    exact le_trans h.preFlush_le hnow
  lsn_le := by
    intro v hv
    rw [hlast]
    rcases hlsn v hv with rfl | hv
    · exact le_refl _
    · exact h.lsn_le v hv
  seq_le := by
    rw [hsections, hlast]
    exact h.seq_le
  sorted := by
    rw [hsections]
    exact h.sorted
  unflushed := by
    rw [hsections, hlast, hflushed]
    exact h.unflushed
  flushing := by
    intro hf
    rw [hsections, hpre, hstart]
    exact h.flushing fun hnone => hf (hflush.mpr hnone)
  removed_le := by
    rw [hflushed]
    exact hremoved

/-- A step of the journal writer that changes neither the sections nor the times. -/
theorem TimeInv.stay (h : s.TimeInv) {w : Writer} (hw : s.writer = w)
    (hsame : (t.writer.queued, t.log, t.removed, t.now, t.lsn, t.flush, t.preFlushTime,
        t.lastFlushTime, t.flushStart, t.flushed) =
      (w.queued, s.log, s.removed, s.now, s.lsn, s.flush, s.preFlushTime, s.lastFlushTime,
        s.flushStart, s.flushed)) : t.TimeInv := by
  simp only [Prod.mk.injEq] at hsame
  obtain ⟨hqueued, hlog, hremoved, hnow, hlsn, hflush, hpre, hlast, hstart, hflushed⟩ := hsame
  refine h.move (sections_eq hw hqueued hlog) (hremoved.trans_le h.removed_le) hnow.ge ?_ ?_ hpre
    hlast hstart hflushed
  · rw [hlsn]
    exact fun _ => .inr
  · rw [hflush]

theorem TimeInv.prepare (h : s.TimeInv) (hdata : DataInv cfg d s) (hallowed : s.timely .prepare = true)
    (hstep : s.prepare cfg = some t) : t.TimeInv := by
  obtain ⟨f, hw, -, rfl⟩ := prepare_eq_some hstep
  have hold : s.sections = s.log := by
    rw [sections, hw]
    exact append_nil _
  obtain ⟨hlast, hpre, hlsn, hseq, hsorted, hunflushed, hflushing, hremoved⟩ := h
  rw [hold] at hseq hsorted hunflushed hflushing
  generalize hsec : prepLogBuffer cfg.size s.view s.intents s.lastFlushTime (f.header.getD 0) = sec
  have hnumber : sec.header.seqNumber = s.lastFlushTime := by rw [← hsec, prepLogBuffer]
  have hcopied := hdata.copied_le
  -- the number of the new section is the time of the last flush
  refine ⟨hlast, hpre, hlsn, ?_, ?_, ?_, ?_, hremoved⟩
  · intro x hx
    rcases mem_append.mp hx with hx | hx
    · exact hseq x hx
    · rw [mem_singleton.mp hx, hnumber]
  · refine pairwise_append.mpr ⟨hsorted, pairwise_singleton _ _, ?_⟩
    intro x hx y hy
    rw [mem_singleton.mp hy, hnumber]
    exact hseq x hx
  · intro x hx
    have hle := le_trans hdata.flushed_le hcopied
    rcases mem_append.mp (drop_append_of_le_length hle ▸ hx) with hx | hx
    · exact hunflushed x hx
    · rw [mem_singleton.mp hx, hnumber]
      exact le_add_right _ _
  · intro hf x hx
    obtain ⟨pending, hpending⟩ := Option.ne_none_iff_exists'.mp hf
    have hle := le_trans (hdata.flush pending hpending).2.1 hcopied
    rcases mem_append.mp (drop_append_of_le_length hle ▸ hx) with hx | hx
    · exact hflushing hf x hx
    · rw [mem_singleton.mp hx, hnumber]
      have hflush : s.flush = some pending := hpending
      simpa [timely, hflush] using hallowed

theorem TimeInv.preFlush (h : s.TimeInv) (hdata : DataInv cfg d s)
    (hallowed : s.timely .preFlush = true) (hstep : s.preFlush cfg = some t) : t.TimeInv := by
  obtain ⟨-, rfl⟩ := preFlush_eq_some hstep
  refine ⟨le_trans h.lastFlush_le h.preFlush_le, le_refl _, h.lsn_le, h.seq_le, h.sorted,
    h.unflushed, ?_, h.removed_le⟩
  intro _ sec hsec
  have hmem : sec ∈ s.sections.drop s.copied := hsec
  rw [hdata.buffer, Option.mem_toList] at hmem
  rw [timely, hmem, Option.all_some] at hallowed
  exact of_decide_eq_true hallowed

theorem TimeInv.postFlush (h : s.TimeInv) (hdata : DataInv cfg d s) (hstep : s.postFlush = some t) :
    t.TimeInv := by
  obtain ⟨hflush, rfl⟩ := postFlush_eq_some hstep
  have hstart := (hdata.flush [] hflush).1
  have hlate := h.flushing (by rw [hflush]; exact Option.some_ne_none _)
  refine ⟨le_refl _, h.preFlush_le, fun v hv => le_trans (h.lsn_le v hv) h.lastFlush_le,
    fun sec hsec => le_trans (h.seq_le sec hsec) h.lastFlush_le, h.sorted, hlate,
    fun hf => absurd rfl hf, le_trans h.removed_le hstart⟩

theorem TimeInv.step (h : s.TimeInv) (hdata : DataInv cfg d s) {a : Action}
    (hallowed : s.timely a = true) (hstep : s.step cfg a = some t) : t.TimeInv := by
  cases a with
  | tick ms =>
    cases hstep
    exact h.move rfl h.removed_le (le_add_right _ _) (fun _ => .inr) .rfl rfl rfl rfl rfl
  | write ofs bytes =>
    obtain ⟨view, intents, rfl⟩ := write_eq_some hstep
    exact h.stay rfl rfl
  | prepare => exact h.prepare hdata hallowed hstep
  | beginAppend =>
    obtain ⟨sec, f, hw, -, rfl⟩ := beginAppend_eq_some hstep
    exact h.stay hw rfl
  | endAppend =>
    obtain ⟨sec, f, hw, -, rfl⟩ := endAppend_eq_some hstep
    refine h.move ?_ h.removed_le le_rfl (fun _ => .inr) .rfl rfl rfl rfl rfl
    simp [sections, hw, Writer.queued]
  | updateLSNFile =>
    obtain ⟨sec, needed, lsn, hw, hlsn, rfl⟩ := updateLSNFile_eq_some hstep
    exact h.move (sections_eq hw rfl rfl) h.removed_le le_rfl hlsn .rfl rfl rfl rfl rfl
  | rotate =>
    obtain ⟨sec, f, hw, -, rfl | rfl⟩ := rotate_eq_some hstep
    · exact h.stay hw rfl
    · exact h.stay hw rfl
  | removeUnneeded =>
    obtain ⟨sec, hw, rfl | ⟨f, rest, hold, hremove, rfl⟩⟩ := removeUnneeded_eq_some hstep
    · exact h.stay hw rfl
    · refine h.move rfl ?_ le_rfl (fun _ => .inr) .rfl rfl rfl rfl rfl
      simpa [timely, hold, hremove] using hallowed
  | openFile preallocated =>
    obtain ⟨sec, hw, rfl⟩ := openFile_eq_some hstep
    exact h.stay hw rfl
  | writeHeader fileId =>
    obtain ⟨sec, f, hw, -, rfl⟩ := writeHeader_eq_some hstep
    exact h.stay hw rfl
  | copyEntry =>
    rcases copyEntry_eq_some hstep with ⟨sec, e, rest, hw, rfl⟩ | ⟨sec, hw, rfl⟩
    · exact h.stay hw rfl
    · exact h.stay hw rfl
  | osWrite a =>
    cases hstep
    exact h.stay rfl rfl
  | preFlush => exact h.preFlush hdata hallowed hstep
  | flushByte a =>
    obtain ⟨pending, hpending, rfl⟩ := flushByte_eq_some hstep
    refine h.move rfl h.removed_le le_rfl (fun _ => .inr) ?_ rfl rfl rfl rfl
    simp [hpending]
  | postFlush => exact h.postFlush hdata hstep

/-- Recovery skips the sections before one it does not skip. -/
theorem kept_suffix (lsn : Nat) {secs : List JSection}
    (h : secs.Pairwise fun x y => x.header.seqNumber ≤ y.header.seqNumber) :
    kept lsn secs <:+ secs := by
  induction secs with
  | nil => exact suffix_refl []
  | cons sec secs ih =>
    obtain ⟨hfirst, hrest⟩ := pairwise_cons.mp h
    by_cases hskip : lsn > sec.header.seqNumber + ExtraKeepTimeMs
    · rw [kept, filter_cons_of_neg (by simpa using hskip)]
      exact (ih hrest).trans (suffix_cons sec secs)
    · have hall : kept lsn (sec :: secs) = sec :: secs := by
        rw [kept, filter_eq_self]
        intro x hx
        rcases mem_cons.mp hx with rfl | hx
        · exact decide_eq_true hskip
        · have hle := hfirst x hx
          exact decide_eq_true (by omega)
      exact hall.symm ▸ suffix_refl (sec :: secs)

theorem getFiles_eq {dir : List JournalFile} {n : Nat}
    (h : dir.map JournalFile.number = List.range' n dir.length) : getFiles dir = .ok dir := by
  have hsorted : dir.Pairwise fun f g => f.number ≤ g.number := by
    have hlt : (dir.map JournalFile.number).Pairwise (· < ·) := by
      rw [h]
      exact pairwise_lt_range'
    exact (pairwise_map.mp hlt).imp le_of_lt
  have hnodup : ¬ ¬ (dir.map JournalFile.number).Nodup := by
    rw [h]
    exact not_not_intro nodup_range'
  have hbefore : ∀ f ∈ dir.tail, f.number - 1 ∈ dir.map JournalFile.number := by
    cases dir with
    | nil => exact fun f hf => absurd hf not_mem_nil
    | cons g rest =>
      intro f hf
      rw [map_cons, length_cons, range'_succ, cons.injEq] at h
      have hmem : f.number ∈ range' (n + 1) rest.length := by
        rw [← h.2]
        exact mem_map_of_mem hf
      rw [map_cons, h.1, h.2, ← range'_succ, mem_range'_1]
      rw [mem_range'_1] at hmem
      omega
  rw [getFiles, if_neg hnodup]
  rw [hsorted.insertionSort_eq, if_pos hbefore]

theorem journalReadLSN_eq (h : s.LsnLeft lsnFile) :
    ∃ lsn, journalReadLSN lsnFile = .ok lsn ∧ (lsn = 0 ∨ lsn ∈ s.lsn) := by
  rcases lsnFile with - | - | f
  · exact ⟨0, rfl, .inl rfl⟩
  · exact ⟨0, rfl, .inl rfl⟩
  · obtain ⟨hver, hmem⟩ := h f rfl
    by_cases hcheck : 2 ^ 64 - 1 - f.lsn = f.checkbytes
    · refine ⟨f.lsn, ?_, .inr (hmem hcheck)⟩
      rw [journalReadLSN, LSNFile.get, if_neg (not_not_intro hver), if_neg (not_not_intro hcheck)]
    · refine ⟨0, ?_, .inl rfl⟩
      rw [journalReadLSN, LSNFile.get, if_neg (not_not_intro hver), if_pos hcheck]

variable (cfg) in
/-- Recovery applies the sections of the files that are there, and skips some. -/
theorem FilesInv.recover_eq (h : s.FilesInv) (hlsn : s.LsnLeft lsnFile) (data : Data) :
    ∃ lsn, (lsn = 0 ∨ lsn ∈ s.lsn) ∧ recover cfg.size s.files lsnFile data =
      .ok (commit cfg.size (kept lsn (s.files.flatMap JournalFile.sections)) data) := by
  obtain ⟨lsn, hread, hval⟩ := journalReadLSN_eq hlsn
  obtain ⟨n, -, hnumbers⟩ := h.numbers
  refine ⟨lsn, hval, ?_⟩
  rw [recover, getFiles_eq hnumbers, Except.bind]
  split
  next hempty =>
    rw [hempty]
    rfl
  next =>
    rw [hread, Except.bind]
    refine go_eq ?_ ?_ data
    · intro f hf
      obtain ⟨g, hg, rfl⟩ := mem_map.mp hf
      exact h.old g hg
    · intro f hf
      have hcur := h.current
      rw [hf] at hcur
      exact hcur.readable

/-- The sections that recovery does not apply are on disk. -/
theorem commit_kept_eq (hfiles : s.FilesInv) (hdata : DataInv cfg d s) (htime : s.TimeInv)
    {lsn : Nat} (hlsn : lsn = 0 ∨ lsn ∈ s.lsn) :
    commit cfg.size (kept lsn (s.files.flatMap JournalFile.sections)) s.disk =
      commit cfg.size s.log d := by
  obtain ⟨gone, hgone, hlog⟩ := hfiles.log
  generalize s.files.flatMap JournalFile.sections = present at hlog ⊢
  have hle : lsn ≤ s.lastFlushTime := by
    rcases hlsn with rfl | hlsn
    · exact zero_le _
    · exact htime.lsn_le lsn hlsn
  have hsorted := (pairwise_append.mp htime.sorted).1
  rw [hlog] at hsorted
  obtain ⟨skipped, hskipped⟩ := kept_suffix lsn (pairwise_append.mp hsorted).2.1
  have hkept : s.log.drop s.flushed ⊆ kept lsn present := by
    intro sec hsec
    have hpresent : sec ∈ present := by
      have hdrop : s.log.drop s.removed = present := by
        rw [hlog, ← hgone, drop_left]
      obtain ⟨k, hk⟩ := Nat.exists_eq_add_of_le htime.removed_le
      rw [hk, ← drop_drop, hdrop] at hsec
      exact mem_of_mem_drop hsec
    have hlate : s.lastFlushTime ≤ sec.header.seqNumber + ExtraKeepTimeMs := by
      apply htime.unflushed
      rw [sections, drop_append_of_le_length (le_trans hdata.flushed_le hdata.copied_le)]
      exact mem_append_left _ hsec
    exact mem_filter.mpr ⟨hpresent, decide_eq_true (by omega)⟩
  have hall : commit cfg.size s.log d =
      replay (patches cfg.size (gone ++ skipped) ++ patches cfg.size (kept lsn present)) d := by
    rw [← patches_append, append_assoc, hskipped, ← hlog]
    rfl
  exact hdata.disk.replay_eq (patches_subset hkept) hall

/-- A byte that no client has declared since the last section is as the sections make it. -/
def ViewInv (cfg : Config) (d : Data) (s : State) : Prop :=
  ∀ a, ¬ (a < cfg.size ∧ ∃ i ∈ s.intents, i.Declares a) → s.view a = commit cfg.size s.sections d a

theorem ViewInv.write (h : ViewInv cfg d s) {ofs : Nat} {bytes : List UInt8}
    (hstep : s.write cfg ofs bytes = some t) : ViewInv cfg d t := by
  unfold State.write at hstep
  split at hstep
  next hfits =>
    cases hstep
    intro a ha
    simp only [mem_append, mem_singleton, or_and_right, exists_or, exists_eq_left,
      WriteIntent.Declares] at ha
    have hout : JEntry.patch cfg.size ⟨ofs, bytes⟩ a = none := by
      simp only [JEntry.patch, ite_eq_right_iff, getElem?_eq_none_iff]
      omega
    show apply s.view _ a = _
    rw [Overwrite.apply, hout]
    exact h a fun hold => ha ⟨hold.1, .inl hold.2⟩
  next => cases hstep

theorem ViewInv.prepare (h : ViewInv cfg d s) (hstep : s.prepare cfg = some t) : ViewInv cfg d t := by
  obtain ⟨f, hw, -, rfl⟩ := prepare_eq_some hstep
  intro a _
  have hview := h a
  rw [sections, hw, commit_append] at hview
  rw [sections, commit_append]
  refine .trans ?_ (commit_prepLogBuffer ..).symm
  split
  · rfl
  next hnot => exact hview hnot

theorem ViewInv.step (h : ViewInv cfg d s) {a : Action} (hstep : s.step cfg a = some t) :
    ViewInv cfg d t := by
  cases a with
  | write ofs bytes => exact h.write hstep
  | prepare => exact h.prepare hstep
  | _ =>
    have hframe : t.view = s.view ∧ t.intents = s.intents ∧ t.sections = s.sections := by
      simp only [State.step, beginAppend, endAppend, updateLSNFile, rotate, removeUnneeded, openFile,
        writeHeader, copyEntry, preFlush, flushByte, postFlush] at hstep
      repeat' split at hstep
      all_goals simp_all
      all_goals
        subst hstep
        simp_all [sections, toDisk, Writer.queued]
    unfold ViewInv
    rwa [hframe.1, hframe.2.1, hframe.2.2]

end State

/-- In every run in which the flushes keep to the sections on their way and to the files removed, a
crash at any point loses nothing: recovery ends without an error, and the data are those of the
sections whose append was completed. -/
theorem recover_committed (cfg : Config) (d : Data) (fileId : Nat) (preallocated : Bool) {s : State}
    (h : Reach (State.step cfg) (fun s a => s.timely a = true) (.init d fileId preallocated) s)
    {lsnFile : Option (Option LSNFile)} (hlsn : s.LsnLeft lsnFile) :
    recover cfg.size s.files lsnFile s.disk = .ok (commit cfg.size s.log d) := by
  have hinv : s.FilesInv ∧ State.DataInv cfg d s ∧ s.TimeInv := by
    refine h.invariant (I := fun s => s.FilesInv ∧ State.DataInv cfg d s ∧ s.TimeInv)
      ⟨State.filesInv_init d fileId preallocated, State.dataInv_init cfg d fileId preallocated,
        State.timeInv_init d fileId preallocated⟩ ?_
    rintro s t a ⟨hfiles, hdata, htime⟩ hallowed hstep
    exact ⟨hfiles.step hstep, hdata.step hstep, htime.step hdata hallowed hstep⟩
  obtain ⟨hfiles, hdata, htime⟩ := hinv
  obtain ⟨lsn, hval, hrecover⟩ := hfiles.recover_eq cfg hlsn s.disk
  rw [hrecover, State.commit_kept_eq hfiles hdata htime hval]

/-- In every run a byte of the private view that is not declared is what the shared view will hold once
the sections on their way are copied. So both views agree when they are remapped. -/
theorem view_eq_shared (cfg : Config) (d : Data) (fileId : Nat) (preallocated : Bool)
    {allowed : State → Action → Prop} {s : State}
    (h : Reach (State.step cfg) allowed (.init d fileId preallocated) s) {a : Nat}
    (ha : ∀ i ∈ s.intents, ¬ i.Declares a) :
    s.view a = commit cfg.size s.writer.queued.toList
      (replay (s.writer.toCopy.map (JEntry.patch cfg.size)) s.shared) a := by
  obtain ⟨hdata, hview⟩ : State.DataInv cfg d s ∧ State.ViewInv cfg d s := by
    refine h.invariant (I := fun s => State.DataInv cfg d s ∧ State.ViewInv cfg d s)
      ⟨State.dataInv_init cfg d fileId preallocated, fun _ _ => rfl⟩ ?_
    rintro s t a ⟨hdata, hview⟩ - hstep
    exact ⟨hdata.step hstep, hview.step hstep⟩
  rw [hdata.shared, ← commit_append]
  exact hview a fun ⟨_, i, hi, hin⟩ => ha i hi hin

def twoBytes : Config where
  size := 2
  dataLimitPerJournalFile := 1073741824
  sectionLength := fun _ => 8192

def zeros : Data := fun _ => 0

/-- One group commit, up to the shared view. -/
def groupCommit (ofs : Nat) (byte : UInt8) : List Action :=
  [.write ofs [byte], .prepare, .beginAppend, .endAppend, .updateLSNFile, .rotate, .copyEntry,
    .copyEntry]

/-- The second section is torn. -/
def flushedThenTorn : List Action :=
  groupCommit 0 1 ++ [.tick 20000, .preFlush, .flushByte 0, .flushByte 1, .postFlush, .write 1 [2],
    .prepare, .beginAppend]

theorem recover_committed_torn :
    ∃ s, run (State.step twoBytes) flushedThenTorn (.init zeros 7 false) = some s ∧
      recover twoBytes.size s.files none s.disk = .ok (commit twoBytes.size s.log zeros) := by
  obtain ⟨s, hrun, hguarded⟩ : ∃ s,
      run (State.step twoBytes) flushedThenTorn (.init zeros 7 false) = some s ∧
        run (guarded (State.step twoBytes) State.timely) flushedThenTorn (.init zeros 7 false) =
          some s := ⟨_, rfl, rfl⟩
  refine ⟨s, hrun, ?_⟩
  apply recover_committed twoBytes zeros 7 false (reach_of_guarded_run hguarded)
  intro f hf
  cases hf

theorem view_eq_shared_committed :
    ∃ s, run (State.step twoBytes) (groupCommit 0 1) (.init zeros 7 false) = some s ∧
      s.view 0 = s.shared 0 := by
  have hrun : run (State.step twoBytes) (groupCommit 0 1) (.init zeros 7 false) = some _ := rfl
  have hreach : Reach _ (fun _ _ => True) _ _ := reach_of_run hrun fun _ _ _ => trivial
  exact ⟨_, hrun, view_eq_shared twoBytes zeros 7 false hreach (forall_mem_nil _)⟩

/-- A section is prepared while a flush runs that began long after the one before it; the next
section takes the time of that flush to the file with the last sequence number. -/
def commitDuringFlush : List Action :=
  [.tick 20000, .preFlush, .flushByte 0, .flushByte 1] ++ groupCommit 0 1 ++
    [.postFlush] ++ groupCommit 1 2

/-- The section whose byte the flush missed is skipped. -/
theorem journaled_byte_lost :
    ∃ s data, run (State.step twoBytes) commitDuringFlush (.init zeros 7 false) = some s ∧
      s.LsnLeft (some (some (LSNFile.set 20000))) ∧
      recover twoBytes.size s.files (some (some (LSNFile.set 20000))) s.disk = .ok data ∧
      data 0 ≠ commit twoBytes.size s.log zeros 0 := by
  refine ⟨_, _, rfl, ?_, rfl, by decide⟩
  intro f hf
  cases hf
  exact ⟨rfl, fun _ => mem_singleton.mpr rfl⟩

end MongolDb.MmapV1
