import MongolDb.MmapV1.Durability

/-! The journal directory in every state of a run: which files recovery can read, and which sections it
finds in them. -/
namespace MongolDb.MmapV1
open List

namespace JournalFile
variable {f : JournalFile} {fileId : Nat}

/-- The file has its header, and its records are whole sections that name it. -/
structure Whole (f : JournalFile) (fileId : Nat) : Prop where
  header : f.header = some fileId
  ids : ∀ sec ∈ f.sections, sec.header.fileId = fileId
  records : f.records = f.sections.map .whole

theorem filterMap_map_whole (secs : List JSection) :
    (secs.map Record.whole).filterMap Record.section? = secs := by
  rw [filterMap_map]
  exact filterMap_some

theorem sections_torn (f : JournalFile) :
    ({ f with records := f.records ++ [.torn] } : JournalFile).sections = f.sections := by
  rw [sections, filterMap_append]
  exact append_nil _

theorem Whole.readable (h : f.Whole fileId) : f.Readable :=
  .inr ⟨fileId, h.header, h.ids, .inl h.records⟩

theorem Whole.complete (h : f.Whole fileId) :
    ({ f with leftover := false } : JournalFile).Complete where
  readable := .inr ⟨fileId, h.header, h.ids, .inl h.records⟩
  header := by
    rw [h.header]
    exact Option.some_ne_none fileId
  records := h.records
  leftover := rfl

/-- The file while a section is appended to it. -/
structure Torn (f : JournalFile) (fileId : Nat) : Prop where
  header : f.header = some fileId
  ids : ∀ sec ∈ f.sections, sec.header.fileId = fileId
  records : f.records = f.sections.map .whole ++ [.torn]

theorem Torn.readable (h : f.Torn fileId) : f.Readable :=
  .inr ⟨fileId, h.header, h.ids, .inr h.records⟩

theorem Whole.torn (h : f.Whole fileId) :
    ({ f with records := f.records ++ [.torn] } : JournalFile).Torn fileId where
  header := h.header
  ids := by
    rw [sections_torn]
    exact h.ids
  records := by rw [sections_torn, ← h.records]

theorem Torn.sections_append (h : f.Torn fileId) (sec : JSection) :
    ({ f with records := f.records.dropLast ++ [.whole sec] } : JournalFile).sections =
      f.sections ++ [sec] := by
  have hlast : f.records.dropLast = f.sections.map .whole := by
    rw [h.records, dropLast_concat]
  show (f.records.dropLast ++ [Record.whole sec]).filterMap Record.section? = _
  rw [hlast, filterMap_append, filterMap_map_whole]
  rfl

theorem Torn.whole (h : f.Torn fileId) {sec : JSection} (hsec : sec.header.fileId = fileId) :
    ({ f with records := f.records.dropLast ++ [.whole sec] } : JournalFile).Whole fileId where
  header := h.header
  ids := by
    intro x hx
    rw [h.sections_append, mem_append] at hx
    rcases hx with hx | hx
    · exact h.ids x hx
    · rw [mem_singleton.mp hx, hsec]
  records := by
    rw [h.sections_append, map_append]
    rw [h.records, dropLast_concat]
    rfl

end JournalFile

/-- The current file as each point of the journal writer finds it. -/
def Writer.FileReady : Writer → Option JournalFile → Prop
  | .idle, some f | .appended _, some f | .lsnUpdated _, some f | .copying _ _, some f =>
    ∃ fileId, f.Whole fileId
  | .prepared sec, some f => f.Whole sec.header.fileId
  | .appending sec, some f => f.Torn sec.header.fileId
  | .closed _, none | .cleaned _, none => True
  | .opened _, some f => f.header = none ∧ f.records = []
  | _, _ => False

theorem Writer.FileReady.readable {w : Writer} {f : JournalFile} (h : w.FileReady (some f)) :
    f.Readable := by
  cases w with
  | idle | appended sec | lsnUpdated sec | copying sec rest =>
    obtain ⟨fileId, hf⟩ := h
    exact hf.readable
  | prepared sec => exact JournalFile.Whole.readable h
  | appending sec => exact JournalFile.Torn.readable h
  | closed sec | cleaned sec => exact h.elim
  | opened sec => exact .inl h

theorem Writer.FileReady.of_same {w w' : Writer} {f : Option JournalFile} (h : w.FileReady f)
    (hnone : w.FileReady none → w'.FileReady none)
    (hsome : ∀ g, w.FileReady (some g) → w'.FileReady (some g)) : w'.FileReady f := by
  cases f with
  | none => exact hnone h
  | some g => exact hsome g h

namespace State

structure FilesInv (s : State) : Prop where
  log : ∃ gone, gone.length = s.removed ∧ s.log = gone ++ s.files.flatMap JournalFile.sections
  old : ∀ f ∈ s.oldJournalFiles, f.file.Complete
  current : s.writer.FileReady s.curLogFile
  numbers : ∃ n, n + s.files.length = s.nextFileNumber ∧
    s.files.map JournalFile.number = List.range' n s.files.length

section
variable {cfg : Config} {s t : State}

theorem filesInv_init (d : Data) (fileId : Nat) (preallocated : Bool) :
    (init d fileId preallocated).FilesInv where
  log := ⟨[], rfl, rfl⟩
  old := fun _ hf => absurd hf not_mem_nil
  current := ⟨fileId, rfl, fun _ hsec => absurd hsec not_mem_nil, rfl⟩
  numbers := ⟨0, rfl, rfl⟩

section
variable (h : s.FilesInv)
include h

/-- The journal writer goes on, and the current file is replaced by one of the same number that holds
the sections that have been added to the log. -/
theorem FilesInv.update {f g : JournalFile} {more : List JSection}
    (hf : s.curLogFile = some f) (hcur : t.curLogFile = some g)
    (hsections : g.sections = f.sections ++ more) (hlog : t.log = s.log ++ more)
    (hnumber : g.number = f.number) (hold : t.oldJournalFiles = s.oldJournalFiles)
    (hnext : t.nextFileNumber = s.nextFileNumber) (hremoved : t.removed = s.removed)
    (hready : t.writer.FileReady (some g)) : t.FilesInv where
  log := by
    obtain ⟨gone, hgone, heq⟩ := h.log
    refine ⟨gone, by rw [hgone, hremoved], ?_⟩
    rw [files, hf] at heq
    rw [hlog, heq, files, hold, hcur]
    simp [hsections]
  old := by
    rw [hold]
    exact h.old
  current := by
    rw [hcur]
    exact hready
  numbers := by
    obtain ⟨n, hn, hrange⟩ := h.numbers
    refine ⟨n, ?_, ?_⟩
    · rw [hnext, ← hn, files, files, hold, hcur, hf]
      simp
    · rw [files, hf] at hrange
      rw [files, hold, hcur]
      simpa [hnumber] using hrange

theorem FilesInv.prepare (hstep : s.prepare cfg = some t) : t.FilesInv := by
  obtain ⟨f, hw, hf, rfl⟩ := prepare_eq_some hstep
  have hcur := h.current
  rw [hw, hf] at hcur
  obtain ⟨fileId, hwhole⟩ := hcur
  have hid : f.header.getD 0 = fileId := by rw [hwhole.header, Option.getD_some]
  refine h.update hf hf (append_nil _).symm (append_nil _).symm rfl rfl rfl rfl ?_
  rw [hid]
  exact hwhole

theorem FilesInv.beginAppend (hstep : s.beginAppend cfg = some t) : t.FilesInv := by
  obtain ⟨sec, f, hw, hf, rfl⟩ := beginAppend_eq_some hstep
  have hwhole := h.current
  rw [hw, hf] at hwhole
  have hsections := f.sections_torn
  rw [← append_nil f.sections] at hsections
  exact h.update hf rfl hsections (append_nil _).symm rfl rfl rfl rfl (JournalFile.Whole.torn hwhole)

theorem FilesInv.endAppend (hstep : s.endAppend = some t) : t.FilesInv := by
  obtain ⟨sec, f, hw, hf, rfl⟩ := endAppend_eq_some hstep
  have htorn := h.current
  rw [hw, hf] at htorn
  exact h.update hf rfl (JournalFile.Torn.sections_append htorn sec) rfl rfl rfl rfl rfl
    ⟨_, JournalFile.Torn.whole htorn rfl⟩

theorem FilesInv.updateLSNFile (hstep : s.updateLSNFile = some t) : t.FilesInv := by
  obtain ⟨sec, needed, lsn, hw, -, rfl⟩ := updateLSNFile_eq_some hstep
  have hcur := h.current
  rw [hw] at hcur
  exact { h with current := hcur.of_same id fun _ => id }

theorem FilesInv.rotate (hstep : s.rotate cfg = some t) : t.FilesInv := by
  obtain ⟨sec, f, hw, hf, hcase⟩ := rotate_eq_some hstep
  have hcur := h.current
  rw [hw, hf] at hcur
  rcases hcase with rfl | rfl
  · refine ⟨h.log, h.old, ?_, h.numbers⟩
    rw [hf]
    exact hcur
  · obtain ⟨fileId, hwhole⟩ := hcur
    obtain ⟨gone, hgone, hlog⟩ := h.log
    obtain ⟨n, hn, hrange⟩ := h.numbers
    rw [files, hf] at hlog hn hrange
    refine ⟨⟨gone, hgone, ?_⟩, ?_, trivial, n, ?_, ?_⟩
    · rw [hlog]
      simp [files, JournalFile.sections]
    · intro g hg
      rcases mem_append.mp hg with hg | hg
      · exact h.old g hg
      · rw [mem_singleton.mp hg]
        exact hwhole.complete
    · rw [← hn]
      simp [files]
    · simpa [files] using hrange

theorem FilesInv.removeUnneeded (hstep : s.removeUnneeded = some t) : t.FilesInv := by
  obtain ⟨sec, hw, rfl | ⟨f, rest, hold, -, rfl⟩⟩ := removeUnneeded_eq_some hstep
  · have hcur := h.current
    rw [hw] at hcur
    exact { h with current := hcur.of_same id fun _ => id }
  · obtain ⟨gone, hgone, hlog⟩ := h.log
    obtain ⟨n, hn, hrange⟩ := h.numbers
    rw [files, hold] at hlog hn hrange
    refine ⟨⟨gone ++ f.file.sections, ?_, ?_⟩, ?_, h.current, n + 1, ?_, ?_⟩
    · rw [length_append, hgone]
    · rw [hlog]
      simp [files]
    · intro g hg
      exact h.old g (hold ▸ mem_cons_of_mem f hg)
    · rw [← hn]
      simp [files]
      omega
    · simp only [map_cons, cons_append, length_cons, range'_succ,
        cons.injEq] at hrange
      exact hrange.2

theorem FilesInv.openFile {preallocated : Bool}
    (hstep : s.openFile preallocated = some t) : t.FilesInv := by
  obtain ⟨sec, hw, rfl⟩ := openFile_eq_some hstep
  have hcur := h.current
  rw [hw] at hcur
  have hf : s.curLogFile = none := by
    cases hf : s.curLogFile with
    | none => rfl
    | some f =>
      rw [hf] at hcur
      exact hcur.elim
  obtain ⟨gone, hgone, hlog⟩ := h.log
  obtain ⟨n, hn, hrange⟩ := h.numbers
  rw [files, hf] at hlog hn hrange
  refine ⟨⟨gone, hgone, ?_⟩, h.old, ⟨rfl, rfl⟩, n, ?_, ?_⟩
  · rw [hlog]
    simp [files, JournalFile.sections]
  · rw [← hn]
    simp [files]
    omega
  · simp only [Option.toList_none, append_nil, length_map, map_map] at hrange hn
    simp [files, hrange, range'_concat, hn]

theorem FilesInv.writeHeader {fileId : Nat} (hstep : s.writeHeader fileId = some t) :
    t.FilesInv := by
  obtain ⟨sec, f, hw, hf, rfl⟩ := writeHeader_eq_some hstep
  have hcur := h.current
  rw [hw, hf] at hcur
  have hempty : f.sections = [] := by
    rw [JournalFile.sections, hcur.2]
    rfl
  refine h.update hf rfl (append_nil _).symm (append_nil _).symm rfl rfl rfl rfl ?_
  refine ⟨fileId, rfl, ?_, ?_⟩
  · intro sec' hsec
    have hmem : sec' ∈ f.sections := hsec
    rw [hempty] at hmem
    exact absurd hmem not_mem_nil
  · show f.records = f.sections.map .whole
    rw [hempty, hcur.2]
    rfl

theorem FilesInv.copyEntry (hstep : s.copyEntry cfg = some t) : t.FilesInv := by
  have hcur := h.current
  rcases copyEntry_eq_some hstep with ⟨sec, e, rest, hw, rfl⟩ | ⟨sec, hw, rfl⟩
  · rw [hw] at hcur
    exact { h with current := hcur.of_same id fun _ => id }
  · rw [hw] at hcur
    exact { h with current := hcur.of_same id fun _ => id }

theorem FilesInv.step {a : Action} (hstep : s.step cfg a = some t) : t.FilesInv := by
  cases a with
  | tick ms =>
    cases hstep
    exact { h with }
  | write ofs bytes =>
    obtain ⟨view, intents, rfl⟩ := write_eq_some hstep
    exact { h with }
  | prepare => exact h.prepare hstep
  | beginAppend => exact h.beginAppend hstep
  | endAppend => exact h.endAppend hstep
  | updateLSNFile => exact h.updateLSNFile hstep
  | rotate => exact h.rotate hstep
  | removeUnneeded => exact h.removeUnneeded hstep
  | openFile preallocated => exact h.openFile hstep
  | writeHeader fileId => exact h.writeHeader hstep
  | copyEntry => exact h.copyEntry hstep
  | osWrite a =>
    cases hstep
    exact { h with }
  | preFlush =>
    obtain ⟨-, rfl⟩ := preFlush_eq_some hstep
    exact { h with }
  | flushByte a =>
    obtain ⟨pending, -, rfl⟩ := flushByte_eq_some hstep
    exact { h with }
  | postFlush =>
    obtain ⟨-, rfl⟩ := postFlush_eq_some hstep
    exact { h with }

end

end

end State

end MongolDb.MmapV1
