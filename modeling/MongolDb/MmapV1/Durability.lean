import MongolDb.Lib.Reach
import MongolDb.MmapV1.Journal

/-! The threads that make group commits durable: writers, the durability thread, the journal writer
and the flusher, with the clock they share. -/
namespace MongolDb.MmapV1
open Overwrite

/-- The mapped bytes, the size from which a journal file is rotated, and the padded length that a
section has in the file once it is compressed. -/
structure Config where
  size : Nat
  dataLimitPerJournalFile : Nat
  sectionLength : List JEntry → Nat

/-- Where the journal writer is with the only buffer there is. -/
inductive Writer where
  /-- The buffer is in the ready queue. -/
  | idle
  | prepared (sec : JSection)
  | appending (sec : JSection)
  /-- The section is on disk, and `_rotate` begins. -/
  | appended (sec : JSection)
  | lsnUpdated (sec : JSection)
  /-- The full file is closed, and old files are removed. -/
  | closed (sec : JSection)
  | cleaned (sec : JSection)
  /-- The next file exists, without a header. -/
  | opened (sec : JSection)
  /-- These entries are still to be copied to the shared view. -/
  | copying (sec : JSection) (rest : List JEntry)
deriving DecidableEq

namespace Writer

/-- The section in the buffer. -/
def buffer : Writer → Option JSection
  | .idle => none
  | .prepared sec | .appending sec | .appended sec | .lsnUpdated sec | .closed sec | .cleaned sec
  | .opened sec | .copying sec _ => some sec

/-- The section that has been prepared and is not yet in the journal. -/
def queued : Writer → Option JSection
  | .prepared sec | .appending sec => some sec
  | _ => none

/-- The entries that are in the journal and not yet in the shared view. -/
def toCopy : Writer → List JEntry
  | .idle | .prepared _ | .appending _ => []
  | .appended sec | .lsnUpdated sec | .closed sec | .cleaned sec | .opened sec => sec.entries
  | .copying _ rest => rest

end Writer

structure JFile where
  file : JournalFile
  lastEventTimeMs : Nat
deriving DecidableEq

/-- The last five fields are the history of the run, which no thread reads: the sections whose
append was completed, how many of them are in the shared view, how many were when the flush that
runs began and when the last finished one began, and how many were in files since removed. -/
structure State where
  now : Nat
  view : Data
  shared : Data
  disk : Data
  intents : List WriteIntent
  writer : Writer
  curLogFile : Option JournalFile
  oldJournalFiles : List JFile
  written : Nat
  nextFileNumber : Nat
  preFlushTime : Nat
  lastFlushTime : Nat
  writeToLSNNeeded : Bool
  /-- The values written to the file, the last one first. It is not synced. -/
  lsn : List Nat
  /-- The bytes that a flush has still to put on disk. -/
  flush : Option (List Nat)
  log : List JSection
  copied : Nat
  flushStart : Nat
  flushed : Nat
  removed : Nat

inductive Action where
  | tick (ms : Nat)
  | write (ofs : Nat) (bytes : List UInt8)
  | prepare
  | beginAppend
  | endAppend
  | updateLSNFile
  | rotate
  | removeUnneeded
  | openFile (preallocated : Bool)
  | writeHeader (fileId : Nat)
  | copyEntry
  | osWrite (a : Nat)
  | preFlush
  | flushByte (a : Nat)
  | postFlush
deriving DecidableEq

namespace State

/-- After startup: the first journal file has been opened. -/
def init (d : Data) (fileId : Nat) (preallocated : Bool) : State where
  now := 0
  view := d
  shared := d
  disk := d
  intents := []
  writer := .idle
  curLogFile := some ⟨0, some fileId, [], preallocated⟩
  oldJournalFiles := []
  written := 0
  nextFileNumber := 1
  preFlushTime := 0
  lastFlushTime := 0
  writeToLSNNeeded := false
  lsn := []
  flush := none
  log := []
  copied := 0
  flushStart := 0
  flushed := 0
  removed := 0

/-- The journal directory. -/
def files (s : State) : List JournalFile :=
  s.oldJournalFiles.map JFile.file ++ s.curLogFile.toList

/-- What a crash may leave of the file with the last sequence number: it may be missing or empty, hold
one of the values written, or not pass its check. -/
def LsnLeft (s : State) (lsnFile : Option (Option LSNFile)) : Prop :=
  ∀ f, lsnFile = some (some f) → f.ver = 0 ∧ (2 ^ 64 - 1 - f.lsn = f.checkbytes → f.lsn ∈ s.lsn)

variable (cfg : Config)

/-- A writer changes the private view and declares what it changed. -/
def write (ofs : Nat) (bytes : List UInt8) (s : State) : Option State :=
  if ofs + bytes.length ≤ cfg.size then
    some { s with
      view := apply s.view (JEntry.patch cfg.size ⟨ofs, bytes⟩)
      intents := s.intents ++ [⟨ofs, ofs + bytes.length⟩] }
  else none

/-- The durability thread waits for the buffer, so it finds the current file open. -/
def prepare (s : State) : Option State :=
  match s.writer, s.curLogFile with
  | .idle, some f =>
    if s.intents = [] then none
    else
      some { s with
        writer := .prepared
          (prepLogBuffer cfg.size s.view s.intents s.lastFlushTime (f.header.getD 0))
        intents := [] }
  | _, _ => none

def beginAppend (s : State) : Option State :=
  match s.writer, s.curLogFile with
  | .prepared sec, some f =>
    some { s with
      writer := .appending sec
      written := s.written + cfg.sectionLength sec.entries
      curLogFile := some { f with records := f.records ++ [.torn] } }
  | _, _ => none

def endAppend (s : State) : Option State :=
  match s.writer, s.curLogFile with
  | .appending sec, some f =>
    some { s with
      writer := .appended sec
      curLogFile := some { f with records := f.records.dropLast ++ [.whole sec] }
      log := s.log ++ [sec] }
  | _, _ => none

def updateLSNFile (s : State) : Option State :=
  match s.writer with
  | .appended sec =>
    if s.writeToLSNNeeded then
      some { s with
        writer := .lsnUpdated sec
        writeToLSNNeeded := false
        lsn := s.lastFlushTime :: s.lsn }
    else some { s with writer := .lsnUpdated sec }
  | _ => none

def rotate (s : State) : Option State :=
  match s.writer, s.curLogFile with
  | .lsnUpdated sec, some f =>
    if s.written < cfg.dataLimitPerJournalFile then
      some { s with writer := .copying sec sec.entries }
    else
      some { s with
        writer := .closed sec
        curLogFile := none
        oldJournalFiles := s.oldJournalFiles ++ [⟨{ f with leftover := false }, s.now⟩]
        written := 0 }
  | _, _ => none

/-- One turn of the loop in `removeUnneededJournalFiles`. -/
def removeUnneeded (s : State) : Option State :=
  match s.writer, s.oldJournalFiles with
  | .closed sec, [] => some { s with writer := .cleaned sec }
  | .closed sec, f :: rest =>
    if f.lastEventTimeMs < s.lastFlushTime + ExtraKeepTimeMs then
      some { s with
        oldJournalFiles := rest
        removed := s.removed + f.file.sections.length }
    else some { s with writer := .cleaned sec }
  | _, _ => none

def openFile (preallocated : Bool) (s : State) : Option State :=
  match s.writer with
  | .cleaned sec =>
    some { s with
      writer := .opened sec
      curLogFile := some ⟨s.nextFileNumber, none, [], preallocated⟩
      nextFileNumber := s.nextFileNumber + 1 }
  | _ => none

def writeHeader (fileId : Nat) (s : State) : Option State :=
  match s.writer, s.curLogFile with
  | .opened sec, some f =>
    if fileId = 0 then none
    else
      some { s with
        writer := .copying sec sec.entries
        curLogFile := some { f with header := some fileId } }
  | _, _ => none

/-- The journal writer ends with an assertion when an entry cannot be written. -/
def copyEntry (s : State) : Option State :=
  match s.writer with
  | .copying sec (e :: rest) =>
    match e.write cfg.size false s.shared with
    | .ok shared => some { s with writer := .copying sec rest, shared := shared }
    | .error _ => none
  | .copying _ [] => some { s with writer := .idle, copied := s.copied + 1 }
  | _ => none

def toDisk (a : Nat) (s : State) : State :=
  { s with disk := Function.update s.disk a (s.shared a) }

def preFlush (s : State) : Option State :=
  match s.flush with
  | none =>
    some { s with
      preFlushTime := s.now
      flush := some (List.range cfg.size)
      flushStart := s.copied }
  | some _ => none

def flushByte (a : Nat) (s : State) : Option State :=
  match s.flush with
  | none => none
  | some pending => some { s.toDisk a with flush := some (pending.filter (· ≠ a)) }

def postFlush (s : State) : Option State :=
  match s.flush with
  | some [] =>
    some { s with
      lastFlushTime := s.preFlushTime
      writeToLSNNeeded := true
      flush := none
      flushed := s.flushStart }
  | _ => none

def step : Action → State → Option State
  | .tick ms, s => some { s with now := s.now + ms }
  | .write ofs bytes, s => s.write cfg ofs bytes
  | .prepare, s => s.prepare cfg
  | .beginAppend, s => s.beginAppend cfg
  | .endAppend, s => s.endAppend
  | .updateLSNFile, s => s.updateLSNFile
  | .rotate, s => s.rotate cfg
  | .removeUnneeded, s => s.removeUnneeded
  | .openFile preallocated, s => s.openFile preallocated
  | .writeHeader fileId, s => s.writeHeader fileId
  | .copyEntry, s => s.copyEntry cfg
  | .osWrite a, s => some (s.toDisk a)
  | .preFlush, s => s.preFlush cfg
  | .flushByte a, s => s.flushByte a
  | .postFlush, s => s.postFlush

/-- No flush that runs while a section is on its way to the shared view began more than the extra time
after the flush that gave the section its number, and a file is removed only for a flush that began
when its sections were in the shared view. -/
def timely (s : State) : Action → Bool
  | .preFlush => s.writer.buffer.all fun sec => s.now ≤ sec.header.seqNumber + ExtraKeepTimeMs
  | .prepare => s.flush.isNone || s.preFlushTime ≤ s.lastFlushTime + ExtraKeepTimeMs
  | .removeUnneeded =>
    match s.oldJournalFiles with
    | [] => true
    | f :: _ =>
      ¬ f.lastEventTimeMs < s.lastFlushTime + ExtraKeepTimeMs ||
        s.removed + f.file.sections.length ≤ s.flushed
  | _ => true

section Inversion
variable {cfg : Config} {s t : State}

theorem prepare_eq_some (h : s.prepare cfg = some t) :
    ∃ f, s.writer = .idle ∧ s.curLogFile = some f ∧
      t = { s with
        writer := .prepared
          (prepLogBuffer cfg.size s.view s.intents s.lastFlushTime (f.header.getD 0))
        intents := [] } := by
  unfold prepare at h
  split at h
  next f hw hf =>
    split at h
    · cases h
    · cases h
      exact ⟨f, hw, hf, rfl⟩
  next => cases h

theorem beginAppend_eq_some (h : s.beginAppend cfg = some t) :
    ∃ sec f, s.writer = .prepared sec ∧ s.curLogFile = some f ∧
      t = { s with
        writer := .appending sec
        written := s.written + cfg.sectionLength sec.entries
        curLogFile := some { f with records := f.records ++ [.torn] } } := by
  unfold beginAppend at h
  split at h
  next sec f hw hf =>
    cases h
    exact ⟨sec, f, hw, hf, rfl⟩
  next => cases h

theorem endAppend_eq_some (h : s.endAppend = some t) :
    ∃ sec f, s.writer = .appending sec ∧ s.curLogFile = some f ∧
      t = { s with
        writer := .appended sec
        curLogFile := some { f with records := f.records.dropLast ++ [.whole sec] }
        log := s.log ++ [sec] } := by
  unfold endAppend at h
  split at h
  next sec f hw hf =>
    cases h
    exact ⟨sec, f, hw, hf, rfl⟩
  next => cases h

theorem updateLSNFile_eq_some (h : s.updateLSNFile = some t) :
    ∃ sec needed lsn, s.writer = .appended sec ∧ (∀ v ∈ lsn, v = s.lastFlushTime ∨ v ∈ s.lsn) ∧
      t = { s with writer := .lsnUpdated sec, writeToLSNNeeded := needed, lsn := lsn } := by
  unfold updateLSNFile at h
  split at h
  next sec hw =>
    split at h
    · cases h
      exact ⟨sec, false, _, hw, fun v hv => List.mem_cons.mp hv, rfl⟩
    · cases h
      exact ⟨sec, s.writeToLSNNeeded, s.lsn, hw, fun v hv => .inr hv, rfl⟩
  next => cases h

theorem rotate_eq_some (h : s.rotate cfg = some t) :
    ∃ sec f, s.writer = .lsnUpdated sec ∧ s.curLogFile = some f ∧
      (t = { s with writer := .copying sec sec.entries } ∨
        t = { s with
          writer := .closed sec
          curLogFile := none
          oldJournalFiles := s.oldJournalFiles ++ [⟨{ f with leftover := false }, s.now⟩]
          written := 0 }) := by
  unfold rotate at h
  split at h
  next sec f hw hf =>
    split at h
    · cases h
      exact ⟨sec, f, hw, hf, .inl rfl⟩
    · cases h
      exact ⟨sec, f, hw, hf, .inr rfl⟩
  next => cases h

theorem removeUnneeded_eq_some (h : s.removeUnneeded = some t) :
    ∃ sec, s.writer = .closed sec ∧
      (t = { s with writer := .cleaned sec } ∨
        ∃ f rest, s.oldJournalFiles = f :: rest ∧
          f.lastEventTimeMs < s.lastFlushTime + ExtraKeepTimeMs ∧
          t = { s with
            oldJournalFiles := rest
            removed := s.removed + f.file.sections.length }) := by
  unfold removeUnneeded at h
  split at h
  next sec hw hold =>
    cases h
    exact ⟨sec, hw, .inl rfl⟩
  next sec f rest hw hold =>
    split at h
    next hold' =>
      cases h
      exact ⟨sec, hw, .inr ⟨f, rest, hold, hold', rfl⟩⟩
    next =>
      cases h
      exact ⟨sec, hw, .inl rfl⟩
  next => cases h

theorem openFile_eq_some {preallocated : Bool} (h : s.openFile preallocated = some t) :
    ∃ sec, s.writer = .cleaned sec ∧
      t = { s with
        writer := .opened sec
        curLogFile := some ⟨s.nextFileNumber, none, [], preallocated⟩
        nextFileNumber := s.nextFileNumber + 1 } := by
  unfold openFile at h
  split at h
  next sec hw =>
    cases h
    exact ⟨sec, hw, rfl⟩
  next => cases h

theorem writeHeader_eq_some {fileId : Nat} (h : s.writeHeader fileId = some t) :
    ∃ sec f, s.writer = .opened sec ∧ s.curLogFile = some f ∧
      t = { s with
        writer := .copying sec sec.entries
        curLogFile := some { f with header := some fileId } } := by
  unfold writeHeader at h
  split at h
  next sec f hw hf =>
    split at h
    · cases h
    · cases h
      exact ⟨sec, f, hw, hf, rfl⟩
  next => cases h

theorem copyEntry_eq_some (h : s.copyEntry cfg = some t) :
    (∃ sec e rest, s.writer = .copying sec (e :: rest) ∧
      t = { s with writer := .copying sec rest, shared := apply s.shared (e.patch cfg.size) }) ∨
    (∃ sec, s.writer = .copying sec [] ∧
      t = { s with writer := .idle, copied := s.copied + 1 }) := by
  unfold copyEntry at h
  split at h
  next sec e rest hw =>
    split at h
    next shared hwrite =>
      cases h
      exact .inl ⟨sec, e, rest, hw, by rw [JEntry.write_eq hwrite]⟩
    next => cases h
  next sec hw =>
    cases h
    exact .inr ⟨sec, hw, rfl⟩
  next => cases h

theorem preFlush_eq_some (h : s.preFlush cfg = some t) :
    s.flush = none ∧
      t = { s with
        preFlushTime := s.now
        flush := some (List.range cfg.size)
        flushStart := s.copied } := by
  unfold preFlush at h
  split at h
  next hf =>
    cases h
    exact ⟨hf, rfl⟩
  next => cases h

theorem flushByte_eq_some {a : Nat} (h : s.flushByte a = some t) :
    ∃ pending, s.flush = some pending ∧
      t = { s.toDisk a with flush := some (pending.filter (· ≠ a)) } := by
  unfold flushByte at h
  split at h
  next => cases h
  next pending hf =>
    cases h
    exact ⟨pending, hf, rfl⟩

theorem postFlush_eq_some (h : s.postFlush = some t) :
    s.flush = some [] ∧
      t = { s with
        lastFlushTime := s.preFlushTime
        writeToLSNNeeded := true
        flush := none
        flushed := s.flushStart } := by
  unfold postFlush at h
  split at h
  next hf =>
    cases h
    exact ⟨hf, rfl⟩
  next => cases h

theorem write_eq_some {ofs : Nat} {bytes : List UInt8} (h : s.write cfg ofs bytes = some t) :
    ∃ view intents, t = { s with view := view, intents := intents } := by
  unfold write at h
  split at h
  · cases h
    exact ⟨_, _, rfl⟩
  · cases h

end Inversion

end State

end MongolDb.MmapV1
