import Mathlib.Algebra.Ring.Nat
import Mathlib.Data.List.Sort
import MongolDb.Lib.Overwrite

/-! The journal of the memory mapped storage engine: group commits prepared from declared writes, the
files they are appended to, and the recovery that applies these files after a crash. -/
namespace MongolDb.MmapV1
open Overwrite List

/-- The bytes of the data files, one behind the other. -/
abbrev Data := Nat → UInt8

def ExtraKeepTimeMs : Nat := 10000

structure WriteIntent where
  start : Nat
  stop : Nat
deriving DecidableEq

namespace WriteIntent

def length (i : WriteIntent) : Nat := i.stop - i.start

def absorb (i other : WriteIntent) : WriteIntent where
  start := min i.start other.start
  stop := max i.stop other.stop

/-- The byte is about to be written. -/
abbrev Declares (i : WriteIntent) (a : Nat) : Prop := i.start ≤ a ∧ a < i.stop

end WriteIntent

structure JEntry where
  ofs : Nat
  data : List UInt8
deriving DecidableEq

structure JSectHeader where
  seqNumber : Nat
  fileId : Nat
deriving DecidableEq

/-- A group commit. -/
structure JSection where
  header : JSectHeader
  entries : List JEntry
deriving DecidableEq

def getIntentsSorted (intents : List WriteIntent) : List WriteIntent :=
  intents.insertionSort fun i j => i.stop ≤ j.stop

def mergeIntents (last : WriteIntent) : List WriteIntent → List WriteIntent
  | [] => [last]
  | i :: rest =>
    if i.start < last.stop then mergeIntents (last.absorb i) rest else last :: mergeIntents i rest

def prepBasicWrite (size : Nat) (view : Data) (i : WriteIntent) : JEntry where
  ofs := i.start
  data := (List.range (min i.length (size - i.start))).map fun k => view (i.start + k)

def prepBasicWrites (size : Nat) (view : Data) : List WriteIntent → List JEntry
  | [] => []
  | i :: rest => (mergeIntents i rest).map (prepBasicWrite size view)

def prepLogBuffer (size : Nat) (view : Data) (intents : List WriteIntent)
    (lastFlushTime curFileId : Nat) : JSection where
  header := ⟨lastFlushTime, curFileId⟩
  entries := prepBasicWrites size view (getIntentsSorted intents)

/-- What stands behind the header of a journal file. The checksum of a torn section does not match. -/
inductive Record where
  | whole (sec : JSection)
  | torn
deriving DecidableEq

def Record.section? : Record → Option JSection
  | .whole sec => some sec
  | .torn => none

/-- `header` is the file id, once a valid header has been written; bytes of a preallocated file are
left over behind the records until the file is truncated. -/
structure JournalFile where
  number : Nat
  header : Option Nat
  records : List Record
  leftover : Bool
deriving DecidableEq

def JournalFile.sections (f : JournalFile) : List JSection := f.records.filterMap Record.section?

structure LSNFile where
  ver : Nat
  lsn : Nat
  checkbytes : Nat
deriving DecidableEq

def LSNFile.set (x : Nat) : LSNFile := ⟨0, x, 2 ^ 64 - 1 - x⟩

def LSNFile.get (f : LSNFile) : Except Nat Nat :=
  if f.ver ≠ 0 then .error 13614
  else if 2 ^ 64 - 1 - f.lsn ≠ f.checkbytes then .ok 0
  else .ok f.lsn

/-- The file may be missing or empty. -/
def journalReadLSN : Option (Option LSNFile) → Except Nat Nat
  | none => .ok 0
  | some none => .ok 0
  | some (some f) =>
    match f.get with
    | .ok lsn => .ok lsn
    | .error _ => .error 13611

section
variable (size lsn : Nat)

/-- `RecoveryJob::write`: also used, when not recovering, to copy a section to the shared view. -/
def JEntry.write (recovering : Bool) (e : JEntry) (d : Data) : Except Nat Data :=
  if e.ofs + e.data.length ≤ size then
    .ok fun a => if e.ofs ≤ a then (e.data[a - e.ofs]?).getD (d a) else d a
  else if recovering then .ok d
  else .error 13622

def applyEntries (recovering : Bool) : List JEntry → Data → Except Nat Data
  | [], d => .ok d
  | e :: rest, d => (e.write size recovering d).bind (applyEntries recovering rest)

def processSection (sec : JSection) (d : Data) : Except Nat Data :=
  if lsn > sec.header.seqNumber + ExtraKeepTimeMs then .ok d else applyEntries size true sec.entries d

/-- The flag says that the file ended abruptly. -/
def processFileBuffer (fileId : Nat) (leftover : Bool) :
    List Record → Data → Except Nat (Data × Bool)
  | [], d => .ok (d, leftover)
  | .torn :: _, d => .ok (d, true)
  | .whole sec :: rest, d =>
    if sec.header.fileId ≠ fileId then .ok (d, true)
    else (processSection size lsn sec d).bind (processFileBuffer fileId leftover rest)

def processFile (f : JournalFile) (d : Data) : Except Nat (Data × Bool) :=
  match f.header with
  | none => .ok (d, true)
  | some fileId => processFileBuffer size lsn fileId f.leftover f.records d

def go : List JournalFile → Data → Except Nat Data
  | [], d => .ok d
  | f :: rest, d =>
    (processFile size lsn f d).bind fun r =>
      if r.2 = true ∧ rest ≠ [] then .error 13535 else go rest r.1

/-- Each file but the first needs the one before it. -/
def getFiles (dir : List JournalFile) : Except Nat (List JournalFile) :=
  if ¬ (dir.map JournalFile.number).Nodup then .error 13531
  else
    let files := dir.insertionSort fun f g => f.number ≤ g.number
    if ∀ f ∈ files.tail, f.number - 1 ∈ dir.map JournalFile.number then .ok files else .error 13532

def recover (dir : List JournalFile) (lsnFile : Option (Option LSNFile)) (d : Data) :
    Except Nat Data :=
  (getFiles dir).bind fun files =>
    if files = [] then .ok d else (journalReadLSN lsnFile).bind fun lsn => go size lsn files d

end

/-- What an entry does to the data files. -/
def JEntry.patch (size : Nat) (e : JEntry) : Patch Nat UInt8 := fun a =>
  if e.ofs + e.data.length ≤ size ∧ e.ofs ≤ a then e.data[a - e.ofs]? else none

def patches (size : Nat) (secs : List JSection) : List (Patch Nat UInt8) :=
  secs.flatMap fun sec => sec.entries.map (JEntry.patch size)

/-- The data after the sections, in the order in which they were committed. -/
def commit (size : Nat) (secs : List JSection) (d : Data) : Data := replay (patches size secs) d

section Lemmas
variable {size lsn : Nat} {d : Data}

theorem JEntry.patch_of_le (e : JEntry) {a : Nat} (h : size ≤ a) : e.patch size a = none := by
  rw [patch]
  split
  · next hfits => exact List.getElem?_eq_none (by omega)
  · rfl

theorem untouched_of_le (secs : List JSection) {a : Nat} (h : size ≤ a) :
    Untouched (patches size secs) a := by
  intro p hp
  obtain ⟨sec, -, hp⟩ := mem_flatMap.mp hp
  obtain ⟨e, -, rfl⟩ := mem_map.mp hp
  exact e.patch_of_le h

theorem patches_append (secs more : List JSection) :
    patches size (secs ++ more) = patches size secs ++ patches size more := flatMap_append

theorem patches_subset {secs more : List JSection} (h : secs ⊆ more) :
    patches size secs ⊆ patches size more := by
  intro p hp
  obtain ⟨sec, hsec, hp⟩ := mem_flatMap.mp hp
  exact mem_flatMap.mpr ⟨sec, h hsec, hp⟩

theorem commit_append (secs more : List JSection) (d : Data) :
    commit size (secs ++ more) d = commit size more (commit size secs d) := by
  rw [commit, patches_append, replay_append]
  rfl

theorem commit_singleton (sec : JSection) (d : Data) :
    commit size [sec] d = replay (sec.entries.map (JEntry.patch size)) d := by
  rw [commit, patches, flatMap_singleton]

variable (size) in
theorem JEntry.write_recovering (e : JEntry) (d : Data) :
    e.write size true d = .ok (apply d (e.patch size)) := by
  unfold write
  split
  next hfits =>
    congr 1
    funext a
    by_cases ha : e.ofs ≤ a
    · rw [if_pos ha, apply, patch, if_pos ⟨hfits, ha⟩]
    · rw [if_neg ha, apply, patch, if_neg (fun h => ha h.2), Option.getD_none]
  next hfits =>
    rw [if_pos rfl]
    congr 1
    funext a
    rw [apply, patch, if_neg (fun h => hfits h.1), Option.getD_none]

theorem JEntry.write_eq {e : JEntry} {d' : Data} (h : e.write size false d = .ok d') :
    d' = apply d (e.patch size) := by
  have hrec := e.write_recovering size d
  unfold write at h hrec
  split at h
  next hfits =>
    rw [if_pos hfits] at hrec
    rw [← Except.ok.inj h, Except.ok.inj hrec]
  next hfits => cases h

theorem applyEntries_recovering (es : List JEntry) (d : Data) :
    applyEntries size true es d = .ok (replay (es.map (JEntry.patch size)) d) := by
  induction es generalizing d with
  | nil => rfl
  | cons e es ih =>
    rw [applyEntries, e.write_recovering]
    exact ih _

section
variable {view : Data} {a : Nat}

/-- The merged intents, which were sorted by their ends, declare the same bytes. -/
theorem mergeIntents_declares {last : WriteIntent} {rest : List WriteIntent}
    (h : (last :: rest).Pairwise (·.stop ≤ ·.stop)) :
    (∃ j ∈ mergeIntents last rest, j.Declares a) ↔ ∃ i ∈ last :: rest, i.Declares a := by
  induction rest generalizing last with
  | nil => rfl
  | cons next rest ih =>
    obtain ⟨hlast, hrest⟩ := pairwise_cons.mp h
    have hle := hlast next mem_cons_self
    rw [mergeIntents]
    split
    next hoverlap =>
      -- `next` ends last, so there is no gap in what the one absorbs of the other
      have habsorb : (last.absorb next).Declares a ↔ last.Declares a ∨ next.Declares a := by
        simp only [WriteIntent.Declares, WriteIntent.absorb]
        omega
      obtain ⟨hnext, hrest⟩ := pairwise_cons.mp hrest
      have hsorted : (last.absorb next :: rest).Pairwise (·.stop ≤ ·.stop) :=
        pairwise_cons.mpr ⟨fun i hi => max_le (hle.trans (hnext i hi)) (hnext i hi), hrest⟩
      rw [ih hsorted]
      simp only [exists_mem_cons_iff, habsorb, or_assoc]
    next =>
      simp only [exists_mem_cons_iff] at ih ⊢
      rw [ih hrest]

theorem patch_prepBasicWrite (i : WriteIntent) :
    (prepBasicWrite size view i).patch size a =
      if a < size ∧ i.Declares a then some (view a) else none := by
  have hlength : (prepBasicWrite size view i).data.length =
      min (i.stop - i.start) (size - i.start) := by simp [prepBasicWrite, WriteIntent.length]
  have hofs : (prepBasicWrite size view i).ofs = i.start := rfl
  rw [JEntry.patch]
  split_ifs with hfits hin hin
  · refine List.getElem?_eq_some_iff.mpr ⟨by omega, ?_⟩
    simp [prepBasicWrite, Nat.add_sub_cancel' hin.2.1]
  · exact List.getElem?_eq_none_iff.mpr (by omega)
  · omega
  · rfl

/-- A group commit gives each declared byte the value that it has in the private view, and changes
no other. -/
theorem commit_prepLogBuffer (intents : List WriteIntent) (lastFlushTime curFileId : Nat) (d : Data) :
    commit size [prepLogBuffer size view intents lastFlushTime curFileId] d a =
      if a < size ∧ ∃ i ∈ intents, i.Declares a then view a else d a := by
  have hsorted : (getIntentsSorted intents).Pairwise (·.stop ≤ ·.stop) := pairwise_insertionSort _ _
  have hmem : ∀ i, i ∈ intents ↔ i ∈ getIntentsSorted intents := fun i => (mem_insertionSort _).symm
  simp only [commit_singleton, prepLogBuffer, hmem]
  generalize getIntentsSorted intents = sorted at hsorted
  cases sorted with
  | nil => simp [prepBasicWrites, replay]
  | cons first rest =>
    simp only [prepBasicWrites, map_map, ← mergeIntents_declares hsorted]
    rw [replay_map_ite (f := JEntry.patch size ∘ prepBasicWrite size view) patch_prepBasicWrite]
    by_cases hsize : a < size <;> simp only [hsize, true_and, false_and, and_false, exists_false]

end

/-- The sections that recovery does not skip. -/
def kept (lsn : Nat) (secs : List JSection) : List JSection :=
  secs.filter fun sec => ¬ lsn > sec.header.seqNumber + ExtraKeepTimeMs

theorem kept_append (secs more : List JSection) :
    kept lsn (secs ++ more) = kept lsn secs ++ kept lsn more := filter_append ..

theorem processSection_eq (sec : JSection) (d : Data) :
    processSection size lsn sec d = .ok (commit size (kept lsn [sec]) d) := by
  rw [processSection]
  split
  next hskip =>
    rw [kept, filter_cons_of_neg (by simpa using hskip)]
    rfl
  next hskip =>
    rw [applyEntries_recovering, kept, filter_cons_of_pos (by simpa using hskip), filter_nil,
      commit_singleton]

/-- The records are whole sections of this file, but the last one may be torn. -/
def JournalFile.Readable (f : JournalFile) : Prop :=
  (f.header = none ∧ f.records = []) ∨
    ∃ fileId, f.header = some fileId ∧ (∀ sec ∈ f.sections, sec.header.fileId = fileId) ∧
      (f.records = f.sections.map .whole ∨ f.records = f.sections.map .whole ++ [.torn])

/-- The file was truncated behind its last section. -/
structure JournalFile.Complete (f : JournalFile) : Prop where
  readable : f.Readable
  header : f.header ≠ none
  records : f.records = f.sections.map .whole
  leftover : f.leftover = false

variable (size lsn) in
theorem processFileBuffer_eq {fileId : Nat} (leftover : Bool) (tail : List Record)
    {secs : List JSection} (hid : ∀ sec ∈ secs, sec.header.fileId = fileId) (d : Data) :
    processFileBuffer size lsn fileId leftover (secs.map .whole ++ tail) d =
      processFileBuffer size lsn fileId leftover tail (commit size (kept lsn secs) d) := by
  induction secs generalizing d with
  | nil => rfl
  | cons sec secs ih =>
    have hmine : ¬ sec.header.fileId ≠ fileId := not_not_intro (hid sec mem_cons_self)
    rw [map_cons, cons_append, processFileBuffer, if_neg hmine, processSection_eq]
    show processFileBuffer size lsn fileId leftover _ _ = _
    rw [ih fun sec' h => hid sec' (mem_cons_of_mem sec h), ← commit_append, ← kept_append,
      singleton_append]

variable (size lsn) in
theorem processFile_eq {f : JournalFile} (h : f.Readable) (d : Data) :
    ∃ abrupt, processFile size lsn f d = .ok (commit size (kept lsn f.sections) d, abrupt) := by
  rcases h with ⟨hnone, hrecords⟩ | ⟨fileId, hheader, hid, hwhole | htorn⟩
  · refine ⟨true, ?_⟩
    rw [processFile, hnone, JournalFile.sections, hrecords]
    rfl
  · refine ⟨f.leftover, ?_⟩
    have heq := processFileBuffer_eq size lsn f.leftover [] hid d
    rw [append_nil, ← hwhole] at heq
    rw [processFile, hheader]
    exact heq
  · refine ⟨true, ?_⟩
    have heq := processFileBuffer_eq size lsn f.leftover [.torn] hid d
    rw [← htorn] at heq
    rw [processFile, hheader]
    exact heq

theorem processFile_complete {f : JournalFile} (h : f.Complete) (d : Data) :
    processFile size lsn f d = .ok (commit size (kept lsn f.sections) d, false) := by
  rcases h.readable with ⟨hnone, -⟩ | ⟨fileId, hheader, hid, -⟩
  · exact absurd hnone h.header
  · have heq := processFileBuffer_eq size lsn f.leftover [] hid d
    rw [append_nil, ← h.records, h.leftover] at heq
    rw [processFile, hheader]
    rw [h.leftover]
    exact heq

/-- Complete files, and one more that may end abruptly, are applied without an error. -/
theorem go_eq {files : List JournalFile} {last : Option JournalFile}
    (hfiles : ∀ f ∈ files, f.Complete) (hlast : ∀ f, last = some f → f.Readable) (d : Data) :
    go size lsn (files ++ last.toList) d =
      .ok (commit size (kept lsn ((files ++ last.toList).flatMap JournalFile.sections)) d) := by
  induction files generalizing d with
  | nil =>
    cases last with
    | none => rfl
    | some f =>
      obtain ⟨abrupt, hf⟩ := processFile_eq size lsn (hlast f rfl) d
      have hstop : ¬ (abrupt = true ∧ ([] : List JournalFile) ≠ []) := fun h => h.2 rfl
      rw [Option.toList_some, nil_append, go, hf, Except.bind, if_neg hstop,
        flatMap_singleton]
      rfl
  | cons f files ih =>
    have hrest := ih (forall_mem_cons.mp hfiles).2
    rw [cons_append, go, processFile_complete (hfiles f mem_cons_self), Except.bind,
      if_neg (fun h => Bool.false_ne_true h.1), hrest, ← commit_append, ← kept_append,
      flatMap_cons]

end Lemmas

end MongolDb.MmapV1
