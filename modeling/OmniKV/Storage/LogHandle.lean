import OmniKV.Data.Run
import OmniKV.Storage.WalReplay

/-!
# The log handle and failing writes

The handle keeps two counters: how much of the file is durable, and how much was appended since. An
append that fails raises neither, but some of its bytes may be in the file already, and the writer
keeps others in its buffer.
-/

namespace OmniKV

open List LogBatch

/-- The open log. A file opened in append mode has no cursor of its own. -/
structure LogHandle where
  file : Bytes
  cursor : Option ℕ
  buffer : Bytes
  durableOffset : ℕ
  pending : ℕ
deriving DecidableEq, Repr

/-- So many bytes reached the file, and so many of the others stay in the buffer. -/
structure WriteFault where
  written : ℕ
  kept : ℕ
deriving DecidableEq, Repr

namespace LogHandle

def new (file : Bytes) : LogHandle := ⟨file, none, [], file.length, 0⟩

variable (h : LogHandle)

def write (data : Bytes) : LogHandle :=
  match h.cursor with
  | none => { h with file := h.file ++ data }
  | some pos => { h with file := Bytes.writeAt h.file pos data, cursor := some (pos + data.length) }

/-- Write and flush through the buffer. -/
def writeAll (frame : Bytes) (fault : Option WriteFault) : LogHandle :=
  let data := h.buffer ++ frame
  match fault with
  | none => { h.write data with buffer := [] }
  | some f => { h.write (data.take f.written) with buffer := (data.drop f.written).take f.kept }

def markPendingDurable : LogHandle :=
  { h with durableOffset := h.durableOffset + h.pending, pending := 0 }

def sync (ok : Bool) : LogHandle := if ok then h.markPendingDurable else h

/-- Truncate to the durable offset, and go on writing at the end. -/
def discardUndurable : LogHandle :=
  let flushed := h.writeAll [] none
  let file := flushed.file.take h.durableOffset ++ List.replicate
    (h.durableOffset - flushed.file.length) 0
  { flushed with file := file, cursor := some file.length, pending := 0 }

/-- Truncate to nothing. The old writer goes away only then, and writes what it still holds. -/
def rotateSegment : LogHandle :=
  ⟨({ h with file := [] }.write h.buffer).file, some 0, [], 0, 0⟩

section

variable {h : LogHandle}

/-- The next byte goes to the end of the file. -/
def AtEnd (h : LogHandle) : Prop := ∀ pos ∈ h.cursor, pos = h.file.length

variable (atEnd : h.AtEnd)

include atEnd

theorem AtEnd.file_write (data : Bytes) : (h.write data).file = h.file ++ data := by
  unfold write
  cases place : h.cursor with
  | none => rfl
  | some pos =>
    rw [atEnd pos place]
    exact Bytes.writeAt_end h.file data

theorem AtEnd.write (data : Bytes) : (h.write data).AtEnd := by
  have grown := atEnd.file_write data
  intro pos place
  rw [grown, length_append]
  unfold LogHandle.write at place
  cases before : h.cursor with
  | none => simp [before] at place
  | some old =>
    rw [before] at place
    rw [← atEnd old before, ← Option.some.inj place]

theorem AtEnd.writeAll (frame : Bytes) (fault : Option WriteFault) :
    (h.writeAll frame fault).AtEnd := by
  cases fault with
  | none | some f => exact atEnd.write _

theorem AtEnd.file_writeAll (frame : Bytes) :
    (h.writeAll frame none).file = h.file ++ (h.buffer ++ frame) := atEnd.file_write _

theorem AtEnd.prefix_writeAll (frame : Bytes) (fault : Option WriteFault) :
    h.file <+: (h.writeAll frame fault).file := by
  cases fault with
  | none => exact atEnd.file_writeAll frame ▸ prefix_append ..
  | some f => exact (atEnd.file_write ((h.buffer ++ frame).take f.written)).symm ▸ prefix_append ..

omit atEnd

@[simp] theorem durableOffset_writeAll (h : LogHandle) (frame : Bytes) (fault : Option WriteFault) :
    (h.writeAll frame fault).durableOffset = h.durableOffset := by
  unfold writeAll write
  cases fault <;> cases h.cursor <;> rfl

@[simp] theorem pending_writeAll (h : LogHandle) (frame : Bytes) (fault : Option WriteFault) :
    (h.writeAll frame fault).pending = h.pending := by
  unfold writeAll write
  cases fault <;> cases h.cursor <;> rfl

theorem file_rotateSegment (empty : h.buffer = []) : h.rotateSegment.file = [] := by
  rw [rotateSegment, empty]
  cases h.cursor with
  | none => rfl
  | some pos => exact Bytes.writeAt_nil [] pos

end

variable [External]

def appendBatchNosync (h : LogHandle) (records : List OmniRecord) (fault : Option WriteFault) :
    LogHandle :=
  let h' := h.writeAll (encodeBatch records) fault
  if fault.isNone then { h' with pending := h'.pending + (encodeBatch records).length } else h'

/-- Append and fsync. The fsync may fail as well. -/
def appendBatch (h : LogHandle) (records : List OmniRecord) (fault : Option WriteFault)
    (synced : Bool) : LogHandle :=
  let h' := h.appendBatchNosync records fault
  if fault.isNone then h'.sync synced else h'

end LogHandle

section

variable [External]

/-- The batches of the log: those that are durable and those that wait for an fsync. -/
structure Journal where
  durable : List LogBatch
  waiting : List LogBatch

variable (j : Journal)

namespace Journal

def all : List LogBatch := j.durable ++ j.waiting

def settle : Journal := ⟨j.all, []⟩

def add (b : LogBatch) : Journal := { j with waiting := j.waiting ++ [b] }

@[simp] theorem all_settle : j.settle.all = j.all := append_nil _

@[simp] theorem all_add (b : LogBatch) : (j.add b).all = j.all ++ [b] :=
  (append_assoc ..).symm

end Journal

/-- A call of the handle, with what goes wrong in it. -/
inductive JournalCall
  | appendBatchNosync (b : LogBatch) (fault : Option WriteFault)
  | appendBatch (b : LogBatch) (fault : Option WriteFault) (synced : Bool)
  | sync (ok : Bool)
  | markPendingDurable
  | discardUndurable
  | rotateSegment

/-- A batch whose bytes were written waits for the next successful fsync. -/
def Journal.next : JournalCall → Journal
  | .appendBatchNosync b fault => if fault.isNone then j.add b else j
  | .appendBatch b fault synced =>
    if fault.isNone then if synced then (j.add b).settle else j.add b else j
  | .sync ok => if ok then j.settle else j
  | .markPendingDurable => j.settle
  | .discardUndurable => { j with waiting := [] }
  | .rotateSegment => ⟨[], []⟩

def LogHandle.next (h : LogHandle) : JournalCall → LogHandle
  | .appendBatchNosync b fault => h.appendBatchNosync b.all fault
  | .appendBatch b fault synced => h.appendBatch b.all fault synced
  | .sync ok => h.sync ok
  | .markPendingDurable => h.markPendingDurable
  | .discardUndurable => h.discardUndurable
  | .rotateSegment => h.rotateSegment

structure LogSystem where
  handle : LogHandle
  journal : Journal

namespace LogSystem

def opened (batches : List LogBatch) : LogSystem := ⟨.new (frames batches), ⟨batches, []⟩⟩

def next (s : LogSystem) (call : JournalCall) : Option LogSystem :=
  some ⟨s.handle.next call, s.journal.next call⟩

end LogSystem

/-- Bytes of a failed append are in the file or in the buffer. -/
def LogHandle.Torn (h : LogHandle) : Prop :=
  h.buffer ≠ [] ∨ h.file.length ≠ h.durableOffset + h.pending
deriving Decidable

/-- Nothing is appended behind a failed append, nor left to a rotation; the keys can be logged. -/
def LogSystem.Careful (s : LogSystem) : JournalCall → Prop
  | .appendBatchNosync b _ => ¬s.handle.Torn ∧ b.KeysFit
  | .appendBatch b _ _ => ¬s.handle.Torn ∧ b.KeysFit
  | .rotateSegment => s.handle.buffer = []
  | _ => True

namespace LogSystem

variable {s s' : LogSystem}

/-- The file begins with the batches of the journal, and the counters tell where they end. -/
structure Tracks (s : LogSystem) : Prop where
  layout : frames s.journal.all <+: s.handle.file
  durable : s.handle.durableOffset = (frames s.journal.durable).length
  pending : s.handle.pending = (frames s.journal.waiting).length
  atEnd : s.handle.AtEnd
  keys : ∀ b ∈ s.journal.all, b.KeysFit

namespace Tracks

variable {h : LogHandle} {j : Journal}

theorem opened {batches : List LogBatch} (short : ∀ b ∈ batches, b.KeysFit) :
    (opened batches).Tracks where
  layout := by simp [LogSystem.opened, LogHandle.new, Journal.all]
  durable := rfl
  pending := rfl
  atEnd := nofun
  keys := by simpa [LogSystem.opened, Journal.all] using short

variable (tracks : Tracks ⟨h, j⟩)

include tracks

/-- A file without leftovers consists of the batches. -/
theorem file_eq (whole : ¬h.Torn) : h.file = frames j.all := by
  have length : (frames j.all).length = h.file.length := by
    have counted : h.file.length = h.durableOffset + h.pending := not_not.mp (not_or.mp whole).2
    rw [counted, tracks.durable, tracks.pending, Journal.all, frames_append, length_append]
  exact (tracks.layout.eq_of_length length).symm

theorem append (whole : ¬h.Torn) {b : LogBatch} (short : b.KeysFit) :
    Tracks ⟨h.appendBatchNosync b.all none, j.add b⟩ where
  layout := by
    have empty : h.buffer = [] := not_not.mp (not_or.mp whole).1
    have grown : (h.writeAll (encodeBatch b.all) none).file = frames (j.add b).all := by
      rw [tracks.atEnd.file_writeAll, empty, nil_append, tracks.file_eq whole, Journal.all_add,
        frames_append, frames_singleton]
    exact grown.symm ▸ prefix_rfl
  durable := (h.durableOffset_writeAll _ none).trans tracks.durable
  pending := by
    have counted : h.pending = (frames j.waiting).length := tracks.pending
    simp [LogHandle.appendBatchNosync, Journal.add, counted]
  atEnd := tracks.atEnd.writeAll _ none
  keys := by
    rw [Journal.all_add]
    exact forall_mem_append.mpr ⟨tracks.keys, by simpa using short⟩

/-- A failing append adds bytes that no counter knows of. -/
theorem append_failed (records : List OmniRecord) (f : WriteFault) :
    Tracks ⟨h.appendBatchNosync records (some f), j⟩ where
  layout := tracks.layout.trans (tracks.atEnd.prefix_writeAll _ (some f))
  durable := (h.durableOffset_writeAll _ (some f)).trans tracks.durable
  pending := (h.pending_writeAll _ (some f)).trans tracks.pending
  atEnd := tracks.atEnd.writeAll _ (some f)
  keys := tracks.keys

theorem settle : Tracks ⟨h.markPendingDurable, j.settle⟩ where
  layout := j.all_settle ▸ tracks.layout
  durable := by
    have counted : h.durableOffset = (frames j.durable).length := tracks.durable
    have counted' : h.pending = (frames j.waiting).length := tracks.pending
    simp [LogHandle.markPendingDurable, Journal.settle, Journal.all, counted, counted']
  pending := rfl
  atEnd := tracks.atEnd
  keys := j.all_settle ▸ tracks.keys

theorem sync (ok : Bool) : Tracks ⟨h.sync ok, if ok then j.settle else j⟩ := by
  cases ok with
  | false => exact tracks
  | true => exact tracks.settle

/-- Truncation leaves the durable batches. -/
theorem file_discardUndurable : h.discardUndurable.file = frames j.durable := by
  obtain ⟨more, layout⟩ := tracks.layout
  have flushed : (h.writeAll [] none).file = frames j.durable ++ (frames j.waiting ++ more ++
      h.buffer) := by
    rw [tracks.atEnd.file_writeAll, append_nil, ← layout, Journal.all, frames_append]
    simp only [append_assoc]
  have counted : h.durableOffset = (frames j.durable).length := tracks.durable
  have inside : (frames j.durable).length - (h.writeAll [] none).file.length = 0 := by
    rw [flushed, length_append]
    omega
  rw [LogHandle.discardUndurable]
  rw [counted, inside, flushed, take_left' rfl]
  exact append_nil _

theorem discard : Tracks ⟨h.discardUndurable, { j with waiting := [] }⟩ where
  layout := by
    rw [tracks.file_discardUndurable, Journal.all, append_nil]
  durable := (h.durableOffset_writeAll [] none).trans tracks.durable
  pending := rfl
  atEnd := by
    rintro _ ⟨⟩
    rfl
  keys b member := tracks.keys b (mem_append_left _ (by simpa [Journal.all] using member))

theorem file_iterate_discard (n : ℕ) :
    (LogHandle.discardUndurable^[n + 1] h).file = frames j.durable := by
  induction n generalizing h j with
  | zero => exact tracks.file_discardUndurable
  | succ n ih => exact ih (j := { j with waiting := [] }) tracks.discard

omit tracks

theorem rotate (empty : h.buffer = []) : Tracks ⟨h.rotateSegment, ⟨[], []⟩⟩ where
  layout := nil_prefix
  durable := rfl
  pending := rfl
  atEnd := by
    rintro _ ⟨⟩
    rw [LogHandle.file_rotateSegment empty]
    rfl
  keys := nofun

theorem next {call : JournalCall} (tracks : s.Tracks) (careful : s.Careful call)
    (step : s.next call = some s') : s'.Tracks := by
  cases Option.some.inj step
  cases call with
  | appendBatchNosync b fault =>
    cases fault with
    | none => exact tracks.append careful.1 careful.2
    | some f => exact tracks.append_failed b.all f
  | appendBatch b fault synced =>
    cases fault with
    | none => exact (tracks.append careful.1 careful.2).sync synced
    | some f => exact tracks.append_failed b.all f
  | sync ok => exact tracks.sync ok
  | markPendingDurable => exact tracks.settle
  | discardUndurable => exact tracks.discard
  | rotateSegment => exact rotate careful

end Tracks

end LogSystem

/-- If no append follows a failed one before the next truncation, every batch of the journal is
replayed. -/
theorem log_keeps_batches {batches : List LogBatch} (short : ∀ b ∈ batches, b.KeysFit)
    {s : LogSystem}
    (run : Relation.ReflTransGen (Run.SafeStep LogSystem.Careful LogSystem.next) (.opened batches)
    s) :
    frames s.journal.all <+: s.handle.file ∧ s.journal.all.flatMap records <+: replay
      s.handle.file ∧
      ∀ n, (LogHandle.discardUndurable^[n + 1] s.handle).file = frames s.journal.durable ∧
        replay (LogHandle.discardUndurable^[n + 1] s.handle).file =
        s.journal.durable.flatMap records := by
  have tracks : s.Tracks := Run.invariant run (.opened short) fun tracks careful step =>
    tracks.next careful step
  refine ⟨tracks.layout, ?_, fun n => ?_⟩
  · obtain ⟨more, layout⟩ := tracks.layout
    rw [← layout, frames, replay_frames_append (replayable_of_mem tracks.keys),
      flatMap_committedRecords]
    exact prefix_append ..
  · have file := tracks.file_iterate_discard n
    have keys : ∀ b ∈ s.journal.durable, b.KeysFit := fun b member =>
      tracks.keys b (mem_append_left _ member)
    exact ⟨file, by rw [file, replay_logBatches keys]⟩

instance (b : LogBatch) : Decidable b.KeysFit := inferInstanceAs (Decidable (∀ r ∈ b.records, _))

instance (s : LogSystem) : ∀ call, Decidable (s.Careful call)
  | .appendBatchNosync .. | .appendBatch .. => inferInstanceAs (Decidable (_ ∧ _))
  | .rotateSegment => inferInstanceAs (Decidable (_ = _))
  | .sync _ | .markPendingDurable | .discardUndurable => inferInstanceAs (Decidable True)

end

section

open Reference

/-- The batch that sets `k` to `v`, numbered from a sequence on. -/
def sampleLogged (seq : ℕ) : LogBatch := sampleWrite.logBatch seq 0

/-- The second of three appends stops after four bytes. Truncation cuts the third batch off, and the
second, which failed, is replayed in its place. -/
theorem failed_append_displaces_batch :
    (([.appendBatchNosync (sampleLogged 1) none,
      .appendBatchNosync (sampleLogged 3) (some ⟨4, 106⟩),
      .appendBatchNosync (sampleLogged 5) none, .sync true, .discardUndurable] :
      List JournalCall).foldlM LogSystem.next (.opened [])).any (fun s =>
      s.journal.durable.map records = [(sampleLogged 1).records, (sampleLogged 5).records] ∧
        replay s.handle.file = (sampleLogged 1).records ++ (sampleLogged 3).records) = true := by
  decide +kernel

/-- A truncation after the failed append keeps the third batch. -/
theorem log_keeps_batches_after_failure : ∃ s : LogSystem,
    s.journal.durable.map records = [(sampleLogged 1).records, (sampleLogged 5).records] ∧
      replay (LogHandle.discardUndurable^[1] s.handle).file =
      s.journal.durable.flatMap records := by
  have run := Run.safeStep_get LogSystem.Careful LogSystem.next (.opened [])
    [.appendBatch (sampleLogged 1) none true, .appendBatchNosync (sampleLogged 3) (some ⟨4, 106⟩),
      .discardUndurable, .appendBatchNosync (sampleLogged 5) none, .sync true] (by decide +kernel)
  have short : ∀ b ∈ ([] : List LogBatch), b.KeysFit := nofun
  exact ⟨_, by decide +kernel, ((log_keeps_batches short run).2.2 0).2⟩

end

end OmniKV
