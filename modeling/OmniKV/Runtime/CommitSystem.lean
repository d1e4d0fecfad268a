import OmniKV.Runtime.GroupCommit
import OmniKV.Storage.Recovery

/-!
# Concurrent commits with failing fsyncs

Writers run the whole commit path: they reserve sequence numbers and heap space, write
their payloads, append to the log, join a group, and insert into the memtable once they
are acknowledged. The leader of a group holds the log from the start of its fsync until
a failed one has discarded what is not durable.
-/

namespace OmniKV

/-- How an fsync of the heap and the log ends. -/
inductive SyncOutcome
  | ok
  | heapFailed (err : OmniError)
  | walFailed (err : OmniError)

/-- How discarding the bytes that are not durable ends; an error is only printed. -/
inductive DiscardOutcome
  | ok
  | failed (truncated : Bool)
deriving DecidableEq

/-- What a commit has done besides the group protocol. -/
inductive Progress
  | start
  | reserved (seq offset : ℕ)
  | written (seq offset : ℕ)
  | inserted (seq offset : ℕ)

structure CommitSystem (ι : Type*) where
  engine : Engine
  protocol : GroupCommit ι
  progress : ι → Progress
  walLock : Option ι

/-- The steps of a commit, each of which takes a lock once. -/
inductive CommitAction (ι : Type*)
  | reserve (w : ι)
  | heapWrite (w : ι)
  | append (w : ι)
  | join (w : ι)
  | wake (w : ι)
  | beginSync (w : ι)
  | endSync (w : ι) (outcome : SyncOutcome)
  | poison (w : ι)
  | discard (w : ι) (outcome : DiscardOutcome)
  | markSynced (w : ι)
  | insert (w : ι)

def Progress.range : Progress → Option (ℕ × ℕ)
  | .start => none
  | .reserved seq offset | .written seq offset | .inserted seq offset => some (seq, offset)

def SyncOutcome.failure : SyncOutcome → Option OmniError
  | .ok => none
  | .heapFailed err | .walFailed err => some err

namespace WriteAheadLog

/-- The effect of `discard_undurable` on the log. -/
def discard (w : WriteAheadLog) : DiscardOutcome → WriteAheadLog
  | .ok => w.discardUndurable
  | .failed true => { w with data := w.discardUndurable.data }
  | .failed false => w

end WriteAheadLog

namespace CommitSystem

variable {ι : Type*}

def initial (e : Engine) : CommitSystem ι := ⟨e, .initial, fun _ => .start, none⟩

def syncFiles (e : Engine) : SyncOutcome → Engine
  | .ok => e.syncGroupCommitFiles
  | .heapFailed _ => e
  | .walFailed _ => { e with files := e.files.sync e.heapFile }

variable [External]

def batchOf (tx : ι → WriteBatch) (s : CommitSystem ι) (w : ι) : Option LogBatch :=
  (s.progress w).range.map fun (seq, offset) => (tx w).logBatch seq offset

variable [DecidableEq ι]

def setProgress (s : CommitSystem ι) (w : ι) (p : Progress) : CommitSystem ι :=
  { s with progress := Function.update s.progress w p }

/-- What an action does, if the writer is where it can take it and the locks are free. -/
def next (tx : ι → WriteBatch) (s : CommitSystem ι) : CommitAction ι → Option (CommitSystem ι)
  | .reserve w =>
    match s.progress w with
    | .start => some { s.setProgress w (.reserved s.engine.globalSeq s.engine.heapOffset) with
        engine := s.engine.reserve (tx w) }
    | _ => none
  | .heapWrite w =>
    match s.progress w with
    | .reserved seq offset => some { s.setProgress w (.written seq offset) with
        engine := s.engine.heapWrite (wrap64 offset) ((tx w).prepped.map (·.bytes)) }
    | _ => none
  | .append w =>
    match s.progress w, s.walLock, s.protocol.next (.append w) with
    | .written seq offset, none, some protocol =>
      match s.protocol.group.poisoned with
      | some _ => some { s with protocol := protocol }
      | none => some { s with
          protocol := protocol
          engine := s.engine.walAppend ((tx w).logBatch seq offset).all }
    | _, _, _ => none
  | .join w => (s.protocol.next (.join w)).map fun protocol => { s with protocol := protocol }
  | .wake w => (s.protocol.next (.wake w)).map fun protocol => { s with protocol := protocol }
  | .beginSync w =>
    match s.walLock, s.protocol.next (.beginSync w) with
    | none, some protocol => some { s with protocol := protocol, walLock := some w }
    | _, _ => none
  | .endSync w outcome =>
    (s.protocol.next (.endSync w outcome.failure)).map fun protocol =>
      { s with
        protocol := protocol
        engine := syncFiles s.engine outcome
        walLock := if outcome.failure = none then none else s.walLock }
  | .poison w => (s.protocol.next (.poison w)).map fun protocol => { s with protocol := protocol }
  | .discard w outcome =>
    (s.protocol.next (.discard w)).map fun protocol =>
      { s with
        protocol := protocol
        engine := { s.engine with files :=
          { s.engine.files with wal := s.engine.files.wal.discard outcome } }
        walLock := none }
  | .markSynced w =>
    (s.protocol.next (.markSynced w)).map fun protocol => { s with protocol := protocol }
  | .insert w =>
    match s.progress w, s.protocol.phase w with
    | .written seq offset, .acked _ _ => some { s.setProgress w (.inserted seq offset) with
        engine := s.engine.memtableInsert ((tx w).logBatch seq offset).all }
    | _, _ => none

end CommitSystem

end OmniKV
