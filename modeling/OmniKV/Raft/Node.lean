import OmniKV.Raft.Snapshot
import OmniKV.Transaction.Manager

/-!
# Nodes and their snapshots

A node has a store, the history of committed transactions and the Raft metadata. Applying log
entries commits their writes and records the transactions among them at the local number of the
commit.
-/

namespace OmniKV

structure RaftNode where
  db : Engine
  history : SsiHistory
  state : RaftStateMeta

/-- A snapshot with everything that the receiver takes from it. -/
structure NodeSnapshot extends SnapshotEnvelope where
  lastLogId : Option LogId
  lastMembership : StoredMembership
  ssiHistory : List (ℕ × ℕ × SsiCommitRecord)

namespace SsiHistory

def snapshotEntries (history : SsiHistory) : List (ℕ × ℕ × SsiCommitRecord) :=
  history.map fun c => (c.txnId, c.commitSeq, ⟨c.txnId, c.writeKeys, c.readKeys, c.readRanges⟩)

/-- Replace the history by what a snapshot carries. -/
def installFrom (entries : List (ℕ × ℕ × SsiCommitRecord)) : SsiHistory :=
  entries.map fun (txnId, commitSeq, record) =>
    ⟨txnId, commitSeq, record.writeKeys, record.readKeys, record.readRanges⟩

theorem installFrom_snapshotEntries (history : SsiHistory) :
    installFrom history.snapshotEntries = history := by
  rw [installFrom, snapshotEntries, List.map_map]
  exact List.map_id _

end SsiHistory

/-- The bytes of the character `U+10FFFF`, at which a scan of all keys ends. -/
def lastScannedKey : Bytes := [0xF4, 0x8F, 0xBF, 0xBF]

section

variable [External]

namespace Engine

def scanIter (now : UInt64) : List Version → Engine → List (Bytes × Bytes) × Engine
  | [], e => ([], e)
  | v :: vs, e =>
    if v.dead now then scanIter now vs e
    else
      match e.readFromHeap v.pointer with
      | (.error _, e') => ([], e')
      | (.ok value, e') =>
        let (rest, e'') := scanIter now vs e'
        ((v.key, value) :: rest, e'')

/-- The newest version of every key up to the last one that is scanned. -/
def allLatestInternal (e : Engine) : List Version := e.roots.scan [] lastScannedKey (2 ^ 64 - 1)

end Engine

namespace RaftNode

/-- Commit the staged writes, and record their transactions at the number of the commit marker. -/
def flushStaged (n : RaftNode) (batch : WriteBatch) (records : List SsiCommitRecord) :
    Except OmniError RaftNode :=
  if batch.isEmpty then .ok n
  else do
    let (db, marker) ← n.db.commitBatchLocal batch
    let history := records.foldl (fun history record =>
      SsiHistory.recordCommitted history record.txnId marker record) n.history
    return { n with db := db, history := history.prune db.minActiveSnapshot }

/-- The snapshot that a scan over these versions gives. -/
def buildFrom (n : RaftNode) (versions : List Version) (now : UInt64) :
    Except OmniError NodeSnapshot × RaftNode :=
  match n.state.lastApplied with
  | none => (.error (.ioError "Cannot snapshot empty state machine"), n)
  | some lastApplied =>
    let (entries, db) := Engine.scanIter now versions n.db
    (.ok
      { version := snapshotVersion
        maxSeq := n.db.getSeq
        entries := entries.filter fun entry => !isRaftKey entry.1
        lastLogId := some lastApplied
        lastMembership := n.state.membership
        ssiHistory := n.history.snapshotEntries }, { n with db := db })

def buildSnapshot (n : RaftNode) (now : UInt64) : Except OmniError NodeSnapshot × RaftNode :=
  n.buildFrom n.db.allLatestInternal now

def installedState (n : RaftNode) (snapshot : NodeSnapshot) : RaftStateMeta :=
  { n.state with
    lastApplied := snapshot.lastLogId
    lastLogId := snapshot.lastLogId
    lastPurgedLogId := snapshot.lastLogId
    membership := snapshot.lastMembership }

/-- Replace the store and the history by those of a snapshot. -/
def installSnapshot (n : RaftNode) (snapshot : NodeSnapshot) (metaJson : Bytes) (token : ℕ) :
    Except OmniError RaftNode := do
  let db ← n.db.installSnapshot snapshot.toSnapshotEnvelope metaJson token
  return ⟨db, SsiHistory.installFrom snapshot.ssiHistory, n.installedState snapshot⟩

end RaftNode

end

end OmniKV
