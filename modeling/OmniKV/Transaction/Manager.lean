import OmniKV.Storage.View
import OmniKV.Transaction.History

/-!
# The transaction manager

Each call is one step. A commit holds the lock of the history from the conflict check to the record
of its own commit, and the transition lock from before that to its end; a snapshot is taken with
that lock held exclusively.
-/

namespace OmniKV

structure TransactionManager where
  db : Engine
  history : SsiHistory
  nextTxnId : ℕ
  activeTxns : SortedMap ℕ ℕ
  /-- The timeout, as it is printed. -/
  txnTimeout : String

/-- A commit fails behind its reservation, when so many bytes of the values are in the heap. -/
structure CommitFault where
  error : OmniError
  written : ℕ

section

variable [External]

namespace Engine

/-- A batch that failed: the numbers and the heap space are used up, and the log is as
before. -/
def abandoned (e : Engine) (tx : WriteBatch) (written : ℕ) : Engine :=
  { e.reserve tx with
    files := e.files.write e.heapFile (wrap64 e.heapOffset) (tx.payloads.take written) }

def commitBatchLocalLocked (e : Engine) (tx : WriteBatch) (fault : Option CommitFault) :
    Except OmniError ℕ × Engine :=
  match e.commitBatchLocal tx, fault with
  | .error err, _ => (.error err, e)
  | .ok (e', seq), none => (.ok seq, e')
  | .ok _, some fault => (.error fault.error, e.abandoned tx fault.written)

omit [External] in
/-- The oldest snapshot in use, or the last assigned number if there is none. -/
def minActiveSnapshot (e : Engine) : ℕ := e.oldestActiveSnapshot.getD (e.getSeq - 1)

end Engine

def notActive : OmniError := .ioError "Transaction is not active"

variable (m : TransactionManager) (txn : Transaction)

namespace TransactionManager

section

omit [External]

def new (db : Engine) (history : SsiHistory) (txnTimeout : String) : TransactionManager :=
  ⟨db, history, 1, .empty, txnTimeout⟩

def timedOut : OmniError :=
  .ioError ("Transaction " ++ toString txn.id ++ " timed out after " ++ m.txnTimeout)

/-- Forget a transaction and release its snapshot. -/
def cleanupTxn : TransactionManager :=
  { m with
    activeTxns := m.activeTxns.filter fun entry => entry.1 ≠ txn.id
    db := m.db.unregisterSnapshot txn.readSeq }

def begin : Transaction × TransactionManager :=
  let (db, readSeq) := m.db.snapshot
  (.new m.nextTxnId readSeq, { m with
      db := db
      nextTxnId := wrap64 (m.nextTxnId + 1)
      activeTxns := m.activeTxns.insert m.nextTxnId readSeq })

end

/-- Read a key: the own write of it, or the value in the snapshot. -/
def get (key : Bytes) (now : UInt64) (expired : Bool) :
    Except OmniError (Option Bytes) × Transaction × TransactionManager :=
  if txn.state ≠ .active then (.error notActive, txn, m)
  else if expired then (.error (m.timedOut txn), { txn with state := .aborted }, m.cleanupTxn txn)
  else
    let txn := { txn with readSet := txn.readSet.insert key }
    match txn.writeSet.get? key with
    | some (value, _) => (.ok value, txn, m)
    | none =>
      let (value, db) := m.db.find key txn.readSeq now
      (value, txn, { m with db := db })

end TransactionManager

namespace Transaction

def recordReadRange (start stop : Bytes) : Except OmniError Transaction :=
  if txn.state ≠ .active then .error notActive
  else .ok { txn with readRanges := txn.readRanges ++ [(start, stop)] }

def setWithTtl (key value : Bytes) (ttl : UInt64) : Except OmniError Transaction :=
  if txn.state ≠ .active then .error notActive
  else .ok { txn with writeSet := txn.writeSet.insert key (some value, ttl) }

def set (key value : Bytes) : Except OmniError Transaction :=
  txn.setWithTtl key value 0

def delete (key : Bytes) : Except OmniError Transaction :=
  if txn.state ≠ .active then .error notActive
  else .ok { txn with writeSet := txn.writeSet.insert key (none, 0) }

def overlay (start stop : Bytes) (stored : List (Bytes × Bytes)) : List (Bytes × Bytes) :=
  stored.filter (fun entry => entry.1 < stop ∧ txn.writeSet.get? entry.1 = none) ++
    txn.writeSet.entries.filterMap fun (key, value, _) =>
      if InRange (start, stop) key then value.map (key, ·) else none

end Transaction

namespace TransactionManager

/-- The range is recorded, the snapshot is scanned, and the own writes are laid over the result. -/
def scanRange (start stop : Bytes) (now : UInt64) :
    Except OmniError (List (Bytes × Bytes)) × Transaction × TransactionManager :=
  match txn.recordReadRange start stop with
  | .error err => (.error err, txn, m)
  | .ok txn =>
    let (stored, db) := m.db.scan start stop txn.readSeq now
    (stored.map (txn.overlay start stop), txn, { m with db := db })

/-- Validate a transaction and apply its writes. One that the storage layer fails stays active. -/
def commit (now : UInt64) (expired : Bool)
    (fault : Option CommitFault) : Except OmniError ℕ × Transaction × TransactionManager :=
  if txn.state ≠ .active then (.error notActive, txn, m)
  else if expired then (.error (m.timedOut txn), { txn with state := .aborted }, m.cleanupTxn txn)
  else if txn.writeSet.entries = [] then
    (.ok txn.readSeq, { txn with state := .committed }, m.cleanupTxn txn)
  else
    match SsiHistory.scanConflicts txn m.history with
    | some conflict =>
      (.error (.ioError conflict.message), { txn with state := .aborted }, m.cleanupTxn txn)
    | none =>
      match txn.buildWriteBatch now with
      | .error err => (.error err, txn, m)
      | .ok batch =>
        match m.db.commitBatchLocalLocked batch fault with
        | (.error err, db) => (.error err, txn, { m with db := db })
        | (.ok commitSeq, db) =>
          let m := { m with db := db, history := m.history ++ [txn.record commitSeq] }
          let m := m.cleanupTxn txn
          (.ok commitSeq, { txn with state := .committed },
            { m with history := m.history.prune m.db.minActiveSnapshot })

omit [External] in
def abort : Transaction × TransactionManager :=
  ({ txn with state := .aborted, writeSet := .empty, readSet := [], readRanges := [], savepoints :=
    [] }, m.cleanupTxn txn)

end TransactionManager

end

end OmniKV
