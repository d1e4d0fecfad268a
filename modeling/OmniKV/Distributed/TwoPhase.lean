import Mathlib.Data.Prod.Lex
import OmniKV.Data.Keys
import OmniKV.Storage.Store

/-!
# Two-phase commit

A coordinator asks nodes to prepare, collects their votes and logs a decision; a participant keeps a
prepared batch in memory. A call that releases its lock is cut there: its first part returns what is
left to do, and `resume` does the next part. Each storage commit takes its outcome as an argument.
-/

namespace OmniKV

namespace TwoPhase

/-- The coordinator's node and its local transaction sequence. -/
abbrev GlobalTxnId := ℕ ×ₗ ℕ

/-- The first transaction of node 1. -/
def sampleTxn : GlobalTxnId := toLex (1, 1)

inductive DistTxnState
  | preparing
  | waitingForVotes
  | committing
  | committed
  | aborted
  | inDoubt
deriving DecidableEq, Repr

structure DistWrite where
  nodeId : ℕ
  key : Bytes
  value : Option Bytes
  ttl : UInt64
deriving DecidableEq, Repr

inductive Vote
  | commit
  | abort (reason : String)
deriving DecidableEq, Repr

structure DistTransaction where
  id : GlobalTxnId
  state : DistTxnState
  writesByNode : SortedMap ℕ (List DistWrite)
  votes : SortedMap ℕ Vote
  createdAt : UInt64
  timeoutMs : UInt64

structure PrepareResult where
  nodeId : ℕ
  txnId : GlobalTxnId
  vote : Vote
deriving DecidableEq

/-- What a record of the coordinator's log says. -/
inductive LogState
  | prepare
  | commit
  | abort
deriving DecidableEq, Repr

def LogState.text : LogState → Bytes
  | .prepare => .ofString "PREPARE"
  | .commit => .ofString "COMMIT"
  | .abort => .ofString "ABORT"

structure TwoPhaseLogEntry where
  txnId : GlobalTxnId
  state : LogState
  participants : List ℕ
  timestamp : UInt64
deriving DecidableEq

/-- A storage commit can fail before the batch is stored, or with the batch already in the log. -/
inductive CommitOutcome
  | ok
  | lost (err : OmniError)
  | kept (err : OmniError)
deriving DecidableEq

namespace CommitOutcome

def stores : CommitOutcome → Bool
  | .ok | .kept _ => true
  | .lost _ => false

def result : CommitOutcome → Except OmniError Unit
  | .ok => .ok ()
  | .lost err | .kept err => .error err

def commitBatch (outcome : CommitOutcome) (db : TimedStore) (tx : WriteBatch) : TimedStore :=
  if outcome.stores then db.commit tx else db

end CommitOutcome

structure Coordinator where
  nodeId : ℕ
  log : SortedMap Bytes TwoPhaseLogEntry
  nextSeq : ℕ
  activeTxns : SortedMap GlobalTxnId DistTransaction
  defaultTimeoutMs : UInt64

def logPrefix : Bytes := .ofString "__2PC_LOG__/"

def logKey (id : GlobalTxnId) (state : LogState) : Bytes :=
  logPrefix ++ (Bytes.decimal id.1 ++ 95 :: (Bytes.decimal id.2 ++ 47 :: state.text))

theorem LogState.text_inj {st st' : LogState} (same : st.text = st'.text) : st = st' := by
  cases st <;> cases st' <;> first | rfl | exact absurd same (by decide)

theorem logKey_inj {id id' : GlobalTxnId} {st st' : LogState}
    (same : logKey id st = logKey id' st') : id = id' ∧ st = st' := by
  obtain ⟨node, rest⟩ := Bytes.append_cons_inj (Bytes.not_mem_decimal (by decide) _)
    (Bytes.not_mem_decimal (by decide) _) (List.append_cancel_left same)
  obtain ⟨seq, text⟩ := Bytes.append_cons_inj (Bytes.not_mem_decimal (by decide) _)
    (Bytes.not_mem_decimal (by decide) _) rest
  exact ⟨Prod.ext (Bytes.decimal_inj node) (Bytes.decimal_inj seq), LogState.text_inj text⟩

/-- A decision of `receive_vote` that is not logged yet, with the reply it will give. -/
structure Decision where
  txnId : GlobalTxnId
  state : LogState
  participants : List ℕ
  reply : Except OmniError DistTxnState

/-- What is left of a call that has released the lock. -/
inductive Call
  | decide (decision : Decision)
  | abort (txnId : GlobalTxnId) (participants : List ℕ)
  | remove (txnId : GlobalTxnId) (participants : List ℕ)

namespace Coordinator

def txnNotFound : OmniError := .ioError "Transaction not found"

def notPreparing : OmniError := .ioError "Transaction is not in PREPARING state"

def notWaiting : OmniError := .ioError "Not waiting for votes"

/-- A coordinator over the log of a database. -/
def new (nodeId : ℕ) (log : SortedMap Bytes TwoPhaseLogEntry) (timeoutMs : UInt64) : Coordinator :=
  ⟨nodeId, log, 1, .empty, timeoutMs⟩

def begin (c : Coordinator) (now : UInt64) : GlobalTxnId × Coordinator :=
  let txnId : GlobalTxnId := toLex (c.nodeId, c.nextSeq)
  (txnId, { c with
    nextSeq := wrap64 (c.nextSeq + 1)
    activeTxns := c.activeTxns.insert txnId
      ⟨txnId, .preparing, .empty, .empty, now, c.defaultTimeoutMs⟩ })

def putTxn (c : Coordinator) (txnId : GlobalTxnId) (txn : DistTransaction) : Coordinator :=
  { c with activeTxns := c.activeTxns.insert txnId txn }

variable (c : Coordinator)

@[simp] theorem get?_putTxn (txnId id : GlobalTxnId) (txn : DistTransaction) :
    (c.putTxn txnId txn).activeTxns.get? id =
      if id = txnId then some txn else c.activeTxns.get? id := SortedMap.get?_insert _ _ _ _

def removeTxn (c : Coordinator) (txnId : GlobalTxnId) : Coordinator :=
  { c with activeTxns := c.activeTxns.erase txnId }

def addWrite (c : Coordinator) (txnId : GlobalTxnId) (nodeId : ℕ) (key : Bytes)
    (value : Option Bytes) (ttl : UInt64) : Except OmniError Coordinator :=
  match c.activeTxns.get? txnId with
  | none => .error txnNotFound
  | some txn =>
    if txn.state ≠ .preparing then .error notPreparing
    else
      let writes := (txn.writesByNode.get? nodeId).getD []
      .ok (c.putTxn txnId { txn with
        writesByNode := txn.writesByNode.insert nodeId (writes ++ [⟨nodeId, key, value, ttl⟩]) })

/-- Write a state change to the recovery log. -/
def logState (c : Coordinator) (txnId : GlobalTxnId) (state : LogState) (participants : List ℕ)
    (now : UInt64) (outcome : CommitOutcome) : Except OmniError Unit × Coordinator :=
  (outcome.result, if outcome.stores then
    { c with log := c.log.insert (logKey txnId state) ⟨txnId, state, participants, now⟩ } else c)

variable (txnId : GlobalTxnId) (state : LogState) (participants : List ℕ) (now : UInt64)
  (outcome : CommitOutcome)

@[simp] theorem activeTxns_logState :
    (c.logState txnId state participants now outcome).2.activeTxns = c.activeTxns := by
  rw [logState]
  split_ifs <;> rfl

@[simp] theorem nextSeq_logState : (c.logState txnId state participants now outcome).2.nextSeq =
    c.nextSeq := by
  rw [logState]
  split_ifs <;> rfl

/-- A log write changes the record of one transaction and state at most. -/
theorem get?_log_logState (id : GlobalTxnId) (st : LogState) :
    (c.logState txnId state participants now outcome).2.log.get? (logKey id st) =
      if outcome.stores ∧ id = txnId ∧ st = state then some ⟨txnId, state, participants, now⟩
      else c.log.get? (logKey id st) := by
  have keys : logKey id st = logKey txnId state ↔ id = txnId ∧ st = state :=
    ⟨logKey_inj, fun ⟨sameId, sameState⟩ => by rw [sameId, sameState]⟩
  rw [logState]
  cases stored : outcome.stores with
  | false => simp
  | true => simp [SortedMap.get?_insert, keys]

def participantsOf (txn : DistTransaction) : List ℕ := txn.writesByNode.entries.map Prod.fst

def prepare (c : Coordinator) (txnId : GlobalTxnId) (now : UInt64) (outcome : CommitOutcome) :
    Except OmniError (List ℕ) × Coordinator :=
  match c.activeTxns.get? txnId with
  | none => (.error txnNotFound, c)
  | some txn =>
    if txn.state ≠ .preparing then (.error notPreparing, c)
    else
      match c.logState txnId .prepare (participantsOf txn) now outcome with
      | (.error err, c) => (.error err, c)
      | (.ok (), c) =>
        (.ok (participantsOf txn), c.putTxn txnId { txn with state := .waitingForVotes })

def abortReasons (votes : SortedMap ℕ Vote) : List String :=
  votes.entries.filterMap fun entry =>
    match entry.2 with
    | .abort reason => some reason
    | .commit => none

def abortedError (votes : SortedMap ℕ Vote) : OmniError :=
  .ioError ("Distributed transaction aborted: " ++ String.intercalate "; " (abortReasons votes))

/-- Record a vote. If it is the last one the decision is taken, and is still to be logged. -/
def receiveVote (c : Coordinator) (txnId : GlobalTxnId) (result : PrepareResult) :
    Except OmniError (Coordinator × Option Decision) :=
  match c.activeTxns.get? txnId with
  | none => .error txnNotFound
  | some txn =>
    if txn.state ≠ .waitingForVotes then .error notWaiting
    else
      let txn := { txn with votes := txn.votes.insert result.nodeId result.vote }
      if txn.votes.entries.map Prod.fst = participantsOf txn then
        if txn.votes.entries.all fun entry => entry.2 = .commit then
          .ok (c.putTxn txnId { txn with state := .committing },
            some ⟨txnId, .commit, participantsOf txn, .ok .committing⟩)
        else
          .ok (c.putTxn txnId { txn with state := .aborted },
            some ⟨txnId, .abort, participantsOf txn, .error (abortedError txn.votes)⟩)
      else .ok (c.putTxn txnId txn, none)

/-- Mark the transaction as committed and remove it, whatever its state is. -/
def finalizeCommit (c : Coordinator) (txnId : GlobalTxnId) : Coordinator := c.removeTxn txnId

/-- Abort a transaction at any stage; the log record and the removal are still to be done. -/
def abort (c : Coordinator) (txnId : GlobalTxnId) : Except OmniError (Coordinator × Call) :=
  match c.activeTxns.get? txnId with
  | none => .error txnNotFound
  | some txn =>
    .ok (c.putTxn txnId { txn with state := .aborted }, .abort txnId (participantsOf txn))

def checkTimeouts (c : Coordinator) (now : UInt64) : List GlobalTxnId :=
  c.activeTxns.entries.filterMap fun entry =>
    if entry.2.state = .waitingForVotes ∧ entry.2.timeoutMs < (now - entry.2.createdAt) * 1000
    then some entry.1 else none

def getState (c : Coordinator) (txnId : GlobalTxnId) : Option DistTxnState :=
  (c.activeTxns.get? txnId).map DistTransaction.state

def getParticipantWrites (c : Coordinator) (txnId : GlobalTxnId) (nodeId : ℕ) :
    Option (List DistWrite) :=
  (c.activeTxns.get? txnId).bind fun txn => txn.writesByNode.get? nodeId

end Coordinator

inductive Message
  | prepare (txnId : GlobalTxnId) (nodeId : ℕ) (writes : List DistWrite)
  | vote (result : PrepareResult)
  | commit (txnId : GlobalTxnId) (nodeId : ℕ)
  | abort (txnId : GlobalTxnId) (nodeId : ℕ)
deriving DecidableEq

/-- Commits after `Ok(Committing)`, aborts after the error of an aborted transaction. -/
def Decision.messages (d : Decision) : List Message :=
  match d.state with
  | .commit => d.participants.map (.commit d.txnId)
  | .abort => d.participants.map (.abort d.txnId)
  | .prepare => []

/-- The next part of a call. It leaves the rest of the call and what its caller sends. -/
def Coordinator.resume (c : Coordinator) (now : UInt64) (outcome : CommitOutcome) :
    Call → Coordinator × Option Call × List Message
  | .decide d =>
    match c.logState d.txnId d.state d.participants now outcome with
    | (.ok (), c) => (c, none, d.messages)
    | (.error _, c) => (c, none, [])
  | .abort txnId participants =>
    match c.logState txnId .abort participants now outcome with
    | (.ok (), c) => (c, some (.remove txnId participants), [])
    | (.error _, c) => (c, none, [])
  | .remove txnId participants => (c.removeTxn txnId, none, participants.map (.abort txnId))

/-- The coordinator after a log write is the same whether the write reports success or not. -/
theorem Coordinator.fst_resume (c : Coordinator) (now : UInt64) (outcome : CommitOutcome)
    (call : Call) : (c.resume now outcome call).1 = match call with
      | .decide d => (c.logState d.txnId d.state d.participants now outcome).2
      | .abort txnId participants => (c.logState txnId .abort participants now outcome).2
      | .remove txnId _ => c.removeTxn txnId := by
  cases call with
  | decide d | abort txnId participants =>
    rw [resume]
    split <;> exact (congrArg Prod.snd ‹_›).symm
  | remove txnId participants => rfl

structure Participant where
  nodeId : ℕ
  db : TimedStore
  prepared : SortedMap GlobalTxnId WriteBatch

namespace Participant

def new (nodeId : ℕ) (db : TimedStore) : Participant := ⟨nodeId, db, .empty⟩

/-- Add one write to the batch of a prepare; the error is the reason of an abort vote. -/
def stageWrite (now : UInt64) (batch : WriteBatch) (write : DistWrite) : Except String WriteBatch :=
  match write.value with
  | some value =>
    match (if write.ttl > 0 then batch.setWithTtl write.key value write.ttl now
      else batch.set write.key value) with
    | .ok batch => .ok batch
    | .error err => .error ("Batch error: " ++ err.text)
  | none =>
    match batch.delete write.key with
    | .ok batch => .ok batch
    | .error err => .error ("Delete error: " ++ err.text)

def stageWrites (now : UInt64) (writes : List DistWrite) : Except String WriteBatch :=
  writes.foldlM (stageWrite now) .new

def markerKey (txnId : GlobalTxnId) : Bytes :=
  Bytes.ofString "__2PC_PREPARE__/" ++ (Bytes.decimal txnId.1 ++ 95 :: Bytes.decimal txnId.2)

variable (p : Participant)

/-- The batch of a marker record, whose size is never refused. -/
def markerBatch (txnId : GlobalTxnId) (label : Bytes) : WriteBatch :=
  (WriteBatch.new.set (markerKey txnId) (label ++ 58 :: Bytes.decimal p.nodeId)).toOption.getD .new

def prepare (txnId : GlobalTxnId) (writes : List DistWrite) (now : UInt64)
    (outcome : CommitOutcome) : PrepareResult × Participant :=
  match stageWrites now writes with
  | .error reason => (⟨p.nodeId, txnId, .abort reason⟩, p)
  | .ok batch =>
    let db := outcome.commitBatch p.db (p.markerBatch txnId (.ofString "PREPARED"))
    match outcome.result with
    | .ok () =>
      (⟨p.nodeId, txnId, .commit⟩, { p with db := db, prepared := p.prepared.insert txnId batch })
    | .error err => (⟨p.nodeId, txnId, .abort ("WAL write failed: " ++ err.text)⟩, { p with db :=
      db })

def noPrepared (txnId : GlobalTxnId) : OmniError :=
  .ioError s!"No prepared transaction ({txnId.1}, {txnId.2}) on node {p.nodeId}"

/-- Apply the prepared batch, which is taken out of the map first. -/
def commit (txnId : GlobalTxnId) (outcome marker : CommitOutcome) :
    Except OmniError Unit × Participant :=
  match p.prepared.get? txnId with
  | none => (.error (p.noPrepared txnId), p)
  | some batch =>
    let p := { p with prepared := p.prepared.erase txnId, db := outcome.commitBatch p.db batch }
    match outcome.result with
    | .error err => (.error err, p)
    | .ok () =>
      (.ok (), { p with db := marker.commitBatch p.db (p.markerBatch txnId (.ofString "COMMITTED"))
        })

def abort (txnId : GlobalTxnId) (marker : CommitOutcome) : Participant :=
  { p with
    prepared := p.prepared.erase txnId
    db := marker.commitBatch p.db (p.markerBatch txnId (.ofString "ABORTED")) }

/-- A restart opens the same database; the prepared batches were in memory. -/
def restart : Participant := new p.nodeId p.db

end Participant

end TwoPhase

end OmniKV
