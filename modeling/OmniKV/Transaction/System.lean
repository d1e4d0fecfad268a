import OmniKV.Data.Serial
import OmniKV.Transaction.Manager

/-!
# Clients of the transaction manager

Any number of transactions are open at once, and their calls come in any order. With each
transaction goes what its client has seen of it: the reads and writes that returned, and
the sequence number that the commit returned.
-/

namespace OmniKV

open Option

abbrev TxnEvent := Serial.Event Bytes Bytes

structure Client where
  txn : Transaction
  trace : List TxnEvent
  result : Option ℕ

structure TxnSystem where
  manager : TransactionManager
  clients : List Client

/-- The calls, with the index of the client. Timeouts and storage failures may strike. -/
inductive TxnCall
  | begin
  | get (i : ℕ) (key : Bytes) (now : UInt64) (expired : Bool)
  | scan (i : ℕ) (start stop : Bytes) (now : UInt64)
  | set (i : ℕ) (key value : Bytes)
  | delete (i : ℕ) (key : Bytes)
  | commit (i : ℕ) (now : UInt64) (expired : Bool) (fault : Option CommitFault)
  | abort (i : ℕ)

def answered {α : Type*} (event : α → TxnEvent) : Except OmniError α → List TxnEvent
  | .ok a => [event a]
  | .error _ => []

namespace TxnSystem

def initial (m : TransactionManager) : TxnSystem := ⟨m, []⟩

def put (s : TxnSystem) (i : ℕ) (m : TransactionManager) (c : Client) : TxnSystem :=
  ⟨m, s.clients.set i c⟩

variable {i : ℕ} {c : Client} {now : UInt64}

theorem put_self {s : TxnSystem} (found : s.clients[i]? = some c) : s.put i s.manager c = s := by
  obtain ⟨bound, rfl⟩ := List.getElem?_eq_some_iff.mp found
  rw [put, List.set_getElem_self]

def buffer (s : TxnSystem) (i : ℕ) (c : Client) (event : TxnEvent) :
    Except OmniError Transaction → TxnSystem
  | .ok txn => s.put i s.manager { c with txn := txn, trace := c.trace ++ [event] }
  | .error _ => s

variable [External]

def next (s : TxnSystem) : TxnCall → Option TxnSystem
  | .begin =>
    let (txn, m) := s.manager.begin
    some ⟨m, s.clients ++ [⟨txn, [], none⟩]⟩
  | .get i key now expired => s.clients[i]?.map fun c =>
    let (answer, txn, m) := s.manager.get c.txn key now expired
    s.put i m { c with txn := txn, trace := c.trace ++ answered (.read key) answer }
  | .scan i start stop now => s.clients[i]?.map fun c =>
    let (answer, txn, m) := s.manager.scanRange c.txn start stop now
    s.put i m { c with txn := txn, trace := c.trace ++ answered (.scan start stop) answer }
  | .set i key value => s.clients[i]?.map fun c =>
    s.buffer i c (.write key (some value)) (c.txn.set key value)
  | .delete i key => s.clients[i]?.map fun c =>
    s.buffer i c (.write key none) (c.txn.delete key)
  | .commit i now expired fault => s.clients[i]?.map fun c =>
    let (answer, txn, m) := s.manager.commit c.txn now expired fault
    s.put i m { c with txn := txn, result := answer.toOption.or c.result }
  | .abort i => s.clients[i]?.map fun c =>
    let (txn, m) := s.manager.abort c.txn
    s.put i m { c with txn := txn }

def afterCommit (m : TransactionManager) (txn : Transaction) (batch : WriteBatch) :
    TransactionManager :=
  let db := (m.db.committed batch).unregisterSnapshot txn.readSeq
  { m with
    db := db
    history := SsiHistory.prune (m.history ++ [txn.record (m.db.nextBatch batch).marker.seq])
      db.minActiveSnapshot
    activeTxns := m.activeTxns.filter fun entry => entry.1 ≠ txn.id }

inductive Effect (s : TxnSystem) : TxnCall → TxnSystem → Prop
  | begun : Effect s .begin ⟨s.manager.begin.2, s.clients ++ [⟨s.manager.begin.1, [], none⟩]⟩
  /-- Nothing has changed. -/
  | refused {call : TxnCall} (other : ∀ i, call ≠ .abort i) : Effect s call s
  | ownRead {i : ℕ} {c : Client} {key : Bytes} {now : UInt64} {value : Option Bytes} {ttl : UInt64}
      (found : s.clients[i]? = some c) (active : c.txn.state = .active)
      (written : c.txn.writeSet.get? key = some (value, ttl)) :
      Effect s (.get i key now false) (s.put i s.manager
        { c with
          txn := { c.txn with readSet := c.txn.readSet.insert key }
          trace := c.trace ++ [.read key value] })
  | read {i : ℕ} {c : Client} {key : Bytes} {now : UInt64}
      (found : s.clients[i]? = some c) (active : c.txn.state = .active)
      (unwritten : c.txn.writeSet.get? key = none) :
      Effect s (.get i key now false) (s.put i
        { s.manager with db := (s.manager.db.find key c.txn.readSeq now).2 }
        { c with
          txn := { c.txn with readSet := c.txn.readSet.insert key }
          trace := c.trace ++ answered (.read key) (s.manager.db.find key c.txn.readSeq now).1 })
  | scanned {i : ℕ} {c : Client} {start stop : Bytes} {now : UInt64}
      (found : s.clients[i]? = some c) (active : c.txn.state = .active) :
      Effect s (.scan i start stop now) (s.put i
        { s.manager with db := (s.manager.db.scan start stop c.txn.readSeq now).2 }
        { c with
          txn := { c.txn with readRanges := c.txn.readRanges ++ [(start, stop)] }
          trace := c.trace ++ answered (.scan start stop)
            ((s.manager.db.scan start stop c.txn.readSeq now).1.map (c.txn.overlay start stop)) })
  | set {i : ℕ} {c : Client} {key value : Bytes}
      (found : s.clients[i]? = some c) (active : c.txn.state = .active) :
      Effect s (.set i key value) (s.put i s.manager
        { c with
          txn := { c.txn with writeSet := c.txn.writeSet.insert key (some value, 0) }
          trace := c.trace ++ [.write key (some value)] })
  | deleted {i : ℕ} {c : Client} {key : Bytes}
      (found : s.clients[i]? = some c) (active : c.txn.state = .active) :
      Effect s (.delete i key) (s.put i s.manager
        { c with
          txn := { c.txn with writeSet := c.txn.writeSet.insert key (none, 0) }
          trace := c.trace ++ [.write key none] })
  /-- A timeout or a conflict. -/
  | ended {call : TxnCall} {i : ℕ} {c : Client} (other : ∀ i, call ≠ .abort i)
      (found : s.clients[i]? = some c) (active : c.txn.state = .active) :
      Effect s call (s.put i (s.manager.cleanupTxn c.txn)
        { c with txn := { c.txn with state := .aborted } })
  | readOnly {i : ℕ} {c : Client} {now : UInt64} {fault : Option CommitFault}
      (found : s.clients[i]? = some c) (active : c.txn.state = .active)
      (unwritten : c.txn.writeSet.entries = []) :
      Effect s (.commit i now false fault) (s.put i (s.manager.cleanupTxn c.txn)
        { c with txn := { c.txn with state := .committed }, result := some c.txn.readSeq })
  | failed {i : ℕ} {c : Client} {now : UInt64} {batch : WriteBatch} {fault : CommitFault}
      (found : s.clients[i]? = some c) (active : c.txn.state = .active)
      (built : c.txn.buildWriteBatch now = .ok batch) :
      Effect s (.commit i now false (some fault)) (s.put i
        { s.manager with db := s.manager.db.abandoned batch fault.written } c)
  | committed {i : ℕ} {c : Client} {now : UInt64} {batch : WriteBatch}
      (found : s.clients[i]? = some c) (active : c.txn.state = .active)
      (written : c.txn.writeSet.entries ≠ [])
      (free : SsiHistory.scanConflicts c.txn s.manager.history = none)
      (built : c.txn.buildWriteBatch now = .ok batch) :
      Effect s (.commit i now false none) (s.put i (afterCommit s.manager c.txn batch)
        { c with
          txn := { c.txn with state := .committed }
          result := some (s.manager.db.nextBatch batch).marker.seq })
  | aborted {i : ℕ} {c : Client} (found : s.clients[i]? = some c) :
      Effect s (.abort i) (s.put i (s.manager.cleanupTxn c.txn)
        { c with txn := (s.manager.abort c.txn).1 })

variable {s s' : TxnSystem}

theorem effect_put_self {call : TxnCall} (other : ∀ i, call ≠ .abort i)
    (found : s.clients[i]? = some c) : Effect s call (s.put i s.manager c) :=
  (put_self found).symm ▸ .refused other

theorem effect_of_get {key : Bytes} {expired : Bool}
    (found : s.clients[i]? = some c) (step : s.next (.get i key now expired) = some s') :
    Effect s (.get i key now expired) s' := by
  simp only [next, found, map_some, Option.some.injEq, TransactionManager.get] at step
  split_ifs at step with inactive timeout
  · rw [← step, answered, List.append_nil]
    exact effect_put_self (by simp) found
  · rw [← step, answered, List.append_nil]
    exact .ended (by simp) found (not_not.mp inactive)
  · have active := not_not.mp inactive
    obtain rfl : expired = false := by simpa using timeout
    cases written : c.txn.writeSet.get? key with
    | some entry =>
      simp only [written] at step
      exact step ▸ .ownRead found active written
    | none =>
      simp only [written] at step
      exact step ▸ .read found active written

theorem effect_of_scan {start stop : Bytes}
    (found : s.clients[i]? = some c) (step : s.next (.scan i start stop now) = some s') :
    Effect s (.scan i start stop now) s' := by
  simp only [next, found, map_some, Option.some.injEq, TransactionManager.scanRange,
    Transaction.recordReadRange] at step
  by_cases active : c.txn.state = .active
  · rw [if_neg (not_not.mpr active)] at step
    exact step ▸ .scanned found active
  · rw [if_pos active] at step
    rw [← step, answered, List.append_nil]
    exact effect_put_self (by simp) found

theorem effect_of_commit {expired : Bool} {fault : Option CommitFault}
    (found : s.clients[i]? = some c)
    (step : s.next (.commit i now expired fault) = some s') :
    Effect s (.commit i now expired fault) s' := by
  simp only [next, found, map_some, Option.some.injEq, TransactionManager.commit] at step
  split_ifs at step with inactive timeout unwritten
  · exact step ▸ effect_put_self (by simp) found
  · exact step ▸ .ended (by simp) found (not_not.mp inactive)
  · obtain rfl : expired = false := by simpa using timeout
    exact step ▸ .readOnly found (not_not.mp inactive) unwritten
  have active := not_not.mp inactive
  obtain rfl : expired = false := by simpa using timeout
  cases free : SsiHistory.scanConflicts c.txn s.manager.history with
  | some conflict =>
    simp only [free] at step
    exact step ▸ .ended (by simp) found active
  | none =>
    cases built : c.txn.buildWriteBatch now with
    | error err =>
      simp only [free, built] at step
      exact step ▸ effect_put_self (by simp) found
    | ok batch =>
      simp only [free, built, Engine.commitBatchLocalLocked] at step
      cases stored : s.manager.db.commitBatchLocal batch with
      | error err =>
        simp only [stored] at step
        exact step ▸ effect_put_self (by simp) found
      | ok done =>
        obtain ⟨db, seq⟩ := done
        obtain ⟨-, rfl, rfl⟩ := Engine.commitBatchLocal_eq_ok stored
        cases fault with
        | none =>
          simp only [stored] at step
          exact step ▸ .committed found active unwritten free built
        | some fault =>
          simp only [stored] at step
          exact step ▸ .failed found active built

theorem effect_of_next {call : TxnCall} (step : s.next call = some s') : Effect s call s' := by
  cases call with
  | begin => exact Option.some.inj step ▸ .begun
  | get i key now expired =>
    obtain ⟨c, found, -⟩ := map_eq_some_iff.mp step
    exact effect_of_get found step
  | scan i start stop now =>
    obtain ⟨c, found, -⟩ := map_eq_some_iff.mp step
    exact effect_of_scan found step
  | set i key value =>
    obtain ⟨c, found, rfl⟩ := map_eq_some_iff.mp step
    simp only [Transaction.set, Transaction.setWithTtl]
    split_ifs with inactive
    · exact .refused (by simp)
    · exact .set found (not_not.mp inactive)
  | delete i key =>
    obtain ⟨c, found, rfl⟩ := map_eq_some_iff.mp step
    simp only [Transaction.delete]
    split_ifs with inactive
    · exact .refused (by simp)
    · exact .deleted found (not_not.mp inactive)
  | commit i now expired fault =>
    obtain ⟨c, found, -⟩ := map_eq_some_iff.mp step
    exact effect_of_commit found step
  | abort i =>
    obtain ⟨c, found, rfl⟩ := map_eq_some_iff.mp step
    exact .aborted found

end TxnSystem

end OmniKV
