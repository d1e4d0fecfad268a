import OmniKV.Raft.Node

/-!
# The history of commits across a snapshot

A transaction is validated against the recorded ones above its read sequence. A snapshot brings
records with the sender's numbers, which say nothing about the state that a transaction read before
the installation.
-/

namespace OmniKV

open List
open Relation (ReflTransGen)
open SsiHistory Engine

/-- The record of a transaction that a node commits at `seq`. -/
def SsiCommitRecord.committedAt (record : SsiCommitRecord) (seq : ℕ) : CommittedTxn :=
  ⟨record.txnId, seq, record.writeKeys, record.readKeys, record.readRanges⟩

theorem SsiHistory.foldl_recordCommitted (records : List SsiCommitRecord) (seq : ℕ)
    (history : SsiHistory) :
    records.foldl (fun history record => history.recordCommitted record.txnId seq record) history =
      history ++ records.map (·.committedAt seq) := by
  induction records generalizing history with
  | nil => simp
  | cons record records ih =>
    rw [foldl_cons, ih, recordCommitted, append_assoc]
    rfl

def After (applied : Option LogId) (index : ℕ) : Prop := ∀ id ∈ applied, id.index < index
deriving Decidable

/-- A node with the log indices of its history, and where each transaction began. -/
structure Replica where
  node : RaftNode
  logged : List (ℕ × CommittedTxn)
  begun : List (ℕ × Option LogId)

/-- A snapshot on its way, with the log indices of the transactions it carries. -/
structure SentSnapshot where
  snapshot : NodeSnapshot
  logged : List (ℕ × CommittedTxn)

structure Cluster (ι : Type*) where
  replicas : ι → Replica
  sent : List SentSnapshot

/-- What happens at a node `i`. A node that restarts is another node of the cluster, which finds
some files.
-/
inductive ClusterAction (ι : Type*)
  | flush (i : ι) (batch : WriteBatch) (records : List (ℕ × SsiCommitRecord)) (last : LogId)
  | engine (i : ι) (op : EngineOp)
  | begin (i : ι)
  | build (i : ι) (now : UInt64)
  | install (i : ι) (n : ℕ) (metaJson : Bytes) (token : ℕ)

section

variable [External]

namespace Replica

variable (r : Replica)

/-- The indices of the history after a batch with these transactions. -/
def recordLogged (batch : WriteBatch) (records : List (ℕ × SsiCommitRecord))
    (minActiveSeq : ℕ) : List (ℕ × CommittedTxn) :=
  let seq := (r.node.db.nextBatch batch).marker.seq
  if batch.isEmpty then r.logged
  else (r.logged ++ records.map fun entry => (entry.1, entry.2.committedAt seq)).filter
    fun entry => entry.2.commitSeq ≥ minActiveSeq

/-- Apply entries. Their indices are new, and `last` is the last of them. -/
def flush (batch : WriteBatch) (records : List (ℕ × SsiCommitRecord)) (last : LogId) :
    Option Replica :=
  if ∀ entry ∈ records, After r.node.state.lastApplied entry.1 ∧ entry.1 ≤ last.index then
    (r.node.flushStaged batch (records.map Prod.snd)).toOption.map fun node =>
      { r with
        node := { node with state := { node.state with lastApplied := some last } }
        logged := r.recordLogged batch records node.db.minActiveSnapshot }
  else none

def engine : EngineOp → Option Replica
  | .reopen => none
  | op => (r.node.db.next op).map fun db => { r with node := { r.node with db := db } }

omit [External] in
def begin : Replica :=
  { r with
    node := { r.node with db := r.node.db.snapshot.1 }
    begun := r.begun ++ [(r.node.db.snapshot.2, r.node.state.lastApplied)] }

def install (m : SentSnapshot) (metaJson : Bytes) (token : ℕ) : Option Replica :=
  (r.node.installSnapshot m.snapshot metaJson token).toOption.map fun node =>
    { r with node := node, logged := m.logged }

end Replica

namespace Cluster

variable {ι : Type*} [DecidableEq ι]

omit [External] in
def update (s : Cluster ι) (i : ι) (r : Replica) : Cluster ι :=
  { s with replicas := Function.update s.replicas i r }

def send (s : Cluster ι) (i : ι) : Except OmniError NodeSnapshot × RaftNode → Option (Cluster ι)
  | (.error _, _) => none
  | (.ok snapshot, node) => some
      { (s.update i { s.replicas i with node := node }) with
        sent := s.sent ++ [⟨snapshot, (s.replicas i).logged⟩] }

def next (s : Cluster ι) : ClusterAction ι → Option (Cluster ι)
  | .flush i batch records last => ((s.replicas i).flush batch records last).map (s.update i)
  | .engine i op => ((s.replicas i).engine op).map (s.update i)
  | .begin i => some (s.update i (s.replicas i).begin)
  | .build i now => s.send i ((s.replicas i).node.buildSnapshot now)
  | .install i n metaJson token =>
    s.sent[n]?.bind fun m => ((s.replicas i).install m metaJson token).map (s.update i)

/-- All nodes have just been opened, over whatever files they have. -/
def Initial (s : Cluster ι) : Prop :=
  s.sent = [] ∧ ∀ i, (s.replicas i).node.history = [] ∧ (s.replicas i).logged = [] ∧
    ∃ disk, openDb disk = .ok (s.replicas i).node.db

omit [External] in
/-- No sequence counter overflows. -/
def Room (s : Cluster ι) : ClusterAction ι → Prop
  | .flush i batch _ _ => (s.replicas i).node.db.globalSeq + (batch.opCount + 1) < 2 ^ 64
  | .engine i (.commit tx) => (s.replicas i).node.db.globalSeq + (tx.opCount + 1) < 2 ^ 64
  | .install _ n _ _ => ∀ m ∈ s.sent[n]?, m.snapshot.maxSeq + 1 < 2 ^ 64
  | _ => True

omit [External] [DecidableEq ι] in
instance (s : Cluster ι) (action : ClusterAction ι) : Decidable (s.Room action) := by
  cases action with
  | engine i op => rcases op <;> unfold Room <;> infer_instance
  | flush i batch records last | begin i | build i now | install i n metaJson token =>
    unfold Room; infer_instance

end Cluster

namespace Engine

omit [External] in
theorem globalSeq_publish (e : Engine) (t : TableHandle) (roots : StorageRoots) (old : List Path) :
    (e.publish t roots old).globalSeq = e.globalSeq := rfl

omit [External] in
theorem globalSeq_pushL0 (e : Engine) (t : TableHandle) (m : Manifest) (idx : ℕ) :
    ((((e.writeTable t).saveManifest m).pushL0 t m).removeFrozenMemtable idx).globalSeq =
      e.globalSeq := rfl

theorem globalSeq_le_of_effect {e e' : Engine} {op : EngineOp} (effect : Effect e op e')
    (room : ∀ tx, op = .commit tx → e.globalSeq + (tx.opCount + 1) < 2 ^ 64)
    (stays : op ≠ .reopen) : e.globalSeq ≤ e'.globalSeq := by
  cases effect with
  | commit =>
    rw [globalSeq_committed_of_lt (room _ rfl)]
    exact Nat.le_add_right _ _
  | beginFlush => exact le_rfl
  | finishFlush frozen done =>
    simp only [publishFrozen] at done
    split_ifs at done
    · rw [← Except.ok.inj done]
      exact le_rfl
    · rw [← Except.ok.inj done, globalSeq_pushL0]
  | compactL0ToL1 done =>
    simp only [compactL0ToL1] at done
    split_ifs at done
    · rw [← Except.ok.inj done]
    · rw [← Except.ok.inj done]
      exact le_rfl
    · rw [← Except.ok.inj done, globalSeq_publish]
  | compactL1ToL2 done =>
    simp only [compactL1ToL2] at done
    split_ifs at done
    · rw [← Except.ok.inj done]
    · rw [← Except.ok.inj done, globalSeq_publish]
  | garbageCollect done =>
    simp only [runGarbageCollection] at done
    split_ifs at done
    obtain ⟨⟨records, heap⟩, -, rest⟩ := Except.bind_eq_ok done
    rw [← Except.ok.inj rest]
    exact le_rfl
  | reopen => exact absurd rfl stays
  | other same => exact same.globalSeq.ge

theorem sameData_scanIter (now : UInt64) (vs : List Version) (e : Engine) :
    SameData e (scanIter now vs e).2 := by
  induction vs generalizing e with
  | nil => exact .rfl
  | cons v vs ih =>
    rw [scanIter]
    split_ifs
    · exact ih e
    · have step := sameData_readFromHeap e v.pointer
      cases read : e.readFromHeap v.pointer with
      | mk result e' =>
        rw [read] at step
        cases result with
        | error err => exact step
        | ok value => exact step.trans (ih e')

end Engine

/-- The indices are those of the history, and every number in it has been given out. -/
structure Replica.Inv (r : Replica) : Prop where
  history : r.node.history = r.logged.map Prod.snd
  below : ∀ c ∈ r.node.history, c.commitSeq < r.node.db.globalSeq

structure SentSnapshot.Inv (m : SentSnapshot) : Prop where
  history : installFrom m.snapshot.ssiHistory = m.logged.map Prod.snd
  below : ∀ c ∈ installFrom m.snapshot.ssiHistory, c.commitSeq < m.snapshot.maxSeq

namespace Replica

variable {r r' : Replica}

/-- A step of a node keeps the invariant and does not lower the counter. -/
def Advances (r r' : Replica) : Prop :=
  (r.Inv → r'.Inv) ∧ r.node.db.globalSeq ≤ r'.node.db.globalSeq

omit [External] in
theorem Advances.of_db {db : Engine} (higher : r.node.db.globalSeq ≤ db.globalSeq)
    (begun : List (ℕ × Option LogId)) :
    r.Advances { r with node := { r.node with db := db }, begun := begun } :=
  ⟨fun inv => ⟨inv.history, fun c recorded => (inv.below c recorded).trans_le higher⟩, higher⟩

theorem advances_flush {batch : WriteBatch} {records : List (ℕ × SsiCommitRecord)} {last : LogId}
    (room : r.node.db.globalSeq + (batch.opCount + 1) < 2 ^ 64)
    (done : r.flush batch records last = some r') : r.Advances r' := by
  rw [flush] at done
  split_ifs at done
  obtain ⟨node, flushed, rfl⟩ := Option.map_eq_some_iff.mp done
  have flushed := eq_ok_of_toOption flushed
  rw [RaftNode.flushStaged] at flushed
  by_cases empty : batch.isEmpty = true
  · rw [if_pos empty] at flushed
    cases flushed
    refine ⟨fun inv => ⟨?_, inv.below⟩, le_rfl⟩
    rw [recordLogged, if_pos empty]
    exact inv.history
  · rw [if_neg empty] at flushed
    obtain ⟨⟨db, marker⟩, committed, rest⟩ := Except.bind_eq_ok flushed
    obtain ⟨-, rfl, rfl⟩ := commitBatchLocal_eq_ok committed
    cases rest
    have counter := globalSeq_committed_of_lt room
    have marker : (r.node.db.nextBatch batch).marker.seq = r.node.db.globalSeq + batch.opCount :=
      wrap64_of_lt (by omega)
    rw [foldl_recordCommitted]
    refine ⟨fun inv => ⟨?_, fun c recorded => ?_⟩, ?_⟩
    · rw [recordLogged, if_neg empty]
      simp only [prune, inv.history, filter_append, filter_map, map_append, map_map]
      rfl
    · obtain ⟨recorded, -⟩ := mem_prune.mp recorded
      rw [counter]
      obtain old | new := mem_append.mp recorded
      · exact (inv.below c old).trans_le (Nat.le_add_right _ _)
      · obtain ⟨record, -, rfl⟩ := mem_map.mp new
        show (r.node.db.nextBatch batch).marker.seq < _
        omega
    · show _ ≤ (r.node.db.committed batch).globalSeq
      omega

theorem advances_engine {op : EngineOp}
    (room : ∀ tx, op = .commit tx → r.node.db.globalSeq + (tx.opCount + 1) < 2 ^ 64)
    (done : r.engine op = some r') : r.Advances r' := by
  have stays : op ≠ .reopen := by
    rintro rfl
    cases done
  have stepped : (r.node.db.next op).map (fun db => { r with node := { r.node with db := db } }) =
      some r' := by
    cases op <;> first | exact done | exact absurd rfl stays
  obtain ⟨db, step, rfl⟩ := Option.map_eq_some_iff.mp stepped
  exact .of_db (globalSeq_le_of_effect (effect_of_next step) room stays) _

theorem install_eq_some {m : SentSnapshot} {metaJson : Bytes} {token : ℕ}
    (room : m.snapshot.maxSeq + 1 < 2 ^ 64) (done : r.install m metaJson token = some r') :
    r'.node.history = installFrom m.snapshot.ssiHistory ∧ r'.logged = m.logged ∧
      r'.node.db.globalSeq = max r.node.db.globalSeq (m.snapshot.maxSeq + 1) := by
  obtain ⟨node, answered, rfl⟩ := Option.map_eq_some_iff.mp done
  have taken := eq_ok_of_toOption answered
  obtain ⟨db, installed, result⟩ := Except.bind_eq_ok taken
  cases result
  refine ⟨rfl, rfl, ?_⟩
  rw [installSnapshot] at installed
  split_ifs at installed
  obtain ⟨built, -, rest⟩ := Except.bind_eq_ok installed
  obtain ⟨recovered, -, rest⟩ := Except.bind_eq_ok rest
  cases rest
  exact r.node.db.globalSeq_install recovered room

theorem advances_install {m : SentSnapshot} {metaJson : Bytes} {token : ℕ} (carried : m.Inv)
    (room : m.snapshot.maxSeq + 1 < 2 ^ 64) (done : r.install m metaJson token = some r') :
    r.Advances r' := by
  obtain ⟨history, logged, counter⟩ := install_eq_some room done
  refine ⟨fun _ => ⟨?_, fun c recorded => ?_⟩, by omega⟩
  · rw [history, logged, carried.history]
  · rw [history] at recorded
    have := carried.below c recorded
    omega

end Replica

namespace Cluster

variable {ι : Type*} [DecidableEq ι] {s s' : Cluster ι}

structure Inv (s : Cluster ι) : Prop where
  replicas : ∀ i, (s.replicas i).Inv
  sent : ∀ m ∈ s.sent, m.Inv

omit [External] in
/-- All nodes of a cluster advance when one of them does. -/
theorem advances_update {i : ι} {r : Replica} (advances : (s.replicas i).Advances r) (j : ι) :
    (s.replicas j).Advances ((s.update i r).replicas j) := by
  obtain rfl | other := eq_or_ne j i
  · simpa [update] using advances
  · simpa [update, other] using ⟨id, le_rfl⟩

/-- One step: all nodes advance, and a snapshot that was built has the numbers of a node. -/
theorem Inv.next {action : ClusterAction ι} (inv : s.Inv) (room : s.Room action)
    (step : s.next action = some s') :
    (∀ j, (s.replicas j).Advances (s'.replicas j)) ∧ ∀ m ∈ s'.sent, m.Inv := by
  cases action with
  | flush i batch records last =>
    obtain ⟨r, done, rfl⟩ := Option.map_eq_some_iff.mp step
    exact ⟨advances_update (Replica.advances_flush room done), inv.sent⟩
  | engine i op =>
    obtain ⟨r, done, rfl⟩ := Option.map_eq_some_iff.mp step
    refine ⟨advances_update (Replica.advances_engine ?_ done), inv.sent⟩
    rintro tx rfl
    exact room
  | begin i =>
    cases step
    have higher : (s.replicas i).node.db.globalSeq ≤ (s.replicas i).node.db.snapshot.1.globalSeq :=
      le_rfl
    have began : (s.replicas i).Advances (s.replicas i).begin := .of_db higher _
    exact ⟨advances_update began, inv.sent⟩
  | build i now =>
    rw [Cluster.next, RaftNode.buildSnapshot, RaftNode.buildFrom] at step
    cases applied : (s.replicas i).node.state.lastApplied with
    | none =>
      rw [applied] at step
      cases step
    | some lastApplied =>
      rw [applied] at step
      cases step
      have same := sameData_scanIter now (s.replicas i).node.db.allLatestInternal
        (s.replicas i).node.db
      refine ⟨advances_update (.of_db same.globalSeq.ge _), fun m sent => ?_⟩
      obtain old | new := mem_append.mp sent
      · exact inv.sent m old
      · obtain rfl := mem_singleton.mp new
        have installed := installFrom_snapshotEntries (s.replicas i).node.history
        refine ⟨installed.trans (inv.replicas i).history, fun c recorded => ?_⟩
        rw [installed] at recorded
        exact (inv.replicas i).below c recorded
  | install i n metaJson token =>
    obtain ⟨m, sent, taken⟩ := Option.bind_eq_some_iff.mp step
    obtain ⟨r, done, rfl⟩ := Option.map_eq_some_iff.mp taken
    have carried := inv.sent m (mem_of_getElem? sent)
    exact ⟨advances_update (Replica.advances_install carried (room m sent) done), inv.sent⟩

omit [DecidableEq ι] in
theorem inv_initial (start : s.Initial) : s.Inv where
  replicas i := by
    obtain ⟨history, logged, -⟩ := start.2 i
    exact ⟨by rw [history, logged]; rfl, by simp [history]⟩
  sent := by simp [start.1]

theorem inv_of_run (inv : s.Inv) (run : ReflTransGen (Run.SafeStep Room next) s s') : s'.Inv :=
  Run.invariant run inv fun inv room step =>
    ⟨fun i => ((inv.next room step).1 i).1 (inv.replicas i), (inv.next room step).2⟩

theorem globalSeq_le_of_run (inv : s.Inv) (run : ReflTransGen (Run.SafeStep Room next) s s')
    (i : ι) : (s.replicas i).node.db.globalSeq ≤ (s'.replicas i).node.db.globalSeq := by
  induction run with
  | refl => exact le_rfl
  | tail before taken ih =>
    obtain ⟨action, room, step⟩ := taken
    exact ih.trans (((inv_of_run inv before).next room step).1 i).2

/-- A transaction that began before is rejected for every later transaction of the snapshot that
wrote a key it touches. -/
def Guarded (history : SsiHistory) (logged : List (ℕ × CommittedTxn)) (readSeq : ℕ)
    (lastApplied : Option LogId) : Prop :=
  ∀ txn : Transaction, txn.readSeq = readSeq →
    ∀ entry ∈ logged, After lastApplied entry.1 → (∃ key ∈ entry.2.writeKeys, txn.Touches key) →
      scanConflicts txn history ≠ none

/-- The sender numbered above `readSeq` some writer of every key that a later transaction wrote. -/
def NumberedAbove (logged : List (ℕ × CommittedTxn)) (readSeq : ℕ) (lastApplied : Option LogId) :
    Prop :=
  ∀ entry ∈ logged, After lastApplied entry.1 → ∀ key ∈ entry.2.writeKeys,
    ∃ writer ∈ logged, key ∈ writer.2.writeKeys ∧ readSeq < writer.2.commitSeq

omit [External] [DecidableEq ι] in
theorem guarded_iff {history : SsiHistory} {logged : List (ℕ × CommittedTxn)}
    (same : history = logged.map Prod.snd) (readSeq : ℕ) (lastApplied : Option LogId) :
    Guarded history logged readSeq lastApplied ↔ NumberedAbove logged readSeq lastApplied := by
  constructor
  · intro guarded entry member after key wrote
    -- A transaction that only reads `key` is rejected because of a writer of `key`.
    let reader : Transaction := { Transaction.new 0 readSeq with readSet := [key] }
    have rejected := guarded reader rfl entry member after ⟨key, wrote,
      .inr (.inl (mem_singleton_self key))⟩
    rw [Ne, scanConflicts_eq_none_iff] at rejected
    push Not at rejected
    obtain ⟨c, recorded, above, conflict⟩ := rejected
    obtain ⟨writer, member, rfl⟩ := mem_map.mp (same ▸ recorded)
    refine ⟨writer, member, ?_, above⟩
    obtain ⟨other, wrote, touched⟩ | ⟨_, written, _⟩ := conflict
    · obtain written | reads | ⟨_, range, _⟩ := touched
      · cases written
      · exact mem_singleton.mp reads ▸ wrote
      · cases range
    · cases written
  · rintro above txn rfl entry member after ⟨key, wrote, touched⟩
    obtain ⟨writer, member, wrote, above⟩ := above entry member after key wrote
    rw [Ne, scanConflicts_eq_none_iff]
    intro free
    refine free writer.2 ?_ above (.inl ⟨key, wrote, touched⟩)
    exact same ▸ mem_map_of_mem member

/-- Transactions that began before an installation are guarded exactly if the sender's numbers are
above their read sequence; those that begin later are never rejected because of a record of the
snapshot. -/
theorem conflicts_after_install {s₀ s s' : Cluster ι} (start : s₀.Initial)
    (run : ReflTransGen (Run.SafeStep Room next) s₀ s) {i : ι} {n : ℕ} {metaJson : Bytes}
    {token : ℕ}
    {m : SentSnapshot} (sent : s.sent[n]? = some m) (room : m.snapshot.maxSeq + 1 < 2 ^ 64)
    (installed : s.next (.install i n metaJson token) = some s') : (∀ t ∈ (s.replicas i).begun,
      (Guarded (s'.replicas i).node.history m.logged t.1 t.2 ↔ NumberedAbove m.logged t.1 t.2)) ∧
    ∀ s'', ReflTransGen (Run.SafeStep Room next) s' s'' →
      ∀ txn : Transaction, txn.readSeq = (s''.replicas i).node.db.snapshot.2 →
        scanConflicts txn (s'.replicas i).node.history = none := by
  have inv := inv_of_run (inv_initial start) run
  have roomy : s.Room (.install i n metaJson token) := by
    intro m' sent'
    obtain rfl := Option.some.inj (sent.symm.trans sent')
    exact room
  have step := inv.next roomy installed
  have inv' : s'.Inv := ⟨fun j => (step.1 j).1 (inv.replicas j), step.2⟩
  have carried := inv.sent m (mem_of_getElem? sent)
  have history : (s'.replicas i).node.history = installFrom m.snapshot.ssiHistory := by
    obtain ⟨m', sent', taken⟩ := Option.bind_eq_some_iff.mp installed
    obtain rfl := Option.some.inj (sent.symm.trans sent')
    obtain ⟨r, done, rfl⟩ := Option.map_eq_some_iff.mp taken
    show (Function.update s.replicas i r i).node.history = _
    rw [Function.update_self]
    exact (Replica.install_eq_some room done).1
  refine ⟨fun t _ => guarded_iff (history.trans carried.history) t.1 t.2, ?_⟩
  intro s'' later txn begins
  have counter := globalSeq_le_of_run inv' later i
  rw [scanConflicts_eq_none_iff]
  intro c recorded above
  have below := (inv'.replicas i).below c recorded
  rw [begins] at above
  exact absurd above (not_lt.mpr (by simp only [snapshot]; omega))

end Cluster

end

namespace Cluster

section

open Reference

set_option synthInstance.maxSize 256

/-- Two nodes that have just been opened. -/
def ofEngine (e : Engine) : Cluster Bool := ⟨fun _ => ⟨⟨e, [], .default⟩, [], []⟩, []⟩

theorem initial_ofEngine {e : Engine} (start : openDb .empty = .ok e) : (ofEngine e).Initial :=
  ⟨rfl, fun _ => ⟨rfl, rfl, .empty, start⟩⟩

/-- The first log entry: a transaction that writes `k`. -/
def sampleRecord : SsiCommitRecord := ⟨7, [Bytes.ofString "k"], [], []⟩

def sampleReader (readSeq : ℕ) : Transaction :=
  { Transaction.new 0 readSeq with readSet := [Bytes.ofString "k"] }

/-- A snapshot of at most one version, which needs no sorting. -/
def buildFew (s : Cluster Bool) : Option (Cluster Bool) :=
  let versions := (s.replicas false).node.db.roots.candidates [] lastScannedKey (2 ^ 64 - 1)
  if versions.length ≤ 1 then s.send false ((s.replicas false).node.buildFrom versions 0) else none

theorem next_of_buildFew {s s' : Cluster Bool} (sent : s.buildFew = some s') :
    s.next (.build false 0) = some s' := by
  rw [buildFew] at sent
  split_ifs at sent with few
  rwa [← StorageRoots.scan_of_length_le_one few] at sent

/-- The writer of `k` has number 2 at the sender, and a transaction that read `k` before has read
sequence 4 here: it is not rejected. -/
theorem conflict_missed_after_install :
    ∃ s₀ s s' : Cluster Bool, s₀.Initial ∧ ReflTransGen (Run.Step next) s₀ s ∧
      s.next (.install true 0 [] 0) = some s' ∧ ∃ t ∈ (s.replicas true).begun, ∃ m ∈ s.sent,
        ¬Guarded (s'.replicas true).node.history m.logged t.1 t.2 := by
  have outcome : ∃ e, openDb .empty = .ok e ∧
      ∃ s, [.engine true (.commit sampleWrite), .engine true (.commit sampleWrite), .begin true,
        .flush false sampleWrite [(1, sampleRecord)] ⟨1, 0, 1⟩].foldlM next (ofEngine e) = some s ∧
        ∃ s₁, s.buildFew = some s₁ ∧ ∃ s', s₁.next (.install true 0 [] 0) = some s' ∧
            ∃ t ∈ (s₁.replicas true).begun, ∃ m ∈ s₁.sent, ∃ entry ∈ m.logged,
              After t.2 entry.1 ∧ Bytes.ofString "k" ∈ entry.2.writeKeys ∧
                scanConflicts (sampleReader t.1) (s'.replicas true).node.history = none := by
    decide +kernel
  obtain ⟨e, start, s, before, s₁, sent, s', installed, t, begun, m, member, entry, logged, after,
    wrote, free⟩ := outcome
  have run := (Run.step_of_foldlM before).tail ⟨.build false 0, next_of_buildFew sent⟩
  refine ⟨_, s₁, s', initial_ofEngine start, run, installed, t, begun, m, member, ?_⟩
  intro guarded
  exact guarded (sampleReader t.1) rfl entry logged after ⟨_, wrote,
    .inr (.inl (mem_singleton_self _))⟩ free

/-- The writer of `k` has number 2 at the sender; the transaction at the receiver reads at 0. -/
theorem conflicts_after_install_ahead :
    ∃ s₀ s s' : Cluster Bool, s₀.Initial ∧ ReflTransGen (Run.SafeStep Room next) s₀ s ∧
      s.next (.install true 0 [] 0) = some s' ∧ ∃ t ∈ (s.replicas true).begun, ∃ m,
      s.sent[0]? = some m ∧
        (∃ entry ∈ m.logged, After t.2 entry.1 ∧ Bytes.ofString "k" ∈ entry.2.writeKeys) ∧
        Guarded (s'.replicas true).node.history m.logged t.1 t.2 := by
  have outcome : ∃ e, openDb .empty = .ok e ∧ ∃ s, Run.guarded Room next (ofEngine e)
        [.begin true, .flush false sampleWrite [(1, sampleRecord)] ⟨1, 0, 1⟩] = some s ∧
        ∃ s₁, s.buildFew = some s₁ ∧ ∃ s', s₁.next (.install true 0 [] 0) = some s' ∧
            ∃ m, s₁.sent[0]? = some m ∧ m.snapshot.maxSeq + 1 < 2 ^ 64 ∧
            ∃ t ∈ (s₁.replicas true).begun,
              (∃ entry ∈ m.logged, After t.2 entry.1 ∧ Bytes.ofString "k" ∈ entry.2.writeKeys) ∧
                ∀ entry ∈ m.logged, t.1 < entry.2.commitSeq := by
    decide +kernel
  obtain ⟨e, start, s, before, s₁, sent, s', installed, m, received, room, t, begun, wrote,
    above⟩ := outcome
  have start := initial_ofEngine start
  have run :=
    (Run.safeStep_of_guarded before).tail ⟨.build false 0, trivial, next_of_buildFew sent⟩
  refine ⟨_, s₁, s', start, run, installed, t, begun, m, received, wrote, ?_⟩
  have guarded := (conflicts_after_install start run received room installed).1 t begun
  exact guarded.mpr fun entry member _ key wrote => ⟨entry, member, wrote, above entry member⟩

end

end Cluster

end OmniKV
