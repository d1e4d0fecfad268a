import OmniKV.Transaction.System

/-!
# Explicit transactions next to autocommit statements

A statement outside of a transaction block commits its batch straight to the store, in SQL
(`stage_or_commit`) as for keys and values (`stage_kv_write`). The history of commits hears
nothing of it, so the conflict check of an explicit transaction cannot find it.
-/

namespace OmniKV

open Relation

/-- The transactions, and what autocommit statements have committed. -/
structure Server where
  system : TxnSystem
  autocommits : List (ℕ × WriteBatch)

inductive ServerCall
  | txn (call : TxnCall)
  | autocommit (batch : WriteBatch) (fault : Option CommitFault)

namespace TransactionManager

/-- The branch of `stage_or_commit` and `stage_kv_write` outside of a transaction. -/
def commitDirectly [External] (m : TransactionManager) (batch : WriteBatch)
    (fault : Option CommitFault) : Except OmniError ℕ × TransactionManager :=
  let (seq, db) := m.db.commitBatchLocalLocked batch fault
  (seq, { m with db := db })

end TransactionManager

namespace Server

def initial (m : TransactionManager) : Server := ⟨.initial m, []⟩

/-- An autocommit statement has written after the snapshot what a transaction read, scanned or
writes. -/
def Invalidated (s : Server) (txn : Transaction) : Prop :=
  ∃ u ∈ s.autocommits, txn.readSeq < u.1 ∧ ∃ op ∈ u.2.ops,
    op.1 ∈ txn.readSet ∨ op.1 ∈ txn.writeKeys ∨ ∃ range ∈ txn.readRanges, InRange range op.1
deriving Decidable

section

variable [External]

def next (s : Server) : ServerCall → Option Server
  | .txn call => (s.system.next call).map fun system => { s with system := system }
  | .autocommit batch fault =>
    let (seq, m) := s.system.manager.commitDirectly batch fault
    some ⟨{ s.system with manager := m }, s.autocommits ++ (seq.toOption.map (·, batch)).toList⟩

/-- `COMMIT` reports an error. -/
def Rejects (s : Server) (txn : Transaction) (now : UInt64) (expired : Bool)
    (fault : Option CommitFault) : Prop :=
  ∃ err, (s.system.manager.commit txn now expired fault).1 = .error err

def Unstorable (e : Engine) (txn : Transaction) (now : UInt64) (fault : Option CommitFault) :
    Prop :=
  (∃ err, txn.buildWriteBatch now = .error err) ∨
    e.l0WriteStallThreshold ≤ e.roots.sstables.length ∨ fault.isSome

end

/-- The transaction has writes and conflicts with a recorded one that committed after its snapshot.
-/
def Detected (s : Server) (txn : Transaction) : Prop :=
  ∃ r ∈ s.system.manager.history, txn.readSeq < r.commitSeq ∧ SsiHistory.Conflicts txn r

section

variable [External] {s s' : Server} {txn : Transaction} {now : UInt64} {expired : Bool}
  {fault : Option CommitFault}

theorem error_of_commitBatchLocalLocked (e : Engine) (batch : WriteBatch) :
    (∃ err, (e.commitBatchLocalLocked batch fault).1 = .error err) ↔
      e.l0WriteStallThreshold ≤ e.roots.sstables.length ∨ fault.isSome := by
  by_cases stalled : e.roots.sstables.length ≥ e.l0WriteStallThreshold
  · have stored : e.commitBatchLocal batch = .error .writeStall := if_pos stalled
    simp only [Engine.commitBatchLocalLocked, stored]
    exact iff_of_true ⟨_, rfl⟩ (.inl stalled)
  · have stored : e.commitBatchLocal batch = .ok (e.committed batch,
        (e.nextBatch batch).marker.seq) :=
      if_neg stalled
    rw [or_iff_right stalled]
    cases fault with
    | none | some fault => simp [Engine.commitBatchLocalLocked, stored]

omit [External] in
theorem detected_iff : s.Detected txn ↔ SsiHistory.scanConflicts txn s.system.manager.history ≠
    none := by
  rw [Ne, SsiHistory.scanConflicts_eq_none_iff]
  push Not
  rfl

/-- When `COMMIT` reports an error. -/
theorem rejects_iff : s.Rejects txn now expired fault ↔ txn.state ≠ .active ∨ expired = true ∨
    txn.writeSet.entries ≠ [] ∧
      (s.Detected txn ∨ Unstorable s.system.manager.db txn now fault) := by
  rw [Rejects, TransactionManager.commit]
  split_ifs with inactive timeout unwritten
  · exact iff_of_true ⟨_, rfl⟩ (.inl inactive)
  · exact iff_of_true ⟨_, rfl⟩ (.inr (.inl timeout))
  · simp [inactive, timeout, unwritten]
  rw [or_iff_right inactive, or_iff_right timeout, and_iff_right unwritten, detected_iff]
  cases free : SsiHistory.scanConflicts txn s.system.manager.history with
  | some conflict => exact iff_of_true ⟨_, rfl⟩ (.inl (by simp))
  | none =>
    rw [or_iff_right (by simp), Unstorable]
    cases built : txn.buildWriteBatch now with
    | error err => exact iff_of_true ⟨err, rfl⟩ (.inl ⟨err, rfl⟩)
    | ok batch =>
      rw [← error_of_commitBatchLocalLocked s.system.manager.db batch]
      cases stored : s.system.manager.db.commitBatchLocalLocked batch fault with
      | mk result db => cases result <;> simp [stored]

structure Explicit (s : Server) : Prop where
  pending : ∀ c ∈ s.system.clients, c.txn.state = .active → c.result = none
  recorded : ∀ r ∈ s.system.manager.history, ∃ c ∈ s.system.clients, c.result = some r.commitSeq ∧
    c.txn.id = r.txnId

omit [External] in
theorem Explicit.put {i : ℕ} {c c' : Client} {m : TransactionManager} (explicit : s.Explicit)
    (found : s.system.clients[i]? = some c) (id : c'.txn.id = c.txn.id)
    (kept : ∀ seq, c.result = some seq → c'.result = some seq)
    (pending : c'.txn.state = .active → c'.result = none)
    (history : ∀ r ∈ m.history, r ∈ s.system.manager.history ∨ c'.result = some r.commitSeq ∧
    c'.txn.id = r.txnId) : Explicit { s with system := s.system.put i m c' } := by
  obtain ⟨bound, rfl⟩ := List.getElem?_eq_some_iff.mp found
  have here : c' ∈ s.system.clients.set i c' := List.mem_set bound c'
  refine ⟨fun d member active => ?_, fun r member => ?_⟩
  · obtain old | rfl := List.mem_or_eq_of_mem_set member
    · exact explicit.pending d old active
    · exact pending active
  · obtain old | new := history r member
    · obtain ⟨d, inside, result, txnId⟩ := explicit.recorded r old
      by_cases same : d = s.system.clients[i]
      · exact ⟨c', here, kept _ (same ▸ result), id.trans (same ▸ txnId)⟩
      · refine ⟨d, ?_, result, txnId⟩
        obtain ⟨j, hj, rfl⟩ := List.getElem_of_mem inside
        refine List.mem_iff_getElem?.mpr ⟨j, ?_⟩
        rw [TxnSystem.put, List.getElem?_set_ne fun eq => same (by simp [eq])]
        exact List.getElem?_eq_getElem hj
    · exact ⟨c', here, new⟩

theorem Explicit.next {call : ServerCall} (explicit : s.Explicit) (step : s.next call = some s') :
    s'.Explicit := by
  cases call with
  | autocommit batch fault => exact Option.some.inj step ▸ ⟨explicit.pending, explicit.recorded⟩
  | txn call =>
    obtain ⟨system, taken, rfl⟩ := Option.map_eq_some_iff.mp step
    -- Every call but a commit of writes keeps the history as it is.
    have same : ∀ {m : TransactionManager} {c' : Client},
        m.history = s.system.manager.history → ∀ r ∈ m.history, r ∈ s.system.manager.history ∨
          c'.result = some r.commitSeq ∧ c'.txn.id = r.txnId :=
          fun eq r member => .inl (eq ▸ member)
    cases TxnSystem.effect_of_next taken with
    | begun =>
      refine ⟨fun d member active => ?_, fun r member => ?_⟩
      · obtain old | new := List.mem_append.mp member
        · exact explicit.pending d old active
        · rw [List.mem_singleton.mp new]
      · obtain ⟨d, inside, fact⟩ := explicit.recorded r member
        exact ⟨d, List.mem_append_left _ inside, fact⟩
    | refused => exact explicit
    | ownRead found active | read found active | scanned found active | set found active
    | deleted found active | failed found active =>
      have none := explicit.pending _ (List.mem_of_getElem? found) active
      exact explicit.put found rfl (fun _ => id) (fun _ => none) (same rfl)
    | ended _ found | aborted found => exact explicit.put found rfl (fun _ => id) nofun (same rfl)
    | readOnly found active =>
      have none := explicit.pending _ (List.mem_of_getElem? found) active
      exact explicit.put found rfl (by simp [none]) nofun (same rfl)
    | committed found active =>
      have none := explicit.pending _ (List.mem_of_getElem? found) active
      refine explicit.put found rfl (by simp [none]) nofun fun r member => ?_
      obtain old | new := List.mem_append.mp (SsiHistory.mem_prune.mp member).1
      · exact .inl old
      · rw [List.mem_singleton.mp new]
        exact .inr ⟨rfl, rfl⟩

/-- A commit is checked against explicit transactions only: one that an autocommit statement has
overtaken is rejected only if it has ended, timed out or met an explicit conflict, or the storage
layer refuses it. -/
theorem commit_rejected_iff {m : TransactionManager} (start : m.history = [])
    (run : ReflTransGen (Run.Step next) (initial m) s) (txn : Transaction) (now : UInt64)
    (expired : Bool) (fault : Option CommitFault) :
    (∀ r ∈ s.system.manager.history, ∃ c ∈ s.system.clients,
      c.result = some r.commitSeq ∧ c.txn.id = r.txnId) ∧
      ((s.Invalidated txn → s.Rejects txn now expired fault) ↔
      (s.Invalidated txn → txn.state ≠ .active ∨ expired = true ∨ txn.writeSet.entries ≠ [] ∧
        (s.Detected txn ∨ Unstorable s.system.manager.db txn now fault))) := by
  have explicit : s.Explicit := by
    refine Run.step_invariant run ?_ fun explicit step => explicit.next step
    exact ⟨by simp [initial, TxnSystem.initial], by simp [initial, TxnSystem.initial, start]⟩
  exact ⟨explicit.recorded, imp_congr_right fun _ => rejects_iff⟩

end

section

open Reference

/-- An autocommit statement sets what a transaction has read and writes, and the transaction
commits. -/
theorem commit_accepted_after_autocommit : ∃ db s, ∃ c : Client, Engine.openDb .empty = .ok db ∧
      ReflTransGen (Run.Step next) (initial (.new db [] "30s")) s ∧ c ∈ s.system.clients ∧
      s.Invalidated c.txn ∧ ¬s.Rejects c.txn 0 false none := by
  refine ⟨_, _, _, rfl, Run.step_get [.txn .begin, .txn (.get 0 (.ofString "k") 0 false),
    .autocommit sampleWrite none,
    .txn (.set 0 (.ofString "k") (.ofString "w"))] (by decide +kernel), .head _, by
      decide +kernel, ?_⟩
  unfold Rejects
  decide +kernel

/-- Here an explicit transaction has written the key as well. -/
theorem commit_rejected_after_both : ∃ db s, ∃ c : Client, Engine.openDb .empty = .ok db ∧
      ReflTransGen (Run.Step next) (initial (.new db [] "30s")) s ∧ c ∈ s.system.clients ∧
      s.Invalidated c.txn ∧ s.Rejects c.txn 0 false none := by
  have run :
      ReflTransGen (Run.Step next) (initial (.new (.ofRecovered (recoverFrom .empty .initial))
      [] "30s")) _ :=
    Run.step_get [.txn .begin, .txn .begin, .txn (.get 0 (.ofString "k") 0 false),
      .txn (.set 1 (.ofString "k") (.ofString "w")), .txn (.commit 1 0 false none),
      .autocommit sampleWrite none, .txn (.set 0 (.ofString "k") (.ofString "w"))]
      (by decide +kernel)
  refine ⟨_, _, _, rfl, run, .head _, by decide +kernel, ?_⟩
  exact (commit_rejected_iff rfl run _ 0 false none).2.mpr
    (fun _ => .inr (.inr ⟨by decide +kernel, .inl (detected_iff.mpr (by decide +kernel))⟩))
    (by decide +kernel)

end

end Server

end OmniKV
