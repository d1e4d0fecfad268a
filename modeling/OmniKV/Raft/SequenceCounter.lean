import OmniKV.Raft.Snapshot
import OmniKV.Storage.Operations

/-!
# The sequence counter of a replica

New versions are numbered from a counter that is kept in memory. The counter must stay above every
number that is stored, or a new version would be older than one it replaces.
-/

namespace OmniKV

open Relation (ReflTransGen)

inductive ReplicaOp
  | engine (op : EngineOp)
  | installSnapshot (env : SnapshotEnvelope) (metaJson : Bytes) (token : ℕ)

namespace Engine

section

variable [External]

def replicaNext (e : Engine) : ReplicaOp → Option Engine
  | .engine op => e.next op
  | .installSnapshot env metaJson token => (e.installSnapshot env metaJson token).toOption

/-- Nothing overflows, the manifest knows the sequence numbers that garbage collection meets, and
the counter is above the numbers in the temporary database. -/
def SafeForCounter (e : Engine) : ReplicaOp → Prop
  | .engine op => e.Sized op
  | .installSnapshot env _ _ => env.Sized ∧
      env.entries.length + env.entries.length / maxBatchSize + 1 < max e.globalSeq (env.maxSeq + 1)

theorem WellFormed.replicaNext {e e' : Engine} {op : ReplicaOp} (wf : e.WellFormed)
    (safe : e.SafeForCounter op) (step : e.replicaNext op = some e') : e'.WellFormed := by
  cases op with
  | engine op => exact wf.next safe step
  | installSnapshot env metaJson token =>
    exact wf.installSnapshot safe.1 safe.2 (eq_ok_of_toOption step)

/-- In a run of safe operations every stored version is below the counter. -/
theorem seq_lt_globalSeq_of_run {e₀ e : Engine} (start : openDb .empty = .ok e₀)
    (run : ReflTransGen (Run.SafeStep SafeForCounter replicaNext) e₀ e) :
    ∀ v ∈ e.roots.versions, v.seq < e.globalSeq ∧ v.seq ≤ e.snapshot.2 ∧
      ∀ tx : WriteBatch, e.globalSeq + tx.opCount < 2 ^ 64 →
        ∀ r ∈ (e.nextBatch tx).records, v.seq < r.seq := by
  have wf : e.WellFormed :=
    Run.invariant run (wellFormed_of_openDb_empty start) fun wf safe step =>
      wf.replicaNext safe step
  intro v stored
  have below := wf.seq_lt_globalSeq stored
  refine ⟨below, Nat.le_sub_one_of_lt below, fun tx room r new => ?_⟩
  exact below.trans_le (seq_of_mem_nextBatch room new).1

instance (e : Engine) (op : ReplicaOp) : Decidable (e.SafeForCounter op) := by
  cases op <;> simp only [SafeForCounter] <;> infer_instance

end

open Reference

/-- Garbage collection leaves the manifest's counter behind; after a reopen a stored version has the
number of the next commit. -/
theorem seq_not_lt_globalSeq_after_gc : ∃ e₀ e, openDb .empty = .ok e₀ ∧
    ReflTransGen (Run.Step replicaNext) e₀ e ∧ ∃ v ∈ e.roots.versions, ¬ v.seq < e.globalSeq := by
  refine ⟨_, _, rfl, Run.step_get [.engine (.commit sampleWrite), .engine (.garbageCollect 0 0 0),
    .engine .reopen] (by decide +kernel), ?_⟩
  simp only [← StorageRoots.mem_versionList]
  decide +kernel

/-- A run with a flush before the collection, a reopen and a snapshot installation. -/
theorem seq_lt_globalSeq_of_flushed_run : ∃ e₀ e, openDb .empty = .ok e₀ ∧
      ReflTransGen (Run.SafeStep SafeForCounter replicaNext) e₀ e ∧ e.globalSeq = 8 ∧
      ∀ v ∈ e.roots.versions, v.seq < e.globalSeq ∧ v.seq ≤ e.snapshot.2 ∧
          ∀ tx : WriteBatch, e.globalSeq + tx.opCount < 2 ^ 64 →
          ∀ r ∈ (e.nextBatch tx).records, v.seq < r.seq := by
  have run := Run.safeStep_get SafeForCounter replicaNext
    (.ofRecovered (recoverFrom .empty .initial))
    [.engine (.commit sampleWrite), .engine .beginFlush, .engine (.finishFlush 0 0),
      .engine (.garbageCollect 0 0 0), .engine .reopen,
      .installSnapshot ⟨2, 7, [(Bytes.ofString "k", Bytes.ofString "w")]⟩ [] 0] (by decide +kernel)
  exact ⟨_, _, rfl, run, by decide +kernel, seq_lt_globalSeq_of_run rfl run⟩

end Engine

end OmniKV
