import OmniKV.Data.Run
import OmniKV.Storage.WellFormed

/-!
# Runs of the engine

The operations of an engine used by one caller at a time. A flush is two operations, so
that others can come between the freeze and the rest of it. An operation that reports an
error leaves the engine as it was.
-/

namespace OmniKV

inductive EngineOp
  | commit (tx : WriteBatch)
  | beginFlush
  | finishFlush (idx token : ℕ)
  | compactL0ToL1 (token : ℕ)
  | compactL1ToL2 (token : ℕ) (now : UInt64)
  | garbageCollect (heapToken baseToken : ℕ) (now : UInt64)
  | reopen
  | snapshot
  | unregisterSnapshot (seq : ℕ)
  | pin (replicaId : Bytes) (seq : ℕ)
  | release (replicaId : Bytes)
  | find (key : Bytes) (seq : ℕ) (now : UInt64)
  | scan (startKey endKey : Bytes) (seq : ℕ) (now : UInt64)
  | evict (offset : ℕ)

namespace Engine

/-- Everything but the block cache and the registered readers is the same. -/
structure SameData (e e' : Engine) : Prop where
  roots : e'.roots = e.roots
  globalSeq : e'.globalSeq = e.globalSeq
  heapFile : e'.heapFile = e.heapFile
  heapOffset : e'.heapOffset = e.heapOffset
  files : e'.files = e.files

variable {e : Engine}

theorem SameData.rfl : SameData e e := ⟨.refl _, .refl _, .refl _, .refl _, .refl _⟩

theorem SameData.trans {e' e'' : Engine} (h : SameData e e') (h' : SameData e' e'') :
    SameData e e'' :=
  ⟨h'.roots.trans h.roots, h'.globalSeq.trans h.globalSeq, h'.heapFile.trans h.heapFile,
    h'.heapOffset.trans h.heapOffset, h'.files.trans h.files⟩

theorem sameData_unregisterSnapshot (e : Engine) (seq : ℕ) :
    SameData e (e.unregisterSnapshot seq) := by
  rw [unregisterSnapshot]
  split
  · exact .rfl
  · split_ifs <;> exact ⟨rfl, rfl, rfl, rfl, rfl⟩

theorem sameData_pinReplicaRetention {e' : Engine} {replicaId : Bytes} {seq : ℕ}
    (done : e.pinReplicaRetention replicaId seq = .ok e') : SameData e e' := by
  rw [pinReplicaRetention] at done
  split_ifs at done
  exact Except.ok.inj done ▸ ⟨rfl, rfl, rfl, rfl, rfl⟩

end Engine

section

variable [External]

namespace Engine

/-- What an operation does, if it succeeds. The block cache may drop an entry at any
time. -/
def next (e : Engine) : EngineOp → Option Engine
  | .commit tx => (e.commitBatchLocal tx).toOption.map Prod.fst
  | .beginFlush => some e.freeze
  | .finishFlush idx token =>
    e.roots.frozenMemtables[idx]?.bind fun m => (e.publishFrozen m idx token).toOption
  | .compactL0ToL1 token => (e.compactL0ToL1 token).toOption
  | .compactL1ToL2 token now => (e.compactL1ToL2 token now).toOption
  | .garbageCollect heapToken baseToken now =>
    (e.runGarbageCollection heapToken baseToken now).toOption
  | .reopen => e.reopen.toOption
  | .snapshot => some e.snapshot.1
  | .unregisterSnapshot seq => some (e.unregisterSnapshot seq)
  | .pin replicaId seq => (e.pinReplicaRetention replicaId seq).toOption
  | .release replicaId => some (e.releaseReplicaRetention replicaId)
  | .find key seq now => some (e.find key seq now).2
  | .scan startKey endKey seq now => some (e.scan startKey endKey seq now).2
  | .evict offset => some { e with blockCache := Function.update e.blockCache offset none }

theorem exists_blockCache_readFromHeap (e : Engine) (p : ValuePointer) :
    ∃ cache, (e.readFromHeap p).2 = { e with blockCache := cache } := by
  rw [readFromHeap]
  split
  · exact ⟨_, rfl⟩
  · split <;> exact ⟨_, rfl⟩

theorem exists_blockCache_find (e : Engine) (key : Bytes) (seq : ℕ) (now : UInt64) :
    ∃ cache, (e.find key seq now).2 = { e with blockCache := cache } := by
  rw [find]
  split
  · exact ⟨_, rfl⟩
  · split_ifs
    · exact ⟨_, rfl⟩
    · exact exists_blockCache_readFromHeap e _

theorem exists_blockCache_scanLoop (now : UInt64) (vs : List Version) (e : Engine) :
    ∃ cache, (scanLoop now vs e).2 = { e with blockCache := cache } := by
  induction vs generalizing e with
  | nil => exact ⟨_, rfl⟩
  | cons v vs ih =>
    rw [scanLoop]
    split_ifs
    · exact ih e
    · obtain ⟨cache, step⟩ := exists_blockCache_readFromHeap e v.pointer
      cases read : e.readFromHeap v.pointer with
      | mk result e' =>
        obtain rfl : e' = { e with blockCache := cache } := by rw [← step, read]
        cases result with
        | error err => exact ⟨cache, rfl⟩
        | ok value => exact ih _

theorem sameData_readFromHeap (e : Engine) (p : ValuePointer) :
    SameData e (e.readFromHeap p).2 := by
  obtain ⟨cache, eq⟩ := exists_blockCache_readFromHeap e p
  exact eq ▸ ⟨rfl, rfl, rfl, rfl, rfl⟩

theorem sameData_find (e : Engine) (key : Bytes) (seq : ℕ) (now : UInt64) :
    SameData e (e.find key seq now).2 := by
  obtain ⟨cache, eq⟩ := exists_blockCache_find e key seq now
  exact eq ▸ ⟨rfl, rfl, rfl, rfl, rfl⟩

theorem sameData_scanLoop (now : UInt64) (vs : List Version) (e : Engine) :
    SameData e (scanLoop now vs e).2 := by
  obtain ⟨cache, eq⟩ := exists_blockCache_scanLoop now vs e
  exact eq ▸ ⟨rfl, rfl, rfl, rfl, rfl⟩

variable {e e' : Engine}

theorem WellFormed.of_sameData (wf : e.WellFormed) (same : SameData e e') : e'.WellFormed := by
  obtain ⟨roots, globalSeq, heapFile, -, files⟩ := same
  exact ⟨roots ▸ wf.listed, by rw [files, roots]; exact wf.backs,
    by rw [heapFile, roots]; exact wf.heapFile, roots ▸ wf.holds,
    by rw [files, globalSeq]; exact wf.log, by rw [roots, globalSeq]; exact wf.memtables,
    by rw [roots, globalSeq]; exact wf.tables, roots ▸ wf.maxSeq, globalSeq ▸ wf.bound⟩

theorem next_commit_eq_some {tx : WriteBatch} :
    e.next (.commit tx) = some e' ↔ e.roots.sstables.length < e.l0WriteStallThreshold ∧
      e.committed tx = e' := by
  rw [next, commitBatchLocal]
  split_ifs with stalled
  · exact iff_of_false (by rintro ⟨⟩) fun done => absurd done.1 (Nat.not_lt.mpr stalled)
  · exact ⟨fun step => ⟨Nat.not_le.mp stalled, Option.some.inj step⟩, fun done =>
      congrArg some done.2⟩

/-- The operations that change data, by what they ran; the others keep it. -/
inductive Effect (e : Engine) : EngineOp → Engine → Prop
  | commit {tx : WriteBatch} (room : e.roots.sstables.length < e.l0WriteStallThreshold) :
      Effect e (.commit tx) (e.committed tx)
  | beginFlush : Effect e .beginFlush e.freeze
  | finishFlush {idx token : ℕ} {m : Memtable} {e' : Engine}
      (frozen : e.roots.frozenMemtables[idx]? = some m)
      (done : e.publishFrozen m idx token = .ok e') : Effect e (.finishFlush idx token) e'
  | compactL0ToL1 {token : ℕ} {e' : Engine} (done : e.compactL0ToL1 token = .ok e') :
      Effect e (.compactL0ToL1 token) e'
  | compactL1ToL2 {token : ℕ} {now : UInt64} {e' : Engine}
    (done : e.compactL1ToL2 token now = .ok e') :
      Effect e (.compactL1ToL2 token now) e'
  | garbageCollect {heapToken baseToken : ℕ} {now : UInt64} {e' : Engine}
      (done : e.runGarbageCollection heapToken baseToken now = .ok e') :
      Effect e (.garbageCollect heapToken baseToken now) e'
  | reopen {e' : Engine} (done : e.reopen = .ok e') : Effect e .reopen e'
  | other {op : EngineOp} {e' : Engine} (same : SameData e e') : Effect e op e'

theorem effect_of_next {op : EngineOp} (step : e.next op = some e') : Effect e op e' := by
  cases op with
  | commit tx =>
    obtain ⟨⟨e₁, seq⟩, done, rfl⟩ := Option.map_eq_some_iff.mp step
    obtain ⟨room, rfl, -⟩ := commitBatchLocal_eq_ok (eq_ok_of_toOption done)
    exact .commit room
  | beginFlush => exact Option.some.inj step ▸ .beginFlush
  | finishFlush idx token =>
    obtain ⟨m, frozen, done⟩ := Option.bind_eq_some_iff.mp step
    exact .finishFlush frozen (eq_ok_of_toOption done)
  | compactL0ToL1 token => exact .compactL0ToL1 (eq_ok_of_toOption step)
  | compactL1ToL2 token now => exact .compactL1ToL2 (eq_ok_of_toOption step)
  | garbageCollect heapToken baseToken now => exact .garbageCollect (eq_ok_of_toOption step)
  | reopen => exact .reopen (eq_ok_of_toOption step)
  | snapshot | release replicaId | evict offset =>
    exact Option.some.inj step ▸ .other ⟨rfl, rfl, rfl, rfl, rfl⟩
  | unregisterSnapshot seq =>
    exact Option.some.inj step ▸ .other (sameData_unregisterSnapshot e seq)
  | pin replicaId seq => exact .other (sameData_pinReplicaRetention (eq_ok_of_toOption step))
  | find key seq now => exact Option.some.inj step ▸ .other (sameData_find e key seq now)
  | scan startKey endKey seq now =>
    exact Option.some.inj step ▸ .other (sameData_scanLoop now _ e)

/-- Nothing overflows, and the manifest knows the sequence numbers that garbage collection meets. -/
def Sized (e : Engine) : EngineOp → Prop
  | .commit tx => (∀ op ∈ tx.ops, op.1.length ≤ 65535) ∧ e.globalSeq + (tx.opCount + 2) < 2 ^ 64
  | .finishFlush idx _ => ∀ m ∈ e.roots.frozenMemtables[idx]?, tableSize m.versions < 2 ^ 64
  | .compactL0ToL1 _ => tableSize (e.l0Merged.retained e.compactionRetentionFloor) < 2 ^ 64
  | .compactL1ToL2 _ now => tableSize (e.baseVersions e.l1Merged now) < 2 ^ 64
  | .garbageCollect _ _ now => tableSize (e.baseVersions e.gcMerged now) < 2 ^ 64 ∧
      ∀ v ∈ e.roots.memtable.versions, v.seq ≤ e.roots.manifest.maxSeq
  | .reopen => max e.globalSeq e.roots.manifest.maxSeq + 2 < 2 ^ 64
  | _ => True

instance (e : Engine) (op : EngineOp) : Decidable (e.Sized op) := by
  rcases op <;> simp only [Sized] <;> infer_instance

theorem WellFormed.next {op : EngineOp} (wf : e.WellFormed) (sized : e.Sized op)
    (step : e.next op = some e') : e'.WellFormed := by
  cases effect_of_next step with
  | commit room => exact wf.committed sized.1 sized.2
  | beginFlush => exact wf.freeze
  | finishFlush frozen done =>
    refine wf.publishFrozen ?_ (sized _ frozen) done
    exact StorageRoots.mem_memtables.mpr (.inr (List.mem_of_getElem? frozen))
  | compactL0ToL1 done => exact wf.compactL0ToL1 sized done
  | compactL1ToL2 done => exact wf.compactL1ToL2 sized done
  | garbageCollect done => exact wf.runGarbageCollection sized.1 sized.2 done
  | reopen done => exact wf.reopen sized done
  | other same => exact wf.of_sameData same

end Engine

end

end OmniKV
