import OmniKV.Storage.Engine

/-!
# The effect of a commit

A commit changes four things: the two counters, the heap file, the log and the
memtable. The lemmas here say what each of them is afterwards; everything else stays.
-/

namespace OmniKV

namespace Files

variable (f : Files) (p : Path) (off : ℕ)

theorem write_write (a b : Bytes) : (f.write p off a).write p (off + a.length) b =
    f.write p off (a ++ b) := by
  simp [write, Function.comp_def, Bytes.writeAt_writeAt]

@[simp] theorem write_nil : f.write p off [] = f := by
  simp [write]

@[simp] theorem wal_write (data : Bytes) : (f.write p off data).wal = f.wal := rfl

theorem foldl_write (payloads : List Bytes) : (payloads.foldl
      (fun (acc : Files × ℕ) data => (acc.1.write p acc.2 data, acc.2 + data.length))
      (f, off)).1 = f.write p off payloads.flatten := by
  induction payloads generalizing f off with
  | nil => simp
  | cons data payloads ih => rw [List.foldl_cons, ih, write_write, List.flatten_cons]

end Files

namespace Engine

variable (e : Engine)

theorem heapWrite_eq (off : ℕ) (payloads : List Bytes) :
    e.heapWrite off payloads = { e with files := e.files.write e.heapFile off payloads.flatten
      } := by
  rw [heapWrite, Files.foldl_write]

variable [External]

def newRecords (e : Engine) (tx : WriteBatch) : List OmniRecord :=
  (e.nextBatch tx).records.filter (·.key ≠ commitMarkerKey)

theorem filter_all (b : LogBatch) :
    b.all.filter (·.key ≠ commitMarkerKey) = b.records.filter (·.key ≠ commitMarkerKey) := by
  simp [LogBatch.all, b.marker_key]

variable (tx : WriteBatch)

theorem committed_eq : e.committed tx = { e with
      roots := { e.roots with memtable := e.roots.memtable.insertAll (e.newRecords tx) }
      globalSeq := wrap64 (e.globalSeq + (tx.opCount + 1))
      heapOffset := wrap64 (e.heapOffset + tx.totalHeapBytes)
      files := { (e.files.write e.heapFile (wrap64 e.heapOffset) tx.payloads).sync e.heapFile with
        wal := (e.files.wal.appendBatchNosync (e.nextBatch tx).all).sync } } := by
  have payloads : (tx.prepped.map (·.bytes)).flatten = tx.payloads := by
    rw [WriteBatch.payloads, List.flatMap_def]
  rw [committed, heapWrite_eq]
  simp only [memtableInsert, filter_all]
  rfl

@[simp] theorem roots_committed : (e.committed tx).roots =
      { e.roots with memtable := e.roots.memtable.insertAll (e.newRecords tx) } := by
  rw [committed_eq]

@[simp] theorem globalSeq_committed :
    (e.committed tx).globalSeq = wrap64 (e.globalSeq + (tx.opCount + 1)) := by rw [committed_eq]

theorem globalSeq_committed_of_lt {e : Engine} {tx : WriteBatch}
    (room : e.globalSeq + (tx.opCount + 1) < 2 ^ 64) :
    (e.committed tx).globalSeq = e.globalSeq + (tx.opCount + 1) := by
  rw [globalSeq_committed, wrap64_of_lt room]

@[simp] theorem heapOffset_committed :
    (e.committed tx).heapOffset = wrap64 (e.heapOffset + tx.totalHeapBytes) := by rw [committed_eq]

@[simp] theorem wal_committed :
    (e.committed tx).files.wal = (e.files.wal.appendBatchNosync (e.nextBatch tx).all).sync := by
  rw [committed_eq]

theorem files_committed : (e.committed tx).files =
      { (e.files.write e.heapFile (wrap64 e.heapOffset) tx.payloads).sync e.heapFile with
        wal := (e.files.wal.appendBatchNosync (e.nextBatch tx).all).sync } := by rw [committed_eq]

@[simp] theorem heapFile_committed : (e.committed tx).heapFile = e.heapFile := by rw [committed_eq]

@[simp] theorem manifest_committed : (e.committed tx).files.manifest = e.files.manifest :=
  by rw [committed_eq]; rfl

theorem seq_of_mem_nextBatch {e : Engine} {tx : WriteBatch}
    (room : e.globalSeq + tx.opCount < 2 ^ 64)
    {r : OmniRecord} (member : r ∈ (e.nextBatch tx).records) :
    e.globalSeq ≤ r.seq ∧ r.seq < e.globalSeq + tx.opCount :=
  WriteBatch.seq_of_mem_logBatch room member

/-- A commit succeeds unless the L0 level is full. -/
theorem commitBatchLocal_eq_ok {e e' : Engine} {tx : WriteBatch} {seq : ℕ}
    (done : e.commitBatchLocal tx = .ok (e', seq)) :
    e.roots.sstables.length < e.l0WriteStallThreshold ∧ e' = e.committed tx ∧
      seq = (e.nextBatch tx).marker.seq := by
  rw [commitBatchLocal] at done
  split_ifs at done with stall
  obtain ⟨rfl, rfl⟩ := Prod.mk.inj (Except.ok.inj done)
  exact ⟨not_le.mp stall, rfl, rfl⟩

def batchesOf (e : Engine) : List WriteBatch → List LogBatch
  | [] => []
  | tx :: txs => e.nextBatch tx :: (e.committed tx).batchesOf txs

/-- After a list of commits the log has their batches, and the memtable their records. -/
theorem commitAll_eq_ok {e e' : Engine} {txs : List WriteBatch} (done : e.commitAll txs = .ok e') :
    e'.files.wal.data = e.files.wal.data ++ LogBatch.frames (e.batchesOf txs) ∧
      e'.roots = { e.roots with
        memtable := e.roots.memtable.insertAll
          (((e.batchesOf txs).flatMap LogBatch.records).filter (·.key ≠ commitMarkerKey)) } ∧
      e'.files.manifest = e.files.manifest := by
  induction txs generalizing e with
  | nil =>
    cases done
    exact ⟨by simp [batchesOf], rfl, rfl⟩
  | cons tx txs ih =>
    cases first : e.commitBatchLocal tx with
    | error err =>
      rw [commitAll, first] at done
      cases done
    | ok result =>
      rw [commitAll, first] at done
      obtain ⟨-, next, -⟩ := commitBatchLocal_eq_ok first
      obtain ⟨log, roots, manifest⟩ := ih done
      rw [next] at log roots manifest
      refine ⟨?_, ?_, manifest.trans (manifest_committed e tx)⟩
      · simp [log, batchesOf, WriteAheadLog.sync, WriteAheadLog.appendBatchNosync, LogBatch.frames]
      · simp [roots, batchesOf, Memtable.insertAll, newRecords]

end Engine

end OmniKV
