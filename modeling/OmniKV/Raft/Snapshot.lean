import Mathlib.Algebra.Order.BigOperators.Group.List
import OmniKV.Raft.Types
import OmniKV.Storage.WellFormed

/-!
# Installing a Raft snapshot

A snapshot carries the visible keys and values of another node and its sequence counter. Installing
it commits the entries to a new database, flushes that to one table, moves its files in place of the
current ones and recovers from them.
-/

namespace OmniKV

open List Engine Except

def snapshotVersion : ℕ := 2

/-- What a snapshot brings to the store. The Raft metadata is one more entry. -/
structure SnapshotEnvelope where
  version : ℕ
  maxSeq : ℕ
  entries : List (Bytes × Bytes)

section

variable [External]

def commitIfFull (db : Engine) (batch : WriteBatch) : Except OmniError (Engine × WriteBatch) :=
  if batch.opCount ≥ maxBatchSize then do
    let (db, _) ← db.commitBatchLocal batch
    return (db, .new)
  else .ok (db, batch)

def stageEntries (db : Engine) (batch : WriteBatch) :
    List (Bytes × Bytes) → Except OmniError (Engine × WriteBatch)
  | [] => .ok (db, batch)
  | entry :: entries => do
      let (db, batch) ← commitIfFull db batch
      let batch ← batch.set entry.1 entry.2
      stageEntries db batch entries

/-- The temporary database: all entries and the metadata, in one L0 table. -/
def buildSnapshotStore (env : SnapshotEnvelope) (metaJson : Bytes) (token : ℕ) :
    Except OmniError Engine := do
  let db ← Engine.openDb { Disk.empty with manifest := some .initial }
  let (db, batch) ← stageEntries db .new env.entries
  let (db, batch) ← commitIfFull db batch
  let batch ← batch.set raftMetaKey metaJson
  let (db, _) ← db.commitBatchLocal batch
  db.compactSstables token

/-- The engine over recovered files, with its counters from the snapshot. -/
def Engine.install (e : Engine) (recovered : RecoveredStorage) (maxSeq : ℕ) : Engine :=
  { e with
    roots := recovered.roots
    blockCache := fun _ => none
    heapFile := recovered.roots.manifest.heapPath
    heapOffset := recovered.heapOffset
    files := recovered.files
    globalSeq := if maxSeq ≥ e.globalSeq then wrap64 (maxSeq + 1) else e.globalSeq }

def Engine.installSnapshot (e : Engine) (env : SnapshotEnvelope) (metaJson : Bytes) (token : ℕ) :
    Except OmniError Engine :=
  if env.version ≠ snapshotVersion then
    .error (.ioError s!"Snapshot version mismatch: expected {snapshotVersion}, got {env.version}")
  else do
    let db ← buildSnapshotStore env metaJson token
    let recovered ← recoverStorageRoots db.close
    return e.install recovered env.maxSeq

end

theorem sum_map_insertEntry_le {K V : Type*} [LinearOrder K] (f : K × V → ℕ) (k : K) (v : V)
    (l : List (K × V)) : ((SortedMap.insertEntry k v l).map f).sum ≤ (l.map f).sum + f (k, v) := by
  induction l with
  | nil => simp [SortedMap.insertEntry]
  | cons e rest ih =>
    rw [SortedMap.insertEntry]
    split_ifs
    · simp only [map_cons, sum_cons]
      omega
    · simp only [map_cons, sum_cons]
      omega
    · simp only [map_cons, sum_cons]
      omega

theorem tableSize_insertAll_le (m : Memtable) (records : List OmniRecord) :
    tableSize (m.insertAll records).versions ≤
      tableSize m.versions + (records.map fun r => 42 + r.key.length).sum := by
  induction records generalizing m with
  | nil => exact le_rfl
  | cons r rs ih =>
    have rest := ih (m.insert r.version)
    have first : tableSize (m.insert r.version).versions ≤ tableSize m.versions +
        (42 + r.key.length) := by
      simp only [tableSize, Memtable.versions, map_map]
      exact sum_map_insertEntry_le _ _ _ _
    simp only [map_cons, sum_cons]
    rw [Memtable.insertAll, foldl_cons, ← Memtable.insertAll]
    omega

namespace WriteBatch

def recordSize (b : WriteBatch) : ℕ := (b.ops.map fun op => 42 + op.1.length).sum

theorem set_eq_ok {b b' : WriteBatch} {key value : Bytes} (done : b.set key value = .ok b') :
    b'.opCount = b.opCount + 1 ∧ b'.recordSize = b.recordSize + (42 + key.length) ∧
      ∀ op ∈ b'.ops, op ∈ b.ops ∨ op.1 = key := by
  rw [set, setWithExpiry] at done
  split_ifs at done
  cases done
  refine ⟨?_, ?_, fun op hop => ?_⟩
  · simp only [opCount, length_append, length_singleton]
    omega
  · simp only [recordSize, ops, map_append, map_cons, map_nil, sum_append, sum_cons, sum_nil]
    omega
  · simp only [ops, map_append, mem_append, map_cons, map_nil, mem_singleton] at hop ⊢
    obtain (old | rfl) | delete := hop
    · exact .inl (.inl old)
    · exact .inr rfl
    · exact .inl (.inr delete)

end WriteBatch

section

variable [External]

theorem tableSize_committed_le (e : Engine) (tx : WriteBatch) :
    tableSize (e.committed tx).roots.memtable.versions ≤
      tableSize e.roots.memtable.versions + tx.recordSize := by
  have keys : (((e.nextBatch tx).records).map fun r => 42 + r.key.length) =
      tx.ops.map fun op => 42 + op.1.length := by
    have same := tx.key_userRecords e.globalSeq e.heapOffset
    have mapped := congrArg (List.map fun key : Bytes => 42 + key.length) same
    rwa [map_map, map_map] at mapped
  have fewer : ((e.newRecords tx).map fun r => 42 + r.key.length).sum ≤ tx.recordSize := by
    rw [WriteBatch.recordSize, ← keys]
    exact List.Sublist.sum_le_sum (filter_sublist.map _) (fun _ _ => Nat.zero_le _)
  rw [roots_committed]
  exact (tableSize_insertAll_le _ _).trans (Nat.add_le_add_left fewer _)

/-- `n` entries are staged, `c` full batches of them committed. -/
structure Staged (db : Engine) (batch : WriteBatch) (n c size : ℕ) : Prop where
  wf : db.WellFormed
  seq : db.globalSeq = 1 + (maxBatchSize + 1) * c
  count : n = maxBatchSize * c + batch.opCount
  keys : ∀ op ∈ batch.ops, op.1.length ≤ 65535
  size : tableSize db.roots.memtable.versions + batch.recordSize ≤ size

/-- A snapshot is far from overflowing the counters of the temporary database. -/
@[mk_iff]
structure SnapshotEnvelope.Sized (env : SnapshotEnvelope) : Prop where
  keys : ∀ entry ∈ env.entries, entry.1.length ≤ 65535
  count : env.entries.length + env.entries.length / maxBatchSize + 6 < 2 ^ 64
  size : (env.entries.map fun entry => 42 + entry.1.length).sum + 59 < 2 ^ 64
  maxSeq : env.maxSeq + 2 < 2 ^ 64

instance (env : SnapshotEnvelope) : Decidable env.Sized :=
  decidable_of_iff _ (SnapshotEnvelope.sized_iff env).symm

namespace Staged

variable {db db' : Engine} {batch batch' : WriteBatch} {n c size : ℕ}
  (staged : Staged db batch n c size)

include staged

theorem commitIfFull (room : n + c + 6 < 2 ^ 64)
    (done : commitIfFull db batch = .ok (db', batch')) :
    batch'.opCount < maxBatchSize ∧ ∃ c', Staged db' batch' n c' size ∧ c' ≤ c + 1 := by
  rw [OmniKV.commitIfFull] at done
  split_ifs at done with full
  · obtain ⟨⟨db₁, seq⟩, committed, rest⟩ := bind_eq_ok done
    obtain ⟨rfl, rfl⟩ := Prod.mk.inj (Except.ok.inj rest)
    obtain ⟨-, rfl, -⟩ := commitBatchLocal_eq_ok committed
    have exact : batch.opCount = 10000 := le_antisymm batch.count full
    have count : n = 10000 * c + batch.opCount := staged.count
    have seq : db.globalSeq = 1 + 10001 * c := staged.seq
    refine ⟨by decide, c + 1, ⟨staged.wf.committed staged.keys (by omega), ?_, ?_, ?_, ?_⟩, le_rfl⟩
    · rw [globalSeq_committed_of_lt (by omega)]
      show _ = 1 + 10001 * (c + 1)
      omega
    · show n = 10000 * (c + 1) + 0
      omega
    · exact (fun op hop => nomatch hop)
    · exact (Nat.add_zero _).le.trans ((tableSize_committed_le _ _).trans staged.size)
  · obtain ⟨rfl, rfl⟩ := Prod.mk.inj (Except.ok.inj done)
    exact ⟨not_le.mp full, c, staged, Nat.le_succ c⟩

theorem set {key value : Bytes} (short : key.length ≤ 65535)
    (done : batch.set key value = .ok batch') :
    Staged db batch' (n + 1) c (size + (42 + key.length)) := by
  obtain ⟨count, weight, keys⟩ := WriteBatch.set_eq_ok done
  refine ⟨staged.wf, staged.seq, ?_, fun op hop => ?_, ?_⟩
  · have := staged.count
    omega
  · obtain old | new := keys op hop
    · exact staged.keys op old
    · exact new ▸ short
  · have := staged.size
    omega

theorem stageEntries {entries : List (Bytes × Bytes)}
    (short : ∀ entry ∈ entries, entry.1.length ≤ 65535)
    (room : n + entries.length + (n + entries.length) / maxBatchSize + 6 < 2 ^ 64)
    (done : OmniKV.stageEntries db batch entries = .ok (db', batch')) :
    ∃ c', Staged db' batch' (n + entries.length) c'
      (size + (entries.map fun entry => 42 + entry.1.length).sum) := by
  induction entries generalizing db batch n c size with
  | nil =>
    obtain ⟨rfl, rfl⟩ := Prod.mk.inj (Except.ok.inj done)
    exact ⟨c, staged⟩
  | cons entry entries ih =>
    obtain ⟨⟨db₁, batch₁⟩, flushed, rest⟩ := bind_eq_ok done
    obtain ⟨batch₂, added, rest⟩ := bind_eq_ok rest
    have count : n = 10000 * c + batch.opCount := staged.count
    rw [length_cons, show maxBatchSize = 10000 from rfl] at room
    obtain ⟨-, c', staged', -⟩ := staged.commitIfFull (by omega) flushed
    obtain ⟨c'', last⟩ := ih (staged'.set (short entry (.head _)) added)
      (fun e he => short e (.tail _ he)) (by rw [show maxBatchSize = 10000 from rfl]; omega) rest
    refine ⟨c'', ?_⟩
    rw [length_cons, map_cons, sum_cons, ← Nat.add_assoc size,
      show n + (entries.length + 1) = n + 1 + entries.length by omega]
    exact last

end Staged

/-- The temporary database is well formed, has an empty log, and its versions are
numbered from one on. -/
theorem buildSnapshotStore_eq_ok {env : SnapshotEnvelope} {metaJson : Bytes} {token : ℕ}
    {db : Engine} (sized : env.Sized) (done : buildSnapshotStore env metaJson token = .ok db) :
    db.WellFormed ∧ db.files.wal.data = [] ∧
      ∀ v ∈ db.roots.versions, v.seq ≤ env.entries.length + env.entries.length / maxBatchSize +
      1 := by
  obtain ⟨db₀, opened, rest⟩ := bind_eq_ok done
  obtain rfl : Engine.ofRecovered (recoverFrom .empty .initial) = db₀ := Except.ok.inj opened
  have start : Staged (Engine.ofRecovered (recoverFrom .empty .initial)) .new 0 0 0 :=
    ⟨wellFormed_initial, rfl, rfl, nofun, le_rfl⟩
  obtain ⟨⟨db₁, batch₁⟩, entries, rest⟩ := bind_eq_ok rest
  obtain ⟨⟨db₂, batch₂⟩, flushed, rest⟩ := bind_eq_ok rest
  obtain ⟨batch₃, added, rest⟩ := bind_eq_ok rest
  obtain ⟨⟨db₃, seq⟩, committed, rest⟩ := bind_eq_ok rest
  have limit : maxBatchSize = 10000 := rfl
  have total := sized.count
  rw [limit] at total ⊢
  obtain ⟨c₁, staged⟩ := start.stageEntries sized.keys (by rw [limit]; omega) entries
  rw [Nat.zero_add] at staged
  have count₁ : env.entries.length = 10000 * c₁ + batch₁.opCount := staged.count
  obtain ⟨notFull, c, staged, -⟩ := staged.commitIfFull (by omega) flushed
  have count₂ : env.entries.length = 10000 * c + batch₂.opCount := staged.count
  have last := staged.set (by decide) added
  have count₃ : env.entries.length + 1 = 10000 * c + batch₃.opCount := last.count
  have seq₂ : db₂.globalSeq = 1 + 10001 * c := last.seq
  obtain ⟨-, rfl, -⟩ := commitBatchLocal_eq_ok committed
  have wf := last.wf.committed last.keys (by omega)
  have weight : tableSize (db₂.committed batch₃).roots.memtable.versions < 2 ^ 64 := by
    have grown := tableSize_committed_le db₂ batch₃
    have bound := last.size
    have small := sized.size
    rw [show raftMetaKey.length = 17 by decide] at bound
    omega
  have inMemtables : (db₂.committed batch₃).roots.memtable ∈
      (db₂.committed batch₃).freeze.roots.memtables :=
    StorageRoots.mem_memtables.mpr (.inr (mem_append_right _ (mem_singleton_self _)))
  refine ⟨wf.freeze.publishFrozen inMemtables weight rest, ?_, fun v hv => ?_⟩
  · rw [wal_publishFrozen rest]
    rfl
  · have frozen := wf.freeze.mem_versions_of_publishFrozen inMemtables weight rest hv
    have room : db₂.globalSeq + (batch₃.opCount + 1) < 2 ^ 64 := by omega
    have below := last.wf.seq_lt_of_committed room (mem_versions_of_freeze frozen)
    rw [globalSeq_committed_of_lt (by omega)] at below
    omega

namespace Engine

omit [External] in
/-- The counter after an installation is above the old one and above the snapshot's. -/
theorem globalSeq_install (e : Engine) (recovered : RecoveredStorage) {maxSeq : ℕ}
    (room : maxSeq + 1 < 2 ^ 64) :
    (e.install recovered maxSeq).globalSeq = max e.globalSeq (maxSeq + 1) := by
  simp only [install]
  split_ifs with above
  · rw [wrap64_of_lt room]
    omega
  · omega

theorem WellFormed.install {e db : Engine} (wf : db.WellFormed) (noLog : db.files.wal.data = [])
    {maxSeq : ℕ} (counter : e.globalSeq + 1 < 2 ^ 64) (room : maxSeq + 2 < 2 ^ 64)
    (versions : ∀ v ∈ db.roots.versions, v.seq < max e.globalSeq (maxSeq + 1)) :
    (e.install (recoverFrom db.close db.roots.manifest) maxSeq).WellFormed := by
  have stores := wf.backs.stores wf.listed db.survives_close
  have last : maxSeq + 1 < 2 ^ 64 := by omega
  have globalSeq := e.globalSeq_install (recoverFrom db.close db.roots.manifest) last
  have roots : (e.install (recoverFrom db.close db.roots.manifest) maxSeq).roots =
      { db.roots with memtable := .empty, frozenMemtables := [] } := by
    show (recoverFrom db.close db.roots.manifest).roots = _
    rw [stores.roots_recoverFrom, show db.close.wal = [] from noLog, ← wf.listed.heapReader]
    rfl
  refine ⟨?_, ?_, rfl, ?_, ⟨[], by simp, noLog, by simp⟩, ?_, ?_, ?_, ?_⟩
  · rw [roots]
    exact wf.listed.withMemtables _ _
  · rw [roots]
    exact stores.backs wf.listed _
  · rw [roots]
    exact wf.holds
  · rw [roots]
    intro m hm v hv
    obtain rfl := (StorageRoots.mem_memtables.mp hm).resolve_right not_mem_nil
    exact absurd hv (Memtable.not_mem_empty v)
  · rw [roots, globalSeq]
    intro t ht v hv
    exact ⟨versions v (StorageRoots.mem_versions.mpr (.inr ⟨t, ht, hv⟩)), (wf.tables t ht v hv).2⟩
  · exact wf.maxSeq
  · omega

/-- Installing a snapshot while the counter is above the numbers of the temporary database. -/
theorem WellFormed.installSnapshot {e e' : Engine} {env : SnapshotEnvelope} {metaJson : Bytes}
    {token : ℕ} (wf : e.WellFormed) (sized : env.Sized)
    (covered : env.entries.length + env.entries.length / maxBatchSize + 1 < max e.globalSeq
    (env.maxSeq + 1)) (done : e.installSnapshot env metaJson token = .ok e') : e'.WellFormed := by
  rw [Engine.installSnapshot] at done
  split_ifs at done
  obtain ⟨db, built, rest⟩ := bind_eq_ok done
  obtain ⟨recovered, recovery, rest⟩ := bind_eq_ok rest
  obtain ⟨wfDb, noLog, numbered⟩ := buildSnapshotStore_eq_ok sized built
  obtain rfl : recovered = recoverFrom db.close db.roots.manifest := by
    have loaded : loadManifest db.close = .ok db.roots.manifest := by
      refine loadManifest_eq_ok (congrArg some wfDb.backs.manifest) ?_
      rw [wfDb.listed.version]
    rw [recoverStorageRoots, loaded] at recovery
    exact (Except.ok.inj recovery).symm
  cases rest
  exact wfDb.install noLog wf.bound sized.maxSeq fun v hv => (numbered v hv).trans_lt covered

end Engine

end

end OmniKV
