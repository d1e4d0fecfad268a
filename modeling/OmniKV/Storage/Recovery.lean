import OmniKV.Storage.Commit

/-!
# Opening a database

Opening reads the manifest, maps the tables it names and replays the log into a new
memtable. After a clean close the rebuilt memtable is the one the engine had, unless a
user wrote to the key that the log uses for its commit markers: those records are left
out of the live memtable but come back from the log.
-/

namespace OmniKV

theorem formatVersion_le_of_loadManifest {d : Disk} {m : Manifest}
    (loaded : loadManifest d = .ok m) : m.formatVersion ≤ manifestFormatVersion := by
  rw [loadManifest] at loaded
  split at loaded
  next => exact Except.ok.inj loaded ▸ le_rfl
  next stored _ =>
    split_ifs at loaded with newer
    exact Except.ok.inj loaded ▸ not_lt.mp newer

theorem loadManifest_eq_ok {d : Disk} {m : Manifest} (stored : d.manifest = some m)
    (known : m.formatVersion ≤ manifestFormatVersion) : loadManifest d = .ok m := by
  rw [loadManifest, stored]
  exact if_neg (not_lt.mpr known)

section

variable [External]

theorem openDb_eq_ok_iff {d : Disk} {e : Engine} : Engine.openDb d = .ok e ↔
      ∃ m, loadManifest d = .ok m ∧ e = Engine.ofRecovered (recoverFrom d m) := by
  cases manifest : loadManifest d with
  | error err => simp [Engine.openDb, recoverStorageRoots, manifest, bind, Except.bind]
  | ok m =>
    simp [Engine.openDb, recoverStorageRoots, manifest, bind, Except.bind, pure, Except.pure,
      eq_comm]

namespace Engine

theorem reopen_eq_ok {e : Engine} (known : e.files.manifest.formatVersion ≤ manifestFormatVersion) :
    e.reopen = .ok (ofRecovered (recoverFrom e.close e.files.manifest)) :=
  openDb_eq_ok_iff.mpr ⟨_, loadManifest_eq_ok rfl known, rfl⟩

/-- The records that a list of commits logs have the keys of the operations. -/
theorem key_batchesOf (e : Engine) (txs : List WriteBatch) :
    ((e.batchesOf txs).flatMap LogBatch.records).map OmniRecord.key =
      (txs.flatMap WriteBatch.ops).map Prod.fst := by
  induction txs generalizing e with
  | nil => rfl
  | cons tx txs ih =>
    rw [batchesOf, List.flatMap_cons, List.map_append, ih, List.flatMap_cons, List.map_append,
      nextBatch, WriteBatch.logBatch, WriteBatch.key_userRecords]

/-- After a clean close and a reopen the memtable is as it was exactly when no operation used the
key of the commit markers. -/
theorem reopen_memtable_eq_iff {d : Disk} {e₀ e : Engine} {txs : List WriteBatch}
    (noLog : d.wal = []) (opened : openDb d = .ok e₀) (done : e₀.commitAll txs = .ok e)
    (keys : ∀ tx ∈ txs, ∀ op ∈ tx.ops, op.1.length ≤ 65535) : ∃ e', e.reopen = .ok e' ∧
      (e'.roots.memtable = e.roots.memtable ↔ ∀ tx ∈ txs, ∀ op ∈ tx.ops,
      op.1 ≠ commitMarkerKey) := by
  obtain ⟨m, loaded, rfl⟩ := openDb_eq_ok_iff.mp opened
  obtain ⟨log, roots, manifest⟩ := commitAll_eq_ok done
  have known : e.files.manifest.formatVersion ≤ manifestFormatVersion := by
    rw [manifest]
    exact formatVersion_le_of_loadManifest loaded
  refine ⟨_, reopen_eq_ok known, ?_⟩
  set batches := (ofRecovered (recoverFrom d m)).batchesOf txs with hbatches
  have userKeys := key_batchesOf (ofRecovered (recoverFrom d m)) txs
  have fit : ∀ b ∈ batches, b.KeysFit := by
    intro b hb r hr
    have member : r.key ∈ (batches.flatMap LogBatch.records).map OmniRecord.key :=
      List.mem_map_of_mem (List.mem_flatMap.mpr ⟨b, hb, hr⟩)
    rw [userKeys] at member
    obtain ⟨op, hop, hkey⟩ := List.mem_map.mp member
    obtain ⟨tx, htx, inTx⟩ := List.mem_flatMap.mp hop
    exact hkey ▸ keys tx htx op inTx
  have live : e.roots.memtable = Memtable.empty.insertAll
      ((batches.flatMap LogBatch.records).filter (·.key ≠ commitMarkerKey)) := by
    rw [roots]
    simp [ofRecovered, recoverFrom, noLog, Memtable.insertAll]
  have recovered : (ofRecovered (recoverFrom e.close e.files.manifest)).roots.memtable =
      Memtable.empty.insertAll (batches.flatMap LogBatch.records) := by
    have data : e.close.wal = LogBatch.frames batches := by
      simpa [close, ofRecovered, recoverFrom, noLog, WriteAheadLog.new] using log
    rw [← LogBatch.replay_logBatches fit, ← data]
    rfl
  rw [live, recovered, Memtable.insertAll_filter_key_eq_iff]
  grind

end Engine

end

namespace Engine

open scoped Reference

/-- Set the key of the commit markers to `v`. -/
def markerKeyBatch : WriteBatch where
  bufferedWrites := [⟨commitMarkerKey, Bytes.ofString "v", 0⟩]
  bufferedDeletes := []
  count := by decide
  values := by decide

/-- A record under the marker's key is missing from the live memtable and present in the recovered
one. -/
theorem reopen_memtable_ne_of_marker_key :
    ∃ e₀ e e', openDb Disk.empty = .ok e₀ ∧ e₀.commitAll [markerKeyBatch] = .ok e ∧
      (∀ op ∈ markerKeyBatch.ops, op.1.length ≤ 65535) ∧ e.reopen = .ok e' ∧
      e'.roots.memtable ≠ e.roots.memtable :=
  ⟨_, _, _, rfl, rfl, by decide +kernel, rfl, by decide +kernel⟩

/-- A batch that sets another key comes back as it was. -/
theorem reopen_memtable_eq_of_sample : ∃ e₀ e e', openDb Disk.empty = .ok e₀ ∧
    e₀.commitAll [sampleWrite] = .ok e ∧
      e.reopen = .ok e' ∧ e'.roots.memtable = e.roots.memtable := by
  obtain ⟨e', reopened, same⟩ :=
    @reopen_memtable_eq_iff _ .empty _ _ [sampleWrite] rfl rfl rfl (by decide +kernel)
  exact ⟨_, _, e', rfl, rfl, reopened, same.mpr (by decide +kernel)⟩

end Engine

end OmniKV
