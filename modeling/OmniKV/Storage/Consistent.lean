import OmniKV.Storage.Operations

/-!
# Consistent engines

In a consistent engine reads are exact, and the log holds what the active memtable holds. Runs keep
this as long as no batch uses the key of the commit markers, no table splits the versions of a key
over two blocks, flushes do not overlap, and garbage collection finds the memtables empty.
-/

namespace OmniKV

open Versioned List StorageRoots Version

section

variable [External]

structure StorageRoots.Ordered (r : StorageRoots) : Prop where
  sound : ∀ t ∈ r.tables, t.Sound
  newer : r.tiers.Pairwise Newer

theorem StorageRoots.Ordered.readable {r : StorageRoots} (ordered : r.Ordered) : r.Readable :=
  readable_of_ordered ordered.sound ordered.newer

namespace StorageRoots.Ordered

variable {r : StorageRoots} (ordered : r.Ordered)

include ordered

theorem insertAll {records : List OmniRecord} (above : ∀ x ∈ records, ∀ v ∈ r.versions,
    v.seq < x.seq) :
    ({ r with memtable := r.memtable.insertAll records } : StorageRoots).Ordered := by
  obtain ⟨top, rest⟩ := pairwise_cons.mp ordered.newer
  refine ⟨ordered.sound, pairwise_cons.mpr ⟨fun u hu a ha b hb => ?_, rest⟩⟩
  obtain old | ⟨x, hx, rfl⟩ := Memtable.mem_of_mem_insertAll ha
  · exact top u hu a old b hb
  · exact above x hx b ⟨u, .tail _ hu, hb⟩

theorem freeze : ({ r with
      memtable := .empty
      frozenMemtables := r.frozenMemtables ++ [r.memtable] } : StorageRoots).Ordered := by
  refine ⟨ordered.sound, ?_⟩
  have tiers : ({ r with
      memtable := .empty
      frozenMemtables := r.frozenMemtables ++ [r.memtable] } : StorageRoots).tiers =
        {v | v ∈ Memtable.empty} :: r.tiers := by
    simp only [tiers, memtables, reverse_append]
    rfl
  rw [tiers]
  refine pairwise_cons.mpr ⟨fun u _ a ha => ?_, ordered.newer⟩
  exact absurd ha (Memtable.not_mem_empty a)

theorem sublist {frozen : List Memtable} (fewer : frozen.Sublist r.frozenMemtables) :
    ({ r with frozenMemtables := frozen } : StorageRoots).Ordered := by
  refine ⟨ordered.sound, ordered.newer.sublist ?_⟩
  exact ((fewer.reverse.cons_cons r.memtable).map _).append (.refl _)

theorem merge {r' : StorageRoots} {upper merged lower : List TableHandle}
    {t : TableHandle} (memtables : r'.memtables = r.memtables)
    (before : r.tables = upper ++ (merged ++ lower)) (after : r'.tables = upper ++ t :: lower)
    (sound : t.Sound) (sub : ∀ v ∈ t.versions, ∃ u ∈ merged, v ∈ u.versions) : r'.Ordered := by
  constructor
  · have old := ordered.sound
    rw [before, forall_mem_append, forall_mem_append] at old
    rw [after, forall_mem_append, forall_mem_cons]
    exact ⟨old.1, sound, old.2.2⟩
  · have newer := ordered.newer
    rw [tiers, before, map_append, map_append, ← append_assoc] at newer
    rw [tiers, memtables, after, map_append, ← append_assoc]
    refine pairwise_newer_merge newer fun v hv => ?_
    obtain ⟨u, hu, inTable⟩ := sub v hv
    exact ⟨_, mem_map_of_mem hu, inTable⟩

theorem dropTables {r' : StorageRoots} (memtables : r'.memtables = r.memtables)
    (fewer : r'.tables.Sublist r.tables) : r'.Ordered := by
  refine ⟨fun t ht => ordered.sound t (fewer.subset ht), ordered.newer.sublist ?_⟩
  rw [tiers, memtables]
  exact (List.Sublist.refl _).append (fewer.map _)

theorem flushed {m : Memtable} {t : TableHandle} {manifest : Manifest}
    (frozen : r.frozenMemtables = [m]) (base : manifest.basePath = r.manifest.basePath)
    (sound : t.Sound) (versions : t.versions = m.versions) :
    ({ r with
      manifest := manifest
      sstables := r.sstables ++ [t]
      frozenMemtables := [] } : StorageRoots).Ordered := by
  have tables : ({ r with
      manifest := manifest
      sstables := r.sstables ++ [t]
      frozenMemtables := [] } : StorageRoots).tables = t :: r.tables := by
    simp [tables, baseTable, base]
  constructor
  · rw [tables]
    exact forall_mem_cons.mpr ⟨sound, ordered.sound⟩
  · have newer := ordered.newer
    rw [tiers, memtables, frozen] at newer
    rw [tiers, tables, map_cons, versions]
    exact newer

end StorageRoots.Ordered

/-- A new table without split keys. -/
theorem Writable.sound {vs : List Version} (writable : Writable vs)
    (aligned : Aligned (vs.map record)) (distinct : Unambiguous {v | v ∈ vs}) (n : ℕ) (p : Path) :
    (⟨encodeTable (vs.map record), tableBloom n (vs.map record), p⟩ :
      TableHandle).Sound where
  toHolds := TableHandle.holds_encodeTable writable.tableRecords n p
  aligned := by
    rw [TableHandle.records_encodeTable writable.tableRecords]
    exact aligned
  distinct := by
    rw [writable.versions_eq]
    exact distinct

theorem Writable.sound_newTable {vs : List Version} (writable : Writable vs)
    (aligned : Aligned (vs.map record)) (distinct : Unambiguous {v | v ∈ vs}) (p : Path) :
    (newTable p (vs.map record)).Sound := writable.sound aligned distinct _ p

def StorageRoots.ValuesIn (r : StorageRoots) (heap : Bytes) : Prop :=
  ∀ v ∈ r.versions, ¬v.IsTombstone → ∃ value, readPointer heap v.pointer = .ok value

structure Engine.Consistent (e : Engine) : Prop extends e.WellFormed where
  ordered : e.roots.Ordered
  heapData : e.files.files e.roots.heapReader = some ⟨e.heap, e.heap⟩
  heapEnd : e.heapOffset = e.heap.length
  heapBound : e.heapOffset < 2 ^ 64
  values : e.roots.ValuesIn e.heap
  replayed : e.roots.memtable = Memtable.empty.insertAll (replay e.files.wal.data)
  oneFrozen : e.roots.frozenMemtables.length ≤ 1

namespace Engine.Consistent

variable {e e' : Engine} (c : e.Consistent)

include c

theorem sameHeap (wf : e'.WellFormed) (ordered : e'.roots.Ordered)
    (reader : e'.roots.heapReader = e.roots.heapReader)
    (heap : e'.files.files e.roots.heapReader = e.files.files e.roots.heapReader)
    (heapOffset : e'.heapOffset = e.heapOffset) (versions : ∀ v ∈ e'.roots.versions,
    v ∈ e.roots.versions)
    (replayed : e'.roots.memtable = Memtable.empty.insertAll (replay e'.files.wal.data))
    (oneFrozen : e'.roots.frozenMemtables.length ≤ 1) : e'.Consistent := by
  have same : e'.heap = e.heap := by
    rw [Engine.heap, Files.read, reader, heap]
    rfl
  refine ⟨wf, ordered, ?_, ?_, ?_, ?_, replayed, oneFrozen⟩
  · rw [reader, heap, same]
    exact c.heapData
  · rw [heapOffset, same]
    exact c.heapEnd
  · rw [heapOffset]
    exact c.heapBound
  · rw [same]
    exact fun v hv => c.values v (versions v hv)

theorem of_sameData (same : SameData e e') : e'.Consistent := by
  refine c.sameHeap (c.toWellFormed.of_sameData same) ?_ ?_ ?_ same.heapOffset ?_ ?_ ?_
  · rw [same.roots]
    exact c.ordered
  · rw [same.roots]
  · rw [same.files]
  · rw [same.roots]
    exact fun v hv => hv
  · rw [same.roots, same.files]
    exact c.replayed
  · rw [same.roots]
    exact c.oneFrozen

variable {heap : Bytes} {tx : WriteBatch} {t : TableHandle} {p : Path} {heapToken token : ℕ}

omit c in
theorem readPointer_append {p : ValuePointer} {value : Bytes} (more : Bytes)
    (read : readPointer heap p = .ok value) : readPointer (heap ++ more) p = .ok value := by
  rw [readPointer] at read
  cases stored : Bytes.readExactAt heap p.offset (storedLength p.length) with
  | none => simp [stored] at read
  | some bytes =>
    have still : Bytes.readExactAt (heap ++ more) p.offset (storedLength p.length) =
        some bytes := by
      refine Bytes.readExactAt_congr stored fun i hi => getElem?_append_left ?_
      obtain ⟨length, there⟩ := Bytes.readExactAt_eq_some_iff.mp stored
      by_contra beyond
      have missing := there i hi
      rw [getElem?_eq_none (not_lt.mp beyond), getElem?_eq_getElem (length ▸ hi)] at missing
      cases missing
    rw [readPointer, still]
    rwa [stored] at read

theorem heapReader_eq : e.roots.heapReader = e.heapFile :=
  c.listed.heapReader.trans c.heapFile.symm

theorem heapData_committed (tx : WriteBatch) : (e.committed tx).files.files e.roots.heapReader =
      some ⟨e.heap ++ tx.payloads, e.heap ++ tx.payloads⟩ := by
  have file := c.heapData
  rw [c.heapReader_eq] at file ⊢
  rw [files_committed, wrap64_of_lt c.heapBound, c.heapEnd]
  simp [Files.sync, Files.write, file, Bytes.writeAt_end]

theorem heap_committed (tx : WriteBatch) : (e.committed tx).heap = e.heap ++ tx.payloads := by
  rw [Engine.heap, Files.read, roots_committed, c.heapData_committed]
  rfl

theorem realizes_committed (room : e.heapOffset + tx.totalHeapBytes < 2 ^ 64) :
    List.Forall₂ (Realizes (e.committed tx).heap) ((e.nextBatch tx).records.map OmniRecord.version)
      tx.ops := by
  refine WriteBatch.realizes_userRecords room ?_
  rw [c.heap_committed, c.heapEnd]
  refine Bytes.readExactAt_eq_some_iff.mpr ⟨rfl, fun i hi => ?_⟩
  rw [getElem?_append_right (by omega), Nat.add_sub_cancel_left]

omit e' c in
theorem exists_op_of_mem_nextBatch {r : OmniRecord}
    (member : r ∈ (e.nextBatch tx).records) : ∃ op ∈ tx.ops, op.1 = r.key := by
  refine mem_map.mp ?_
  rw [← tx.key_userRecords e.globalSeq e.heapOffset]
  exact mem_map_of_mem member

omit e' c in
theorem newRecords_eq (keys : ∀ op ∈ tx.ops, op.1 ≠ commitMarkerKey) :
    e.newRecords tx = (e.nextBatch tx).records := by
  refine filter_eq_self.mpr fun r hr => decide_eq_true ?_
  obtain ⟨op, hop, same⟩ := exists_op_of_mem_nextBatch hr
  exact same ▸ keys op hop

theorem committed (keys : ∀ op ∈ tx.ops, op.1.length ≤ 65535 ∧ op.1 ≠ commitMarkerKey)
    (room : e.globalSeq + (tx.opCount + 2) < 2 ^ 64)
    (heapRoom : e.heapOffset + tx.totalHeapBytes < 2 ^ 64) : (e.committed tx).Consistent := by
  have wf := c.toWellFormed.committed (fun op hop => (keys op hop).1) room
  have reader : (e.committed tx).roots.heapReader = e.roots.heapReader := by rw [roots_committed]
  refine ⟨wf, ?_, ?_, ?_, ?_, ?_, ?_, ?_⟩
  · rw [roots_committed]
    refine c.ordered.insertAll fun x hx v hv => ?_
    have fresh := seq_of_mem_nextBatch (by omega) (mem_filter.mp hx).1
    exact (c.toWellFormed.seq_lt_globalSeq hv).trans_le fresh.1
  · rw [reader, c.heapData_committed, c.heap_committed]
  · rw [heapOffset_committed, wrap64_of_lt heapRoom, c.heap_committed, length_append, c.heapEnd,
      tx.length_payloads]
  · rw [heapOffset_committed, wrap64_of_lt heapRoom]
    exact heapRoom
  · intro v hv live
    obtain old | ⟨r, hr, rfl⟩ := mem_versions_committed hv
    · obtain ⟨value, read⟩ := c.values v old live
      exact ⟨value, c.heap_committed tx ▸ readPointer_append _ read⟩
    · obtain ⟨⟨key, op⟩, -, realizes⟩ := exists_of_mem_left (c.realizes_committed heapRoom)
        (mem_map_of_mem (mem_filter.mp hr).1)
      cases op with
      | none => exact absurd (realizes.tombstone rfl) live
      | some w => exact ⟨w.value, (realizes.value w rfl).2.2⟩
  · obtain ⟨batches, short, log, -⟩ := c.log
    have shortNew : (e.nextBatch tx).KeysFit :=
      WriteBatch.keysFit_logBatch (fun op hop => (keys op hop).1) _ _
    have logged :
        (e.committed tx).files.wal.data = LogBatch.frames (batches ++ [e.nextBatch tx]) := by
      rw [wal_committed, LogBatch.frames_append, LogBatch.frames_singleton, ← log]
      rfl
    rw [roots_committed, logged, LogBatch.replay_logBatches (forall_mem_append.mpr ⟨short,
      by simpa using shortNew⟩)]
    rw [c.replayed, log, LogBatch.replay_logBatches short,
      newRecords_eq fun op hop => (keys op hop).2]
    simp [Memtable.insertAll]
  · exact c.oneFrozen

theorem freeze (noFlush : e.roots.frozenMemtables = []) : e.freeze.Consistent := by
  refine c.sameHeap c.toWellFormed.freeze c.ordered.freeze rfl rfl rfl
    (fun v hv => mem_versions_of_freeze hv) rfl ?_
  show (e.roots.frozenMemtables ++ [e.roots.memtable]).length ≤ 1
  simp [noFlush]

omit [External] c in
theorem files_publish {r : StorageRoots} {removed : List Path} (other : p ≠ t.path)
    (kept : p ∉ removed) : (e.publish t r removed).files.files p = e.files.files p := by
  simp [Engine.publish, removeFiles, updateRoots, saveManifest, writeTable, Files.remove,
    Files.syncDir, Files.renameManifest, Files.saveBloom, Files.sync, Files.create, other, kept]

omit [External] c in
theorem files_publishL0 {m : Manifest} {idx : ℕ} (other : p ≠ t.path) :
    ((((e.writeTable t).saveManifest m).pushL0 t m).removeFrozenMemtable idx).files.files p =
      e.files.files p := by
  have published : ((((e.writeTable t).saveManifest m).pushL0 t m).removeFrozenMemtable idx).files =
      (e.publish t (e.rootsWithL0 t m) []).files := by
    rfl
  rw [published, files_publish other not_mem_nil]

theorem heapReader_ne (free : ¬(e.files.files p).isSome) : e.roots.heapReader ≠ p := by
  rintro rfl
  rw [c.heapData] at free
  exact free rfl

/-- The table of the only frozen memtable is published and the memtable dropped. -/
theorem publishL0 {m : Memtable} {manifest : Manifest}
    (only : e.roots.frozenMemtables = [m]) (base : manifest.basePath = e.roots.manifest.basePath)
    (free : ¬(e.files.files t.path).isSome) (sound : t.Sound) (same : t.versions = m.versions)
    (published : e' = (((e.writeTable t).saveManifest manifest).pushL0 t
    manifest).removeFrozenMemtable 0)
    (wf : e'.WellFormed) (versions : ∀ v ∈ e'.roots.versions, v ∈ e.roots.versions) :
    e'.Consistent := by
  have roots : e'.roots = { e.roots with
      manifest := manifest
      sstables := e.roots.sstables ++ [t]
      frozenMemtables := [] } := by
    have erased : e.roots.frozenMemtables.eraseIdx 0 = [] := by simp [only]
    rw [published, ← erased]
    rfl
  have files : ∀ p ≠ t.path, e'.files.files p = e.files.files p := by
    intro p other
    rw [published, files_publishL0 other]
  refine c.sameHeap wf ?_ (by rw [roots]) (files _ (c.heapReader_ne free)) (by rw [published]; rfl)
    versions ?_ (by rw [roots]; exact Nat.zero_le 1)
  · rw [roots]
    exact c.ordered.flushed only base sound same
  · rw [published]
    exact c.replayed

theorem publishFrozen {m : Memtable} {idx : ℕ}
    (frozen : e.roots.frozenMemtables[idx]? = some m) (aligned : Aligned (flushRecords m))
    (size : tableSize m.versions < 2 ^ 64) (done : e.publishFrozen m idx token = .ok e') :
    e'.Consistent := by
  -- The frozen memtable is the only one.
  obtain ⟨only, rfl⟩ : e.roots.frozenMemtables = [m] ∧ idx = 0 := by
    have short := c.oneFrozen
    cases list : e.roots.frozenMemtables with
    | nil => simp [list] at frozen
    | cons first rest =>
      obtain rfl : rest = [] := by simpa [list] using short
      cases idx with
      | zero => simpa [list] using frozen
      | succ idx => simp [list] at frozen
  have member : m ∈ e.roots.memtables := mem_memtables.mpr (.inr (by simp [only]))
  have wf := c.toWellFormed.publishFrozen member size done
  have versions := fun v hv => c.toWellFormed.mem_versions_of_publishFrozen member size done
    (v := v) hv
  simp only [Engine.publishFrozen] at done
  split_ifs at done with empty taken
  · cases done
    refine c.sameHeap wf (c.ordered.sublist (eraseIdx_sublist _ _)) rfl rfl rfl versions c.replayed
      ?_
    exact (length_eraseIdx_le _ _).trans c.oneFrozen
  · have writable := c.toWellFormed.writable_memtable member size
    have base : (e.flushManifest token).basePath = e.roots.manifest.basePath := rfl
    exact c.publishL0 only base taken (writable.sound_newTable aligned m.unambiguous _)
      (writable.versions_newTable _) (Except.ok.inj done).symm wf versions

theorem publish {r : StorageRoots} {removed : List Path}
    (upper merged lower : List TableHandle) (free : ¬(e.files.files t.path).isSome)
    (kept : e.roots.heapReader ∉ removed) (reader : r.heapReader = e.roots.heapReader)
    (memtable : r.memtable = e.roots.memtable)
    (frozen : r.frozenMemtables = e.roots.frozenMemtables)
    (before : e.roots.tables = upper ++ (merged ++ lower)) (after : r.tables = upper ++ t :: lower)
    (sound : t.Sound) (sub : ∀ v ∈ t.versions, ∃ u ∈ merged, v ∈ u.versions)
    (wf : (e.publish t r removed).WellFormed) : (e.publish t r removed).Consistent := by
  have memtables : r.memtables = e.roots.memtables := by
    rw [memtables, memtable, frozen, memtables]
  refine c.sameHeap wf (c.ordered.merge memtables before after sound sub) reader
    (files_publish (c.heapReader_ne free) kept) rfl (fun v hv => ?_) ?_ ?_
  · rw [mem_versions] at hv ⊢
    rw [show (e.publish t r removed).roots = r from rfl, memtables, after] at hv
    refine hv.imp_right ?_
    rintro ⟨u, hu, inTable⟩
    rw [before]
    obtain high | rest := mem_append.mp hu
    · exact ⟨u, mem_append_left _ high, inTable⟩
    · obtain rfl | low := mem_cons.mp rest
      · obtain ⟨u', hu', inMerged⟩ := sub v inTable
        exact ⟨u', mem_append_right _ (mem_append_left _ hu'), inMerged⟩
      · exact ⟨u, mem_append_right _ (mem_append_right _ low), inTable⟩
  · exact memtable.trans c.replayed
  · show r.frozenMemtables.length ≤ 1
    rw [frozen]
    exact c.oneFrozen

omit [External] c in
/-- What a compaction keeps has distinct versions. -/
theorem unambiguous_retained (m : Merged) (floor : Option ℕ) :
    Unambiguous {v | v ∈ m.retained floor} :=
  m.unambiguous.mono fun _ hv => (Merged.mem_retained.mp hv).mem

omit [External] c in
theorem unambiguous_baseVersions (m : Merged) (now : UInt64) :
    Unambiguous {v | v ∈ e.baseVersions m now} :=
  (unambiguous_retained m _).mono fun _ hv => (mem_filter.mp hv).1

theorem heapReader_not_mem_l0Paths :
    e.roots.heapReader ∉ e.roots.sstables.map TableHandle.path := by
  rw [c.listed.heapReader]
  exact c.toWellFormed.heapPath_not_mem_l0Paths

theorem dropL0 :
    (((e.saveManifest e.rootsWithoutL0.manifest).updateRoots fun _ => e.rootsWithoutL0).removeFiles
      (e.roots.sstables.map TableHandle.path)).Consistent := by
  have fewer : e.rootsWithoutL0.tables.Sublist e.roots.tables :=
    ((nil_sublist _).append (.refl _)).append (.refl _)
  refine c.sameHeap c.toWellFormed.dropL0 (c.ordered.dropTables rfl fewer) rfl
    (if_neg c.heapReader_not_mem_l0Paths) rfl (fun v hv => ?_) c.replayed c.oneFrozen
  rw [mem_versions] at hv ⊢
  exact hv.imp_right fun ⟨t, ht, inTable⟩ => ⟨t, fewer.subset ht, inTable⟩

theorem publishL1 (free : ¬(e.files.files t.path).isSome)
    (sound : t.Sound) (sub : ∀ v ∈ t.versions, ∃ u ∈ e.roots.sstables.reverse, v ∈ u.versions)
    (wf : (e.publish t (e.rootsWithL1 t) (e.roots.sstables.map TableHandle.path)).WellFormed) :
    (e.publish t (e.rootsWithL1 t) (e.roots.sstables.map TableHandle.path)).Consistent := by
  refine c.publish [] e.roots.sstables.reverse (e.roots.l1Sstables.reverse ++ [e.roots.baseTable])
    free c.heapReader_not_mem_l0Paths rfl rfl rfl ?_ ?_ sound sub wf
  · simp [tables]
  · simp [tables, rootsWithL1, baseTable]

theorem compactL0ToL1
    (aligned : Aligned ((e.l0Merged.retained e.compactionRetentionFloor).map record))
    (size : tableSize (e.l0Merged.retained e.compactionRetentionFloor) < 2 ^ 64)
    (done : e.compactL0ToL1 token = .ok e') : e'.Consistent := by
  have wf := c.toWellFormed.compactL0ToL1 size done
  simp only [Engine.compactL0ToL1] at done
  split_ifs at done with none empty taken
  · exact Except.ok.inj done ▸ c
  · exact Except.ok.inj done ▸ c.dropL0
  · have writable := c.toWellFormed.writable_l0 size
    cases done
    refine c.publishL1 taken (writable.sound_newTable aligned (unambiguous_retained _ _) _) ?_ wf
    intro v hv
    rw [writable.versions_newTable] at hv
    obtain ⟨t, ht, inTable⟩ := c.toWellFormed.mem_retained_l0Merged hv
    exact ⟨t, mem_reverse.mpr ht, inTable⟩

theorem publishBase (free : ¬(e.files.files t.path).isSome) (sound : t.Sound)
    (sub : ∀ v ∈ t.versions, ∃ u ∈ e.roots.l1Sstables.reverse ++ [e.roots.baseTable],
    v ∈ u.versions) (wf : (e.publish t (e.rootsWithBase t)
      (e.roots.manifest.basePath :: e.roots.l1Sstables.map TableHandle.path)).WellFormed) :
    (e.publish t (e.rootsWithBase t)
      (e.roots.manifest.basePath :: e.roots.l1Sstables.map TableHandle.path)).Consistent := by
  refine c.publish e.roots.sstables.reverse (e.roots.l1Sstables.reverse ++ [e.roots.baseTable])
    [] free ?_ rfl rfl rfl ?_ ?_ sound sub wf
  · rw [c.listed.heapReader]
    exact c.toWellFormed.heapPath_not_mem_basePaths
  · simp [tables]
  · simp [tables, rootsWithBase, baseTable]

theorem compactL1ToL2 {now : UInt64}
    (aligned : Aligned ((e.baseVersions e.l1Merged now).map record))
    (size : tableSize (e.baseVersions e.l1Merged now) < 2 ^ 64)
    (done : e.compactL1ToL2 token now = .ok e') : e'.Consistent := by
  have wf := c.toWellFormed.compactL1ToL2 size done
  simp only [Engine.compactL1ToL2] at done
  split_ifs at done with none taken
  · exact Except.ok.inj done ▸ c
  · have writable := c.toWellFormed.writable_l1 size
    cases done
    refine c.publishBase taken (writable.sound_newTable aligned (unambiguous_baseVersions _ _) _) ?_
      wf
    intro v hv
    rw [writable.versions_newTable] at hv
    obtain ⟨t, ht, inTable⟩ | base := c.toWellFormed.mem_baseVersions_l1Merged hv
    · exact ⟨t, mem_append_left _ (mem_reverse.mpr ht), inTable⟩
    · exact ⟨_, mem_append_right _ (.head _), base⟩

omit c

section

omit [External]

theorem unambiguous_of_nodup {vs : List Version} (nodup : (vs.map fun v => (v.key, v.seq)).Nodup) :
    Unambiguous {v | v ∈ vs} := by
  intro a ha b hb key seq
  exact inj_on_of_nodup_map nodup ha hb (Prod.ext key seq)

/-- What garbage collection writes has distinct versions. -/
theorem unambiguous_relocate (m : Merged) (now : UInt64) :
    Unambiguous {v | v ∈ relocate 0 (e.baseVersions m now)} := by
  refine unambiguous_of_nodup ?_
  rw [map_relocate fun _ _ => rfl]
  exact (m.nodup_retained _).sublist (filter_sublist.map _)

theorem heapData_collected (heapToken : ℕ) (heap : Bytes)
    (kind : t.path.kind = .base) (kept : Path.compactedHeap heapToken ∉ e.gcOldPaths) :
    (e.collected heapToken t heap).files.files (.compactedHeap heapToken) = some ⟨heap, heap⟩ := by
  rw [← (WellFormed.keeps_gc (e := e) e.files heap kind).2]
  exact if_neg kept

end

theorem heap_collected (c : e.Consistent)
    (kind : t.path.kind = .base) (freeHeap : ¬(e.files.files (.compactedHeap heapToken)).isSome) :
    (e.collected heapToken t heap).heap = heap := by
  rw [Engine.heap, Files.read, show (e.collected heapToken t heap).roots.heapReader =
    .compactedHeap heapToken from rfl, heapData_collected heapToken heap kind fun member =>
    freeHeap (c.toWellFormed.isSome_of_mem_gcOldPaths member)]
  rfl

theorem collected (c : e.Consistent)
    (kind : t.path.kind = .base) (freeHeap : ¬(e.files.files (.compactedHeap heapToken)).isSome)
    (empty : ∀ m ∈ e.roots.memtables, ∀ v, v ∉ m) (sound : t.Sound) (room : heap.length < 2 ^ 64)
    (values : ∀ w ∈ t.versions, ¬w.IsTombstone → ∃ value, readPointer heap w.pointer = .ok value)
    (wf : (e.collected heapToken t heap).WellFormed) :
    (e.collected heapToken t heap).Consistent := by
  have heapData := heapData_collected heapToken heap kind fun member =>
    freeHeap (c.toWellFormed.isSome_of_mem_gcOldPaths member)
  have heap_eq : (e.collected heapToken t heap).heap = heap := c.heap_collected kind freeHeap
  refine ⟨wf, ⟨fun u hu => WellFormed.mem_tables_gcRoots hu ▸ sound, ?_⟩, ?_, ?_, ?_, ?_, ?_,
    c.oneFrozen⟩
  · have none : ∀ S ∈ (e.gcRoots heapToken t).memtables.map fun m => {v | v ∈ m}, ∀ v, v ∉ S := by
      intro S hS
      obtain ⟨m, hm, rfl⟩ := mem_map.mp hS
      exact empty m hm
    refine pairwise_append.mpr ⟨?_, pairwise_singleton _ _, ?_⟩
    · exact pairwise_of_forall_mem_list fun S hS _ _ v hv => absurd hv (none S hS v)
    · exact fun S hS _ _ v hv => absurd hv (none S hS v)
  · rw [heap_eq]
    exact heapData
  · rw [heap_eq]
    exact wrap64_of_lt room
  · exact wrap64_lt _
  · intro v hv live
    rw [heap_eq]
    obtain ⟨m, hm, inMem⟩ | ⟨u, hu, inTable⟩ := mem_versions.mp hv
    · exact absurd inMem (empty m hm v)
    · obtain rfl := WellFormed.mem_tables_gcRoots hu
      exact values v inTable live
  · exact Memtable.eq_empty (empty _ (mem_memtables.mpr (.inl rfl)))

theorem runGarbageCollection (c : e.Consistent) {baseToken : ℕ} {now : UInt64}
    (empty : ∀ m ∈ e.roots.memtables, ∀ v, v ∉ m)
    (aligned : Aligned ((e.baseVersions e.gcMerged now).map record))
    (size : tableSize (e.baseVersions e.gcMerged now) < 2 ^ 64)
    (heapRoom : heapSize (e.baseVersions e.gcMerged now) < 2 ^ 64)
    (done : e.runGarbageCollection heapToken baseToken now = .ok e') : e'.Consistent := by
  have active : ∀ v, v ∉ e.roots.memtable := empty _ (mem_memtables.mpr (.inl rfl))
  have wf := c.toWellFormed.runGarbageCollection size (fun v hv => absurd hv (active v)) done
  obtain ⟨freeHeap, freeBase, payloads, copied, rfl⟩ := Engine.runGarbageCollection_eq_ok done
  have writable := c.toWellFormed.writable_relocate size
  have length := length_flatten_of_copied copied
  have keys : ((relocate 0 (e.baseVersions e.gcMerged now)).map record).map OmniRecord.key =
      ((e.baseVersions e.gcMerged now).map record).map OmniRecord.key := by
    rw [map_map, map_map]
    exact map_relocate (fun _ _ => rfl) 0 _
  have moved := movedTo_of_copied copied heapRoom
  have sound :
      (e.gcTable baseToken ((relocate 0 (e.baseVersions e.gcMerged now)).map record)).Sound :=
    writable.sound ((aligned_congr keys).mpr aligned) (unambiguous_relocate _ _) _ _
  refine c.collected rfl freeHeap empty sound (by omega) (fun w hw live => ?_) wf
  rw [gcTable, writable.versions_eq] at hw
  obtain ⟨v, hv, moved⟩ := exists_of_mem_right moved hw
  have live := mt moved.isTombstone_iff.mpr live
  rw [moved.read live, ← c.listed.heapReader]
  refine c.values v (mem_versions.mpr ?_) live
  exact .inr ((c.toWellFormed.mem_baseVersions_gcMerged hv).resolve_right (active v))

end Engine.Consistent

namespace Disk.Stores

variable {d : Disk} {r : StorageRoots}

theorem heapData_recoverFrom (stores : d.Stores r) :
    (recoverFrom d r.manifest).files.files r.manifest.heapPath =
      some ⟨(d.files r.manifest.heapPath).getD [], (d.files r.manifest.heapPath).getD []⟩ := by
  rw [stores.files_recoverFrom]
  simp

theorem heap_ofRecovered (stores : d.Stores r) :
    (Engine.ofRecovered (recoverFrom d r.manifest)).heap =
      (d.files r.manifest.heapPath).getD [] := by
  show (recoverFrom d r.manifest).files.read r.manifest.heapPath = _
  rw [Files.read, stores.heapData_recoverFrom]
  rfl

theorem consistent_ofRecovered (stores : d.Stores r)
    (wf : (Engine.ofRecovered (recoverFrom d r.manifest)).WellFormed) (ordered : ({ r with
      memtable := Memtable.empty.insertAll (replay d.wal)
      frozenMemtables := []
      heapReader := r.manifest.heapPath } : StorageRoots).Ordered)
    (values : ({ r with
      memtable := Memtable.empty.insertAll (replay d.wal)
      frozenMemtables := []
      heapReader := r.manifest.heapPath } : StorageRoots).ValuesIn
        ((d.files r.manifest.heapPath).getD []))
    (room : ((d.files r.manifest.heapPath).getD []).length < 2 ^ 64) :
    (Engine.ofRecovered (recoverFrom d r.manifest)).Consistent := by
  have roots : (Engine.ofRecovered (recoverFrom d r.manifest)).roots = _ := stores.roots_recoverFrom
  refine ⟨wf, ?_, ?_, ?_, room, ?_, rfl, Nat.zero_le 1⟩
  · rw [roots]
    exact ordered
  · rw [stores.heap_ofRecovered]
    exact stores.heapData_recoverFrom
  · rw [stores.heap_ofRecovered]
    rfl
  · rw [roots, stores.heap_ofRecovered]
    exact values

end Disk.Stores

namespace Engine

variable {e : Engine} (opened : openDb .empty = .ok e)

include opened

theorem not_mem_of_openDb_empty {S : Set Version} (tier : S ∈ e.roots.tiers) (v : Version) :
    v ∉ S := by
  cases opened
  intro hv
  obtain inMem | inTable := mem_append.mp tier
  · obtain ⟨m, hm, rfl⟩ := mem_map.mp inMem
    obtain rfl := (mem_memtables.mp hm).resolve_right not_mem_nil
    exact Memtable.not_mem_empty v hv
  · obtain ⟨t, ht, rfl⟩ := mem_map.mp inTable
    rw [(sound_of_mem_tables_initial ht).2.2] at hv
    cases hv

theorem versions_of_openDb_empty (v : Version) : v ∉ e.roots.versions := by
  rintro ⟨S, hS, hv⟩
  exact not_mem_of_openDb_empty opened hS v hv

theorem consistent_of_openDb_empty : e.Consistent := by
  have wf := wellFormed_of_openDb_empty opened
  have none : ∀ S ∈ e.roots.tiers, ∀ v, v ∉ S := fun S hS => not_mem_of_openDb_empty opened hS
  have values : e.roots.ValuesIn e.heap := fun v hv => absurd hv (versions_of_openDb_empty opened v)
  cases opened
  refine ⟨wf, ⟨fun t ht => (sound_of_mem_tables_initial ht).2.1, ?_⟩, rfl, rfl, Nat.two_pow_pos 64,
    values,
    rfl, Nat.zero_le 1⟩
  exact pairwise_of_forall_mem_list fun S hS _ _ v hv => absurd hv (none S hS v)

omit opened

/-- Closing and reopening while no flush is under way leaves the roots as they are. -/
theorem Consistent.reopen {e' : Engine} (c : e.Consistent) (noFlush : e.roots.frozenMemtables = [])
    (room : max e.globalSeq e.roots.manifest.maxSeq + 2 < 2 ^ 64) (done : e.reopen = .ok e') :
    e'.Consistent ∧ e'.roots = e.roots := by
  have wf := c.toWellFormed.reopen room done
  have stores := c.backs.stores c.listed e.survives_close
  rw [reopen_eq_ok (by rw [c.backs.manifest, c.listed.version]), c.backs.manifest] at done
  cases done
  have same : ({ e.roots with
      memtable := Memtable.empty.insertAll (replay e.close.wal)
      frozenMemtables := []
      heapReader := e.roots.manifest.heapPath } : StorageRoots) = e.roots := by
    rw [show e.close.wal = e.files.wal.data
      from rfl, ← c.replayed, ← noFlush, ← c.listed.heapReader]
  have heap : (e.close.files e.roots.manifest.heapPath).getD [] = e.heap := by
    rw [← c.listed.heapReader]
    rfl
  refine ⟨stores.consistent_ofRecovered wf ?_ ?_ ?_, stores.roots_recoverFrom.trans same⟩
  · rw [same]
    exact c.ordered
  · rw [same, heap]
    exact c.values
  · rw [heap, ← c.heapEnd]
    exact c.heapBound

/-- The marker key is left alone, flushes do not overlap, no table splits a key, garbage collection
finds the memtables empty, and nothing overflows. -/
def Careful (e : Engine) : EngineOp → Prop
  | .commit tx => (∀ op ∈ tx.ops, op.1.length ≤ 65535 ∧ op.1 ≠ commitMarkerKey) ∧
      e.globalSeq + (tx.opCount + 2) < 2 ^ 64 ∧ e.heapOffset + tx.totalHeapBytes < 2 ^ 64
  | .beginFlush => e.roots.frozenMemtables = []
  | .finishFlush idx _ => ∀ m ∈ e.roots.frozenMemtables[idx]?,
      Aligned (flushRecords m) ∧ tableSize m.versions < 2 ^ 64
  | .compactL0ToL1 _ =>
    Aligned ((e.l0Merged.retained e.compactionRetentionFloor).map record) ∧
      tableSize (e.l0Merged.retained e.compactionRetentionFloor) < 2 ^ 64
  | .compactL1ToL2 _ now => Aligned ((e.baseVersions e.l1Merged now).map record) ∧
      tableSize (e.baseVersions e.l1Merged now) < 2 ^ 64
  | .garbageCollect _ _ now => (∀ m ∈ e.roots.memtables, m.versions = []) ∧
      Aligned ((e.baseVersions e.gcMerged now).map record) ∧
      tableSize (e.baseVersions e.gcMerged now) < 2 ^ 64 ∧
      heapSize (e.baseVersions e.gcMerged now) < 2 ^ 64
  | .reopen => e.roots.frozenMemtables = [] ∧ max e.globalSeq e.roots.manifest.maxSeq + 2 < 2 ^ 64
  | _ => True

instance (e : Engine) (op : EngineOp) : Decidable (e.Careful op) := by
  rcases op <;> simp only [Careful] <;> infer_instance

theorem Careful.unfilled {heapToken baseToken : ℕ} {now : UInt64}
    (careful : e.Careful (.garbageCollect heapToken baseToken now)) :
    ∀ m ∈ e.roots.memtables, ∀ v, v ∉ m :=
  fun m hm => Memtable.not_mem_of_versions (careful.1 m hm)

theorem Consistent.next {e' : Engine} {op : EngineOp} (c : e.Consistent) (careful : e.Careful op)
    (step : e.next op = some e') : e'.Consistent := by
  cases effect_of_next step with
  | commit room => exact c.committed careful.1 careful.2.1 careful.2.2
  | beginFlush => exact c.freeze careful
  | finishFlush frozen done =>
    exact c.publishFrozen frozen (careful _ frozen).1 (careful _ frozen).2 done
  | compactL0ToL1 done => exact c.compactL0ToL1 careful.1 careful.2 done
  | compactL1ToL2 done => exact c.compactL1ToL2 careful.1 careful.2 done
  | garbageCollect done =>
    have empty := careful.unfilled
    obtain ⟨-, aligned, size, heapRoom⟩ := careful
    exact c.runGarbageCollection empty aligned size heapRoom done
  | reopen done => exact (c.reopen careful.1 careful.2 done).1
  | other same => exact c.of_sameData same

theorem consistent_of_run {e₀ : Engine} (start : openDb .empty = .ok e₀)
    (run : Relation.ReflTransGen (Run.SafeStep Careful next) e₀ e) : e.Consistent :=
  Run.invariant run (consistent_of_openDb_empty start) fun c careful step => c.next careful step

end Engine

end

end OmniKV
