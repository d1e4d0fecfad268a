import OmniKV.Storage.Disk
import OmniKV.Storage.Relocation

/-!
# Well-formed engines

The roots of a running engine, its files and its counters agree: the manifest lists the tables that
are mapped, the tables are on disk, and the sequence counter is above every stored version.
-/

namespace OmniKV

open Versioned List StorageRoots Files LogBatch Merged Version
open TableHandle (path)

inductive FileKind
  | heap
  | l0
  | l1
  | base
deriving DecidableEq

def Path.kind : Path → FileKind
  | .initialHeap | .compactedHeap _ => .heap
  | .l0 _ => .l0
  | .l1 _ => .l1
  | .initialBase | .base _ | .compactedBase _ => .base

/-- The manifest lists the tables of the roots, each level with its kind of files. -/
structure StorageRoots.Listed (r : StorageRoots) : Prop where
  l0 : r.sstables.map path = r.manifest.sstables
  l1 : r.l1Sstables.map path = r.manifest.l1Sstables
  l0Kind : ∀ t ∈ r.sstables, t.path.kind = .l0
  l1Kind : ∀ t ∈ r.l1Sstables, t.path.kind = .l1
  baseKind : r.manifest.basePath.kind = .base
  heapKind : r.manifest.heapPath.kind = .heap
  heapReader : r.heapReader = r.manifest.heapPath
  version : r.manifest.formatVersion = manifestFormatVersion
  nonempty : ∀ t ∈ r.tables, t.data ≠ []

/-- The directory has what the roots name. -/
structure Files.Backs (f : Files) (r : StorageRoots) : Prop where
  keeps : ∀ t ∈ r.tables, f.Keeps t
  manifest : f.manifest = r.manifest
  durable : f.durableManifest = r.manifest
  heap : (f.files r.manifest.heapPath).isSome

variable {r : StorageRoots}

theorem StorageRoots.Listed.kind_ne_heap (listed : r.Listed) {t : TableHandle}
    (member : t ∈ r.tables) : t.path.kind ≠ .heap := by
  obtain l0 | l1 | rfl := mem_tables.mp member
  · simp [listed.l0Kind t l0]
  · simp [listed.l1Kind t l1]
  · simp [show r.baseTable.path.kind = .base from listed.baseKind]

theorem StorageRoots.Listed.path_ne_heap (listed : r.Listed) {t : TableHandle}
    (member : t ∈ r.tables) : t.path ≠ r.manifest.heapPath := by
  intro same
  exact listed.kind_ne_heap member (same ▸ listed.heapKind)

theorem Files.stores_of_keeps {f : Files} {d : Disk} (listed : r.Listed)
    (keeps : ∀ t ∈ r.tables, f.Keeps t) (survives : f.Survives d) : d.Stores r where
  l0 := listed.l0
  l1 := listed.l1
  nonempty := listed.nonempty r.baseTable (mem_tables.mpr (.inr (.inr rfl)))
  file t ht := (survives.files _ _ (keeps t ht).file).eq_some rfl (listed.nonempty t ht)
  bloom t ht := survives.blooms _ _ (keeps t ht).bloom

namespace Files.Backs

variable {f : Files} {r : StorageRoots} (backs : f.Backs r)

include backs

theorem stores {d : Disk} (listed : r.Listed) (survives : f.Survives d) :
    d.Stores r := stores_of_keeps listed backs.keeps survives

theorem manifest_eq {d : Disk} (survives : f.Survives d) : d.manifest = some r.manifest := by
  have both := survives.manifest
  rwa [backs.manifest, backs.durable, or_self] at both

omit backs in
theorem rename {removed : List Path} (version : r.manifest.formatVersion = manifestFormatVersion)
    (keeps : ∀ t ∈ r.tables, f.Keeps t ∧ t.path ∉ removed)
    (heap : (f.files r.manifest.heapPath).isSome ∧ r.manifest.heapPath ∉ removed) :
    ((f.renameManifest r.manifest).syncDir.remove removed).Backs r := by
  have same : { r.manifest with formatVersion := manifestFormatVersion } = r.manifest := by
    rw [← version]
  refine ⟨fun t ht => ?_, same, same, ?_⟩
  · refine Files.Keeps.remove ?_ (keeps t ht).2
    exact (keeps t ht).1.of_eq rfl rfl
  · simp only [remove, heap.2]
    exact heap.1

theorem publish (r' : StorageRoots) (t : TableHandle) (removed : List Path)
    (free : ¬(f.files t.path).isSome) (version : r'.manifest.formatVersion = manifestFormatVersion)
    (tables : ∀ u ∈ r'.tables, (u = t ∨ u ∈ r.tables) ∧ u.path ∉ removed)
    (heap : r'.manifest.heapPath = r.manifest.heapPath ∧ r.manifest.heapPath ∉ removed) :
    ((((f.create t.path t.data).sync t.path).saveBloom t.path t.bloom).renameManifest
      r'.manifest |>.syncDir.remove removed).Backs r' := by
  refine rename version (fun u hu => ?_) ?_
  · obtain ⟨origin, kept⟩ := tables u hu
    refine ⟨?_, kept⟩
    obtain new | old := origin
    · exact new ▸ f.keeps_new t
    · have keeps := backs.keeps u old
      have other := keeps.path_ne free
      exact ((keeps.create other _).sync _).saveBloom other _
  · have other : r.manifest.heapPath ≠ t.path := by
      intro same
      exact free (same ▸ backs.heap)
    rw [heap.1]
    refine ⟨?_, heap.2⟩
    simpa only [saveBloom, sync, create, Function.update_of_ne other] using backs.heap

/-- Writing to the heap file does not touch the tables, whatever happens to the log. -/
theorem writeHeap (listed : r.Listed) (off : ℕ) (data : Bytes) (wal : WriteAheadLog) :
    ({ (f.write r.manifest.heapPath off data).sync r.manifest.heapPath with wal :=
      wal } : Files).Backs r where
  keeps t ht :=
    (((backs.keeps t ht).write (listed.path_ne_heap ht) _ _).sync _).of_eq rfl rfl
  manifest := backs.manifest
  durable := backs.durable
  heap := by simpa [sync, write] using backs.heap

/-- Neither the memtables nor the log matter. -/
theorem of_eq {f' : Files} {m : Memtable} {frozen : List Memtable}
    (files : f'.files = f.files) (blooms : f'.blooms = f.blooms)
    (manifest : f'.manifest = f.manifest) (durable : f'.durableManifest = f.durableManifest) :
    f'.Backs { r with memtable := m, frozenMemtables := frozen } where
  keeps t ht := (backs.keeps t ht).of_eq files blooms
  manifest := manifest.trans backs.manifest
  durable := durable.trans backs.durable
  heap := by
    rw [files]
    exact backs.heap

end Files.Backs

theorem StorageRoots.Listed.withMemtables (listed : r.Listed) (m : Memtable)
    (frozen : List Memtable) :
    ({ r with memtable := m, frozenMemtables := frozen } : StorageRoots).Listed :=
  ⟨listed.l0, listed.l1, listed.l0Kind, listed.l1Kind, listed.baseKind, listed.heapKind,
    listed.heapReader, listed.version, listed.nonempty⟩

section

variable [External]

structure Version.Fits (v : Version) : Prop where
  seq : v.seq < 2 ^ 64
  key : v.key.length < 2 ^ 16
  offset : v.pointer.offset < 2 ^ 64
  length : v.pointer.length < 2 ^ 64

omit [External] in
/-- The bytes that the records of a table with these versions take. -/
def tableSize (vs : List Version) : ℕ := (vs.map fun v => 42 + v.key.length).sum

theorem length_recordBytes_map_record (vs : List Version) :
    (recordBytes (vs.map record)).length = tableSize vs := by
  induction vs with
  | nil => rfl
  | cons v vs ih =>
    rw [map_cons, recordBytes_cons, length_append, ih, OmniRecord.length_encode]
    rfl

structure Writable (vs : List Version) : Prop where
  sorted : vs.Pairwise fun v w => v.key ≤ w.key
  fits : ∀ v ∈ vs, v.Fits
  size : tableSize vs < 2 ^ 64

namespace Writable

variable {vs : List Version} (writable : Writable vs)

include writable

theorem tableRecords : TableRecords (vs.map record) where
  sorted := pairwise_map.mpr writable.sorted
  valid r hr := by
    obtain ⟨v, -, rfl⟩ := mem_map.mp hr
    exact OmniRecord.isValid_new ..
  fits r hr := by
    obtain ⟨v, hv, rfl⟩ := mem_map.mp hr
    have fits := writable.fits v hv
    exact ⟨fits.seq, fits.key, fits.offset, fits.length⟩
  size := by
    rw [length_recordBytes_map_record]
    exact writable.size

theorem holds_newTable (p : Path) : (newTable p (vs.map record)).Holds :=
  TableHandle.holds_encodeTable writable.tableRecords _ p

theorem versions_eq (bloom : BloomFilter) (p : Path) :
    (⟨encodeTable (vs.map record), bloom, p⟩ : TableHandle).versions = vs := by
  rw [TableHandle.versions, TableHandle.records_encodeTable writable.tableRecords, map_map]
  exact map_id vs

theorem versions_newTable (p : Path) : (newTable p (vs.map record)).versions = vs :=
  writable.versions_eq _ p

end Writable

omit [External] in
theorem encodeTable_ne_nil (records : List OmniRecord) : encodeTable records ≠ [] := by
  apply ne_nil_of_length_pos
  rw [length_encodeTable]
  omega

/-- What every run of the engine keeps, as long as its counters and tables do not
overflow. -/
structure Engine.WellFormed (e : Engine) : Prop where
  listed : e.roots.Listed
  backs : e.files.Backs e.roots
  heapFile : e.heapFile = e.roots.manifest.heapPath
  holds : ∀ t ∈ e.roots.tables, t.Holds
  log : ∃ batches : List LogBatch, (∀ b ∈ batches, b.KeysFit) ∧ e.files.wal.data = frames batches ∧
    ∀ b ∈ batches, ∀ r ∈ b.records, r.seq < e.globalSeq
  memtables : ∀ m ∈ e.roots.memtables, ∀ v ∈ m, v.Fits ∧ v.seq < e.globalSeq
  tables : ∀ t ∈ e.roots.tables, ∀ v ∈ t.versions,
  v.seq < e.globalSeq ∧ v.seq ≤ e.roots.manifest.maxSeq
  maxSeq : e.roots.manifest.maxSeq + 1 < 2 ^ 64
  bound : e.globalSeq + 1 < 2 ^ 64

namespace Engine

omit [External] in
theorem mem_memtables_of_freeze {e : Engine} {m : Memtable} (member : m ∈ e.freeze.roots.memtables)
    (old : m ≠ .empty) : m ∈ e.roots.memtables := by
  refine mem_memtables.mpr ?_
  obtain old | new := mem_append.mp ((mem_memtables.mp member).resolve_left old)
  · exact .inr old
  · exact .inl (mem_singleton.mp new)

/-- A frozen memtable is still searched. -/
theorem mem_versions_of_freeze {e : Engine} {v : Version} (member : v ∈ e.freeze.roots.versions) :
    v ∈ e.roots.versions := by
  rw [mem_versions] at member ⊢
  refine member.imp_left ?_
  rintro ⟨m, hm, hv⟩
  refine ⟨m, mem_memtables_of_freeze hm ?_, hv⟩
  rintro rfl
  exact Memtable.not_mem_empty v hv

theorem mem_versions_committed {e : Engine} {tx : WriteBatch} {v : Version}
    (member : v ∈ (e.committed tx).roots.versions) :
    v ∈ e.roots.versions ∨ ∃ r ∈ e.newRecords tx, r.version = v := by
  rw [roots_committed, mem_versions] at member
  rw [mem_versions]
  obtain ⟨m, hm, hv⟩ | inTable := member
  · obtain rfl | frozen := mem_memtables.mp hm
    · refine (Memtable.mem_of_mem_insertAll hv).imp_left fun old => ?_
      exact .inl ⟨_, mem_memtables.mpr (.inl rfl), old⟩
    · exact .inl (.inl ⟨m, mem_memtables.mpr (.inr frozen), hv⟩)
  · exact .inl (.inr inTable)

theorem wal_publishFrozen {e e' : Engine} {m : Memtable} {idx token : ℕ}
    (done : e.publishFrozen m idx token = .ok e') : e'.files.wal = e.files.wal := by
  simp only [publishFrozen] at done
  split_ifs at done <;> cases done <;> rfl

end Engine

namespace Engine.WellFormed

variable {e : Engine}

omit [External] in
theorem max_add_lt {a b : ℕ} (ha : a + 1 < 2 ^ 64) (hb : b + 1 < 2 ^ 64) :
    max a b + 1 < 2 ^ 64 := by
  omega

variable {v : Version} {m : Memtable} {t u : TableHandle} {heapToken token : ℕ} {e' : Engine}
  {now : UInt64} {p : Path} (wf : e.WellFormed)

include wf

theorem seq_lt_globalSeq (stored : v ∈ e.roots.versions) : v.seq < e.globalSeq := by
  obtain ⟨m, hm, hv⟩ | ⟨t, ht, hv⟩ := mem_versions.mp stored
  · exact (wf.memtables m hm v hv).2
  · exact (wf.tables t ht v hv).1

theorem replaceTables {r : StorageRoots} {files : Files} (listed : r.Listed)
    (backs : files.Backs r) (log : files.wal = e.files.wal)
    (heap : r.manifest.heapPath = e.roots.manifest.heapPath)
    (tables : ∀ t ∈ r.tables, t.Holds ∧ ∀ v ∈ t.versions,
    v.seq < e.globalSeq ∧ v.seq ≤ r.manifest.maxSeq)
    (memtables : ∀ m ∈ r.memtables, m ∈ e.roots.memtables) (maxSeq : r.manifest.maxSeq + 1 <
    2 ^ 64) : ({ e with roots := r, files := files } : Engine).WellFormed where
  listed := listed
  backs := backs
  heapFile := wf.heapFile.trans heap.symm
  holds t ht := (tables t ht).1
  log := log ▸ wf.log
  memtables m hm := wf.memtables m (memtables m hm)
  tables t ht := (tables t ht).2
  maxSeq := maxSeq
  bound := wf.bound

theorem replaceMemtables (e' : Engine) {frozen : List Memtable}
    (roots : e'.roots = { e.roots with memtable := m, frozenMemtables := frozen })
    (backs : e'.files.Backs e.roots) (heapFile : e'.heapFile = e.heapFile)
    (grown : e.globalSeq ≤ e'.globalSeq) (bound : e'.globalSeq + 1 < 2 ^ 64)
    (log : ∃ batches : List LogBatch, (∀ b ∈ batches, b.KeysFit) ∧ e'.files.wal.data = frames
    batches ∧ ∀ b ∈ batches, ∀ r ∈ b.records, r.seq < e'.globalSeq)
    (memtables : ∀ m' ∈ m :: frozen, ∀ v ∈ m', v.Fits ∧ v.seq < e'.globalSeq) : e'.WellFormed where
  listed := roots ▸ wf.listed.withMemtables m frozen
  backs := roots ▸ backs.of_eq rfl rfl rfl rfl
  heapFile := by rw [heapFile, wf.heapFile, roots]
  holds := by
    rw [roots]
    exact wf.holds
  log := log
  memtables m' hm := by
    refine memtables m' ?_
    rw [roots, mem_memtables] at hm
    exact mem_cons.mpr hm
  tables := by
    rw [roots]
    intro t ht v hv
    obtain ⟨below, recorded⟩ := wf.tables t ht v hv
    exact ⟨below.trans_le grown, recorded⟩
  maxSeq := by
    rw [roots]
    exact wf.maxSeq
  bound := bound

theorem publish {r : StorageRoots} {removed : List Path} (free : ¬(e.files.files t.path).isSome)
    (listed : r.Listed) (tables : ∀ u ∈ r.tables, (u = t ∨ u ∈ e.roots.tables) ∧ u.path ∉ removed)
    (heap : r.manifest.heapPath = e.roots.manifest.heapPath ∧ e.roots.manifest.heapPath ∉ removed)
    (memtables : ∀ m ∈ r.memtables, m ∈ e.roots.memtables)
    (maxSeq : e.roots.manifest.maxSeq ≤ r.manifest.maxSeq ∧ r.manifest.maxSeq + 1 < 2 ^ 64)
    (holds : t.Holds) (versions : ∀ v ∈ t.versions, v.seq < e.globalSeq ∧
    v.seq ≤ r.manifest.maxSeq) : (e.publish t r removed).WellFormed := by
  refine wf.replaceTables listed (wf.backs.publish r t removed free listed.version tables heap) rfl
    heap.1 (fun u hu => ?_) memtables maxSeq.2
  obtain rfl | old := (tables u hu).1
  · exact ⟨holds, versions⟩
  · refine ⟨wf.holds u old, fun v hv => ?_⟩
    obtain ⟨below, recorded⟩ := wf.tables u old v hv
    exact ⟨below, recorded.trans maxSeq.1⟩

theorem committed {tx : WriteBatch} (keys : ∀ op ∈ tx.ops, op.1.length ≤ 65535)
    (room : e.globalSeq + (tx.opCount + 2) < 2 ^ 64) : (e.committed tx).WellFormed := by
  have globalSeq : (e.committed tx).globalSeq = _ := globalSeq_committed_of_lt (by omega)
  have numbered : ∀ r ∈ (e.nextBatch tx).records, r.seq < (e.committed tx).globalSeq := by
    intro r hr
    have := seq_of_mem_nextBatch (by omega) hr
    omega
  have short : (e.nextBatch tx).KeysFit := WriteBatch.keysFit_logBatch keys _ _
  have old : ∀ m ∈ e.roots.memtables, ∀ v ∈ m, v.Fits ∧ v.seq < (e.committed tx).globalSeq := by
    intro m hm v hv
    obtain ⟨fits, below⟩ := wf.memtables m hm v hv
    exact ⟨fits, by omega⟩
  refine wf.replaceMemtables _ (roots_committed e tx) ?_ (heapFile_committed e tx) (by omega)
    (by omega) ?_ ?_
  · rw [files_committed, wf.heapFile]
    exact wf.backs.writeHeap wf.listed _ _ _
  · obtain ⟨batches, fit, data, below⟩ := wf.log
    refine ⟨batches ++ [e.nextBatch tx], ?_, ?_, ?_⟩
    · exact forall_mem_append.mpr ⟨fit, forall_mem_singleton.mpr short⟩
    · rw [wal_committed, frames_append, frames_singleton, ← data]
      rfl
    · refine forall_mem_append.mpr ⟨fun b hb r hr => ?_, forall_mem_singleton.mpr numbered⟩
      exact (below b hb r hr).trans (by omega)
  · refine forall_mem_cons.mpr ⟨fun v hv => ?_, fun m frozen =>
      old m (mem_memtables.mpr (.inr frozen))⟩
    obtain before | ⟨r, hr, rfl⟩ := Memtable.mem_of_mem_insertAll hv
    · exact old _ (mem_memtables.mpr (.inl rfl)) v before
    · have logged := (mem_filter.mp hr).1
      have built := tx.wellBuilt_userRecords _ _ r logged
      have key : r.key.length < 2 ^ 16 := Nat.lt_succ_of_le (short r logged)
      exact ⟨⟨built.2.1, key, built.2.2.1, built.2.2.2⟩, numbered r logged⟩

/-- The marker of a commit takes the last sequence number. -/
theorem seq_lt_of_committed {tx : WriteBatch} (room : e.globalSeq + (tx.opCount + 1) < 2 ^ 64)
    (member : v ∈ (e.committed tx).roots.versions) : v.seq + 1 < (e.committed tx).globalSeq := by
  rw [globalSeq_committed_of_lt room]
  obtain stored | ⟨r, hr, rfl⟩ := mem_versions_committed member
  · have below := wf.seq_lt_globalSeq stored
    omega
  · have range := seq_of_mem_nextBatch (by omega) (mem_filter.mp hr).1
    show r.seq + 1 < _
    omega

theorem freeze : e.freeze.WellFormed := by
  refine wf.replaceMemtables e.freeze rfl (wf.backs.of_eq rfl rfl rfl rfl) rfl le_rfl wf.bound
    ⟨[], by simp, rfl, by simp⟩ ?_
  intro m hm v hv
  refine wf.memtables m (mem_memtables_of_freeze (mem_memtables.mpr (mem_cons.mp hm)) ?_) v hv
  rintro rfl
  exact Memtable.not_mem_empty v hv

theorem removeFrozenMemtable (idx : ℕ) : (e.removeFrozenMemtable idx).WellFormed := by
  refine wf.replaceMemtables (e.removeFrozenMemtable idx) rfl
    (wf.backs.of_eq rfl rfl rfl rfl) rfl le_rfl wf.bound wf.log ?_
  intro m hm v hv
  refine wf.memtables m (mem_memtables.mpr ?_) v hv
  exact (mem_cons.mp hm).imp_right mem_of_mem_eraseIdx

theorem writable_memtable (member : m ∈ e.roots.memtables)
    (size : tableSize m.versions < 2 ^ 64) : Writable m.versions where
  sorted := m.pairwise_versions
  fits v hv := (wf.memtables m member v hv).1
  size := size

omit [External] wf in
theorem mem_tables_rootsWithL0
    (member : u ∈ (e.rootsWithL0 t (e.flushManifest token)).tables) :
    u = t ∨ u ∈ e.roots.tables := by
  rw [mem_tables] at member ⊢
  obtain l0 | other := member
  · obtain old | new := mem_append.mp l0
    · exact .inr (.inl old)
    · exact .inl (mem_singleton.mp new)
  · exact .inr (.inr other)

theorem listed_rootsWithL0 (path : t.path = .l0 token) (nonempty : t.data ≠ []) :
    (e.rootsWithL0 t (e.flushManifest token)).Listed :=
  { wf.listed with
    l0 := by
      show (e.roots.sstables ++ [t]).map TableHandle.path = e.roots.manifest.sstables ++ [.l0 token]
      rw [map_append, wf.listed.l0, map_singleton, path]
    l0Kind := forall_mem_append.mpr ⟨wf.listed.l0Kind, forall_mem_singleton.mpr (by rw [path]; rfl)⟩
    nonempty := by
      intro u hu
      obtain rfl | old := mem_tables_rootsWithL0 hu
      · exact nonempty
      · exact wf.listed.nonempty u old }

theorem publishL0 (path : t.path = .l0 token)
    (free : ¬(e.files.files t.path).isSome) (nonempty : t.data ≠ []) (holds : t.Holds)
    (versions : ∀ v ∈ t.versions, v.seq < e.globalSeq) :
    (((e.writeTable t).saveManifest (e.flushManifest token)).pushL0 t (e.flushManifest
      token)).WellFormed := by
  refine wf.publish free (wf.listed_rootsWithL0 path nonempty)
    (fun u hu => ⟨mem_tables_rootsWithL0 hu, not_mem_nil⟩) ⟨rfl, not_mem_nil⟩ (fun m hm => hm)
    ⟨le_max_left _ _, max_add_lt wf.maxSeq wf.bound⟩ holds (fun v hv => ?_)
  exact ⟨versions v hv, (versions v hv).le.trans (le_max_right _ _)⟩

section

variable {idx : ℕ} (member : m ∈ e.roots.memtables) (size : tableSize m.versions < 2 ^ 64)
  (done : e.publishFrozen m idx token = .ok e')

include member size done

theorem publishFrozen : e'.WellFormed := by
  simp only [Engine.publishFrozen] at done
  split_ifs at done with empty taken
  · exact Except.ok.inj done ▸ wf.removeFrozenMemtable idx
  · cases done
    have writable := wf.writable_memtable member size
    refine (wf.publishL0 rfl taken (encodeTable_ne_nil _) (writable.holds_newTable _)
      fun v hv => ?_).removeFrozenMemtable idx
    rw [flushRecords, writable.versions_newTable] at hv
    exact (wf.memtables m member v hv).2

/-- A flush adds no version. -/
theorem mem_versions_of_publishFrozen (hv : v ∈ e'.roots.versions) : v ∈ e.roots.versions := by
  rw [mem_versions] at hv ⊢
  have memtables : ∀ {r : StorageRoots} {m : Memtable}, m ∈ r.memtables →
      r.memtable = e.roots.memtable → r.frozenMemtables = e.roots.frozenMemtables.eraseIdx idx →
      m ∈ e.roots.memtables := by
    intro r m hm active frozen
    rw [mem_memtables, active, frozen] at hm
    exact mem_memtables.mpr (hm.imp_right mem_of_mem_eraseIdx)
  simp only [Engine.publishFrozen] at done
  split_ifs at done with empty taken
  · rw [← Except.ok.inj done] at hv
    exact hv.imp_left fun ⟨m, hm, inMem⟩ => ⟨m, memtables hm rfl rfl, inMem⟩
  · rw [← Except.ok.inj done] at hv
    obtain ⟨m, hm, inMem⟩ | ⟨t, ht, inTable⟩ := hv
    · exact .inl ⟨m, memtables hm rfl rfl, inMem⟩
    · obtain rfl | old := mem_tables_rootsWithL0 ht
      · rw [flushRecords, (wf.writable_memtable member size).versions_newTable] at inTable
        exact .inl ⟨m, member, inTable⟩
      · exact .inr ⟨t, old, inTable⟩

end

/-- What a compaction of L0 keeps comes from an L0 table. -/
theorem mem_retained_l0Merged {floor : Option ℕ}
    (member : v ∈ e.l0Merged.retained floor) : ∃ t ∈ e.roots.sstables, v ∈ t.versions := by
  have merged := mem_of_mem_ofVersions (mem_retained.mp member).mem
  obtain ⟨t, ht, hv⟩ := mem_flatMap.mp merged
  exact ⟨t, ht, (wf.holds t (mem_tables.mpr (.inl ht))).mem_versions hv⟩

theorem mem_baseVersions_l1Merged (member : v ∈ e.baseVersions e.l1Merged now) :
    (∃ t ∈ e.roots.l1Sstables, v ∈ t.versions) ∨ v ∈ e.roots.baseTable.versions := by
  have kept := (mem_filter.mp member).1
  obtain base | l1 := mem_append.mp (mem_of_mem_ofVersions (mem_retained.mp kept).mem)
  · exact .inr ((wf.holds _ (mem_tables.mpr (.inr (.inr rfl)))).mem_versions base)
  · obtain ⟨t, ht, hv⟩ := mem_flatMap.mp l1
    exact .inl ⟨t, ht, (wf.holds t (mem_tables.mpr (.inr (.inl ht)))).mem_versions hv⟩

theorem fits_of_mem_versions (ht : t ∈ e.roots.tables) (hv : v ∈ t.versions) : v.Fits := by
  obtain ⟨r, hr, rfl⟩ := TableHandle.mem_versions.mp hv
  have fits := (wf.holds t ht).file.table.fits r hr
  exact ⟨fits.seq, fits.key, fits.offset, fits.length⟩

theorem writable_l0 {floor : Option ℕ}
    (size : tableSize (e.l0Merged.retained floor) < 2 ^ 64) :
    Writable (e.l0Merged.retained floor) where
  sorted := pairwise_retained _ _
  fits v hv := by
    obtain ⟨t, ht, inTable⟩ := wf.mem_retained_l0Merged hv
    exact wf.fits_of_mem_versions (mem_tables.mpr (.inl ht)) inTable
  size := size

theorem writable_l1 (size : tableSize (e.baseVersions e.l1Merged now) < 2 ^ 64) :
    Writable (e.baseVersions e.l1Merged now) where
  sorted := (pairwise_retained _ _).filter _
  fits v hv := by
    obtain ⟨t, ht, inTable⟩ | base := wf.mem_baseVersions_l1Merged hv
    · exact wf.fits_of_mem_versions (mem_tables.mpr (.inr (.inl ht))) inTable
    · exact wf.fits_of_mem_versions (mem_tables.mpr (.inr (.inr rfl))) base
  size := size

theorem not_mem_l0Paths (kind : p.kind ≠ .l0) : p ∉ e.roots.sstables.map path := by
  intro member
  obtain ⟨t, ht, rfl⟩ := mem_map.mp member
  exact kind (wf.listed.l0Kind t ht)

theorem not_mem_l1Paths (kind : p.kind ≠ .l1) : p ∉ e.roots.l1Sstables.map path := by
  intro member
  obtain ⟨t, ht, rfl⟩ := mem_map.mp member
  exact kind (wf.listed.l1Kind t ht)

theorem mem_tables_rootsWithoutL0
    (member : u ∈ e.rootsWithoutL0.tables) : u ∈ e.roots.tables ∧ u.path.kind ≠ .l0 := by
  obtain l0 | l1 | base := mem_tables.mp member
  · exact absurd l0 not_mem_nil
  · exact ⟨mem_tables.mpr (.inr (.inl l1)), by simp [wf.listed.l1Kind u l1]⟩
  · have kind : u.path.kind = .base := (congrArg (·.path.kind) base).trans wf.listed.baseKind
    exact ⟨mem_tables.mpr (.inr (.inr base)), by simp [kind]⟩

theorem heapPath_not_mem_l0Paths :
    e.roots.manifest.heapPath ∉ e.roots.sstables.map path :=
  wf.not_mem_l0Paths (by simp [wf.listed.heapKind])

theorem listed_rootsWithoutL0 : e.rootsWithoutL0.Listed :=
  { wf.listed with
    l0 := rfl
    l0Kind := nofun
    nonempty := fun u hu => wf.listed.nonempty u (wf.mem_tables_rootsWithoutL0 hu).1 }

theorem dropL0 :
    (((e.saveManifest e.rootsWithoutL0.manifest).updateRoots fun _ => e.rootsWithoutL0).removeFiles
      (e.roots.sstables.map path)).WellFormed := by
  have backs : ((e.files.renameManifest e.rootsWithoutL0.manifest).syncDir.remove
      (e.roots.sstables.map path)).Backs e.rootsWithoutL0 := by
    refine Files.Backs.rename wf.listed.version (fun u hu => ?_) ⟨wf.backs.heap,
      wf.heapPath_not_mem_l0Paths⟩
    obtain ⟨old, kind⟩ := wf.mem_tables_rootsWithoutL0 hu
    exact ⟨wf.backs.keeps u old, wf.not_mem_l0Paths kind⟩
  refine wf.replaceTables wf.listed_rootsWithoutL0 backs rfl rfl (fun u hu => ?_)
    (fun m hm => hm) wf.maxSeq
  have old := (wf.mem_tables_rootsWithoutL0 hu).1
  exact ⟨wf.holds u old, wf.tables u old⟩

variable (kind : t.path.kind = .l1)

include kind

theorem mem_tables_rootsWithL1
    (member : u ∈ (e.rootsWithL1 t).tables) : (u = t ∨ u ∈ e.roots.tables) ∧ u.path.kind ≠ .l0 := by
  have origin : u = t ∨ u ∈ e.rootsWithoutL0.tables := by
    rw [mem_tables]
    obtain l0 | l1 | base := mem_tables.mp member
    · exact absurd l0 not_mem_nil
    · obtain old | new := mem_append.mp l1
      · exact .inr (.inr (.inl old))
      · exact .inl (mem_singleton.mp new)
    · exact .inr (.inr (.inr base))
  obtain rfl | old := origin
  · exact ⟨.inl rfl, by simp [kind]⟩
  · exact (wf.mem_tables_rootsWithoutL0 old).imp_left .inr

theorem listed_rootsWithL1 (nonempty : t.data ≠ []) : (e.rootsWithL1 t).Listed :=
  { wf.listed with
    l0 := rfl
    l1 := by
      show (e.roots.l1Sstables ++ [t]).map path = e.roots.manifest.l1Sstables ++
        [t.path]
      rw [map_append, wf.listed.l1, map_singleton]
    l0Kind := nofun
    l1Kind := forall_mem_append.mpr ⟨wf.listed.l1Kind, forall_mem_singleton.mpr kind⟩
    nonempty := by
      intro u hu
      obtain rfl | old := (wf.mem_tables_rootsWithL1 kind hu).1
      · exact nonempty
      · exact wf.listed.nonempty u old }

theorem publishL1 (free : ¬(e.files.files t.path).isSome) (nonempty : t.data ≠ []) (holds : t.Holds)
    (versions : ∀ v ∈ t.versions, v.seq < e.globalSeq) :
    (e.publish t (e.rootsWithL1 t) (e.roots.sstables.map path)).WellFormed := by
  refine wf.publish free (wf.listed_rootsWithL1 kind nonempty) (fun u hu => ?_)
    ⟨rfl, wf.heapPath_not_mem_l0Paths⟩ (fun m hm => hm) ⟨le_max_left _ _, max_add_lt wf.maxSeq
    wf.bound⟩ holds (fun v hv => ?_)
  · obtain ⟨origin, kind⟩ := wf.mem_tables_rootsWithL1 kind hu
    exact ⟨origin, wf.not_mem_l0Paths kind⟩
  · exact ⟨versions v hv, (versions v hv).le.trans (le_max_right _ _)⟩

omit kind

theorem compactL0ToL1 (size : tableSize (e.l0Merged.retained e.compactionRetentionFloor) < 2 ^ 64)
    (done : e.compactL0ToL1 token = .ok e') : e'.WellFormed := by
  simp only [Engine.compactL0ToL1] at done
  split_ifs at done with none empty taken
  · exact Except.ok.inj done ▸ wf
  · exact Except.ok.inj done ▸ wf.dropL0
  · cases done
    have writable := wf.writable_l0 size
    refine wf.publishL1 rfl taken (encodeTable_ne_nil _) (writable.holds_newTable _) fun v hv => ?_
    rw [writable.versions_newTable] at hv
    obtain ⟨t, ht, inTable⟩ := wf.mem_retained_l0Merged hv
    exact (wf.tables t (mem_tables.mpr (.inl ht)) v inTable).1

omit [External] wf in
theorem mem_tables_rootsWithBase (member : u ∈ (e.rootsWithBase t).tables) :
    u = t ∨ u ∈ e.roots.sstables := by
  obtain l0 | rest := mem_tables.mp member
  · exact .inr l0
  · exact .inl (rest.resolve_left not_mem_nil)

theorem listed_rootsWithBase (kind : t.path.kind = .base) (nonempty : t.data ≠ []) :
    (e.rootsWithBase t).Listed :=
  { wf.listed with
    l1 := rfl
    l1Kind := nofun
    baseKind := kind
    nonempty := by
      intro u hu
      obtain rfl | old := mem_tables_rootsWithBase hu
      · exact nonempty
      · exact wf.listed.nonempty u (mem_tables.mpr (.inl old)) }

theorem not_mem_basePaths (other : p ≠ e.roots.manifest.basePath) (kind : p.kind ≠ .l1) :
    p ∉ e.roots.manifest.basePath :: e.roots.l1Sstables.map path := by
  rw [mem_cons, not_or]
  exact ⟨other, wf.not_mem_l1Paths kind⟩

theorem ne_basePath (kind : p.kind ≠ .base) : p ≠ e.roots.manifest.basePath := by
  rintro rfl
  exact kind wf.listed.baseKind

theorem heapPath_not_mem_basePaths : e.roots.manifest.heapPath ∉
      e.roots.manifest.basePath :: e.roots.l1Sstables.map path := by
  apply wf.not_mem_basePaths (wf.ne_basePath ?_)
  all_goals simp [wf.listed.heapKind]

theorem publishBase (kind : t.path.kind = .base)
    (free : ¬(e.files.files t.path).isSome) (nonempty : t.data ≠ []) (holds : t.Holds)
    (versions : ∀ v ∈ t.versions, v.seq < e.globalSeq ∧ v.seq ≤ e.roots.manifest.maxSeq) :
    (e.publish t (e.rootsWithBase t)
      (e.roots.manifest.basePath :: e.roots.l1Sstables.map path)).WellFormed := by
  have base : e.roots.baseTable ∈ e.roots.tables := mem_tables.mpr (.inr (.inr rfl))
  have fresh : e.roots.manifest.basePath ≠ t.path := (wf.backs.keeps _ base).path_ne free
  refine wf.publish free (wf.listed_rootsWithBase kind nonempty) (fun u hu => ?_)
    ⟨rfl, wf.heapPath_not_mem_basePaths⟩ (fun m hm => hm) ⟨le_rfl, wf.maxSeq⟩ holds versions
  obtain rfl | l0 := mem_tables_rootsWithBase hu
  · exact ⟨.inl rfl, wf.not_mem_basePaths fresh.symm (by simp [kind])⟩
  · refine ⟨.inr (mem_tables.mpr (.inl l0)), wf.not_mem_basePaths (wf.ne_basePath ?_) ?_⟩
    all_goals simp [wf.listed.l0Kind u l0]

theorem compactL1ToL2 (size : tableSize (e.baseVersions e.l1Merged now) < 2 ^ 64)
    (done : e.compactL1ToL2 token now = .ok e') : e'.WellFormed := by
  simp only [Engine.compactL1ToL2] at done
  split_ifs at done with none taken
  · exact Except.ok.inj done ▸ wf
  · cases done
    have writable := wf.writable_l1 size
    refine wf.publishBase rfl taken (encodeTable_ne_nil _) (writable.holds_newTable _)
      fun v hv => ?_
    rw [writable.versions_newTable] at hv
    obtain ⟨t, ht, inTable⟩ | base := wf.mem_baseVersions_l1Merged hv
    · exact wf.tables t (mem_tables.mpr (.inr (.inl ht))) v inTable
    · exact wf.tables _ (mem_tables.mpr (.inr (.inr rfl))) v base

omit [External] wf in
theorem mem_tables_gcRoots (member : u ∈ (e.gcRoots heapToken t).tables) : u = t :=
  ((mem_tables.mp member).resolve_left not_mem_nil).resolve_left not_mem_nil

theorem listed_gcRoots (kind : t.path.kind = .base) (nonempty : t.data ≠ []) :
    (e.gcRoots heapToken t).Listed where
  l0 := rfl
  l1 := rfl
  l0Kind := nofun
  l1Kind := nofun
  baseKind := kind
  heapKind := rfl
  heapReader := rfl
  version := wf.listed.version
  nonempty _ hu := mem_tables_gcRoots hu ▸ nonempty

/-- Every file that garbage collection removes is there. -/
theorem isSome_of_mem_gcOldPaths (member : p ∈ e.gcOldPaths) : (e.files.files p).isSome := by
  have table : ∀ t ∈ e.roots.tables, (e.files.files t.path).isSome := by
    intro t ht
    rw [(wf.backs.keeps t ht).file]
    rfl
  rw [gcOldPaths, ← wf.listed.l0, ← wf.listed.l1, mem_cons, mem_cons, mem_append, mem_map, mem_map]
    at member
  obtain rfl | rfl | ⟨t, ht, rfl⟩ | ⟨t, ht, rfl⟩ := member
  · exact wf.backs.heap
  · exact table e.roots.baseTable (mem_tables.mpr (.inr (.inr rfl)))
  · exact table t (mem_tables.mpr (.inl ht))
  · exact table t (mem_tables.mpr (.inr (.inl ht)))

omit [External] wf in
/-- The directory once the new heap and the new base are there, before the manifest. -/
theorem keeps_gc (f : Files) (heap : Bytes) (kind : t.path.kind = .base) :
    (f.runSteps (e.gcSteps heapToken t heap) 5).Keeps t ∧
      (f.runSteps (e.gcSteps heapToken t heap) 5).files (.compactedHeap heapToken) =
      some ⟨heap, heap⟩ := by
  have other : Path.compactedHeap heapToken ≠ t.path := by
    rintro same
    rw [← same] at kind
    cases kind
  simp only [runSteps, gcSteps, List.take, List.foldl]
  refine ⟨⟨?_, ?_⟩, ?_⟩
  · simp [saveBloom, sync, create, other.symm]
  · simp [saveBloom]
  · simp [saveBloom, sync, create, other]

section

variable (heap : Bytes) (based : t.path.kind = .base) (nonempty : t.data ≠ [])
  (freeHeap : ¬(e.files.files (.compactedHeap heapToken)).isSome)
  (freeBase : ¬(e.files.files t.path).isSome)

include based nonempty freeHeap freeBase

theorem backs_gc : (e.collected heapToken t heap).files.Backs (e.gcRoots heapToken t) := by
  obtain ⟨keeps, heapFile⟩ := keeps_gc e.files heap based
  have backs : (((e.files.runSteps (e.gcSteps heapToken t heap) 5).renameManifest
      (e.gcRoots heapToken t).manifest).syncDir.remove e.gcOldPaths).Backs
      (e.gcRoots heapToken t) := by
    refine Files.Backs.rename (wf.listed_gcRoots based nonempty).version (fun u hu => ?_) ⟨?_, ?_⟩
    · rw [mem_tables_gcRoots hu]
      exact ⟨keeps, fun member => freeBase (wf.isSome_of_mem_gcOldPaths member)⟩
    · rw [show (e.gcRoots heapToken t).manifest.heapPath = .compactedHeap heapToken from rfl,
        heapFile]
      rfl
    · exact fun member => freeHeap (wf.isSome_of_mem_gcOldPaths member)
  exact ⟨fun u hu => (backs.keeps u hu).of_eq rfl rfl, backs.manifest, backs.durable, backs.heap⟩

/-- Garbage collection empties the log, so all it merged must be below the manifest's
counter. -/
theorem collected (holds : t.Holds)
    (versions : ∀ v ∈ t.versions, v.seq < e.globalSeq ∧ v.seq ≤ e.roots.manifest.maxSeq) :
    (e.collected heapToken t heap).WellFormed where
  listed := wf.listed_gcRoots based nonempty
  backs := wf.backs_gc heap based nonempty freeHeap freeBase
  heapFile := rfl
  holds u hu := mem_tables_gcRoots hu ▸ holds
  log := ⟨[], by simp, rfl, by simp⟩
  memtables := wf.memtables
  tables u hu := by
    obtain rfl := mem_tables_gcRoots hu
    exact versions
  maxSeq := wf.maxSeq
  bound := wf.bound

end

theorem mem_gcMerged (member : v ∈ e.gcMerged) : (∃ t ∈ e.roots.tables, v ∈ t.versions) ∨
    v ∈ e.roots.memtable := by
  have merged := mem_of_mem_ofVersions member
  simp only [mem_append, mem_flatMap] at merged
  have stored {t : TableHandle} (ht : t ∈ e.roots.tables) (hv : v ∈ tableVersions t.data) :
      (∃ t ∈ e.roots.tables, v ∈ t.versions) ∨ v ∈ e.roots.memtable :=
    .inl ⟨t, ht, (wf.holds t ht).mem_versions hv⟩
  obtain ((base | ⟨t, ht, hv⟩) | ⟨t, ht, hv⟩) | active := merged
  · exact stored (mem_tables.mpr (.inr (.inr rfl))) base
  · exact stored (mem_tables.mpr (.inl ht)) hv
  · exact stored (mem_tables.mpr (.inr (.inl ht))) hv
  · exact .inr active

theorem mem_baseVersions_gcMerged (member : v ∈ e.baseVersions e.gcMerged now) :
    (∃ t ∈ e.roots.tables, v ∈ t.versions) ∨ v ∈ e.roots.memtable :=
  wf.mem_gcMerged (mem_retained.mp (mem_filter.mp member).1).mem

theorem writable_relocate (size : tableSize (e.baseVersions e.gcMerged now) < 2 ^ 64) :
    Writable (relocate 0 (e.baseVersions e.gcMerged now)) := by
  have keys := key_relocate 0 (e.baseVersions e.gcMerged now)
  refine ⟨?_, fun w hw => ?_, ?_⟩
  · have sorted : (e.baseVersions e.gcMerged now).Pairwise fun v w => v.key ≤ w.key :=
      (pairwise_retained _ _).filter _
    rw [← pairwise_map] at sorted ⊢
    rwa [keys]
  · obtain ⟨v, hv, moved⟩ := exists_of_mem_right (moved_relocate (Nat.two_pow_pos 64) _) hw
    have fits : v.Fits := by
      obtain ⟨t, ht, inTable⟩ | active := wf.mem_baseVersions_gcMerged hv
      · exact wf.fits_of_mem_versions ht inTable
      · exact (wf.memtables _ (mem_memtables.mpr (.inl rfl)) v active).1
    exact ⟨moved.seq ▸ fits.seq, moved.key ▸ fits.key, moved.bound, moved.length ▸ fits.length⟩
  · have size_eq (vs : List Version) : tableSize vs = ((vs.map key).map fun key =>
        42 + key.length).sum := by
      rw [map_map]
      rfl
    rwa [size_eq, keys, ← size_eq]

theorem runGarbageCollection {baseToken : ℕ}
    (size : tableSize (e.baseVersions e.gcMerged now) < 2 ^ 64)
    (recorded : ∀ v ∈ e.roots.memtable, v.seq ≤ e.roots.manifest.maxSeq)
    (done : e.runGarbageCollection heapToken baseToken now = .ok e') : e'.WellFormed := by
  obtain ⟨freeHeap, freeBase, payloads, -, rfl⟩ := Engine.runGarbageCollection_eq_ok done
  have writable := wf.writable_relocate size
  refine wf.collected _ rfl (encodeTable_ne_nil _) freeHeap freeBase
    (TableHandle.holds_encodeTable writable.tableRecords _ _) fun w hw => ?_
  rw [gcTable, writable.versions_eq] at hw
  obtain ⟨v, hv, moved⟩ := exists_of_mem_right (moved_relocate (Nat.two_pow_pos 64) _) hw
  rw [moved.seq]
  obtain ⟨t, ht, inTable⟩ | active := wf.mem_baseVersions_gcMerged hv
  · exact wf.tables t ht v inTable
  · exact ⟨(wf.memtables _ (mem_memtables.mpr (.inl rfl)) v active).2, recorded v active⟩

end Engine.WellFormed

section Maximum

omit [External]

theorem le_foldl_max (init : ℕ) (seqs : List ℕ) : init ≤ seqs.foldl max init := by
  induction seqs generalizing init with
  | nil => exact le_rfl
  | cons seq seqs ih => exact (le_max_left init seq).trans (ih _)

theorem le_foldl_max_of_mem (init : ℕ) {seqs : List ℕ} {seq : ℕ} (member : seq ∈ seqs) :
    seq ≤ seqs.foldl max init := by
  induction seqs generalizing init with
  | nil => cases member
  | cons first seqs ih =>
    obtain rfl | later := mem_cons.mp member
    · exact (le_max_right init seq).trans (le_foldl_max _ seqs)
    · exact ih _ later

theorem foldl_max_le {init bound : ℕ} {seqs : List ℕ} (start : init ≤ bound)
    (each : ∀ seq ∈ seqs, seq ≤ bound) : seqs.foldl max init ≤ bound := by
  induction seqs generalizing init with
  | nil => exact start
  | cons seq seqs ih =>
    exact ih (max_le start (each seq (.head _))) fun s hs => each s (.tail _ hs)

end Maximum

theorem Disk.Stores.backs {d : Disk} {r : StorageRoots} (stores : d.Stores r) (listed : r.Listed)
    (m : Memtable) :
    (recoverFrom d r.manifest).files.Backs { r with memtable := m, frozenMemtables := [] } where
  keeps t ht := by
    have other := listed.path_ne_heap ht
    refine ⟨?_, ?_⟩
    · rw [stores.files_recoverFrom]
      simp only [Function.update_of_ne other, stores.file t ht, Option.map_some]
    · rw [stores.blooms_recoverFrom]
      exact stores.bloom t ht
  manifest := rfl
  durable := rfl
  heap := by
    rw [stores.files_recoverFrom]
    simp

theorem wellFormed_ofRecovered {d : Disk} {r : StorageRoots} {batches : List LogBatch} {bound : ℕ}
    (stores : d.Stores r) (listed : r.Listed) (holds : ∀ t ∈ r.tables, t.Holds)
    (short : ∀ b ∈ batches, b.KeysFit) (log : d.wal = frames batches)
    (tables : ∀ t ∈ r.tables, ∀ v ∈ t.versions, v.seq ≤ r.manifest.maxSeq)
    (manifestBound : r.manifest.maxSeq ≤ bound)
    (logBound : ∀ b ∈ batches, ∀ x ∈ b.records, x.seq ≤ bound) (room : bound + 2 < 2 ^ 64) :
    (Engine.ofRecovered (recoverFrom d r.manifest)).WellFormed := by
  have replayed : replay d.wal = batches.flatMap records := by
    rw [log, replay_logBatches short]
  have maxSeq : (recoverFrom d r.manifest).maxSeq =
      ((batches.flatMap records).map OmniRecord.seq).foldl max r.manifest.maxSeq := by
    rw [← replayed]
    rfl
  have upper : (recoverFrom d r.manifest).maxSeq ≤ bound := by
    rw [maxSeq]
    apply foldl_max_le manifestBound
    intro seq hseq
    obtain ⟨x, hx, rfl⟩ := mem_map.mp hseq
    obtain ⟨b, hb, inBatch⟩ := mem_flatMap.mp hx
    exact logBound b hb x inBatch
  have lower : r.manifest.maxSeq ≤ (recoverFrom d r.manifest).maxSeq := maxSeq ▸ le_foldl_max _ _
  have logged : ∀ x ∈ batches.flatMap records, x.seq ≤ (recoverFrom d r.manifest).maxSeq := by
    intro x hx
    rw [maxSeq]
    exact le_foldl_max_of_mem _ (mem_map_of_mem hx)
  have globalSeq : (Engine.ofRecovered (recoverFrom d r.manifest)).globalSeq =
      (recoverFrom d r.manifest).maxSeq + 1 := wrap64_of_lt (by omega)
  have roots : (Engine.ofRecovered (recoverFrom d r.manifest)).roots = { r with
      memtable := Memtable.empty.insertAll (batches.flatMap records)
      frozenMemtables := [] } := by
    show (recoverFrom d r.manifest).roots = _
    rw [stores.roots_recoverFrom, replayed, ← listed.heapReader]
  refine ⟨?_, ?_, ?_, ?_, ⟨batches, short, log, ?_⟩, ?_, ?_, ?_, ?_⟩
  · rw [roots]
    exact listed.withMemtables _ _
  · rw [roots]
    exact stores.backs listed _
  · rfl
  · rw [roots]
    exact holds
  · intro b hb x hx
    rw [globalSeq]
    exact Nat.lt_succ_of_le (logged x (mem_flatMap.mpr ⟨b, hb, hx⟩))
  · rw [roots]
    intro m hm v hv
    obtain rfl := (mem_memtables.mp hm).resolve_right not_mem_nil
    obtain ⟨x, hx, rfl⟩ := (Memtable.mem_of_mem_insertAll hv).resolve_left (Memtable.not_mem_empty
      v)
    obtain ⟨b, hb, inBatch⟩ := mem_flatMap.mp hx
    have words := b.words x (mem_append_left _ inBatch)
    have key : x.key.length < 2 ^ 16 := Nat.lt_succ_of_le (short b hb x inBatch)
    refine ⟨⟨words.1, key, words.2.1, words.2.2⟩, ?_⟩
    rw [globalSeq]
    exact Nat.lt_succ_of_le (logged x hx)
  · rw [roots, globalSeq]
    intro t ht v hv
    have recorded := tables t ht v hv
    exact ⟨Nat.lt_succ_of_le (recorded.trans lower), recorded⟩
  · show r.manifest.maxSeq + 1 < 2 ^ 64
    omega
  · omega

namespace Engine

theorem sound_of_mem_tables_initial {t : TableHandle}
    (member : t ∈ (ofRecovered (recoverFrom .empty .initial)).roots.tables) :
    t = (ofRecovered (recoverFrom .empty .initial)).roots.baseTable ∧ t.Sound ∧
      t.versions = [] := by
  obtain rfl := ((mem_tables.mp member).resolve_left not_mem_nil).resolve_left not_mem_nil
  refine ⟨rfl, TableHandle.sound_emptyPage _ _, ?_⟩
  show (TableHandle.records ⟨SSTableReader.emptyPage, _, _⟩).map OmniRecord.version = []
  rw [TableHandle.records_emptyPage]
  rfl

theorem wellFormed_initial : (ofRecovered (recoverFrom .empty .initial)).WellFormed := by
  refine ⟨⟨rfl, rfl, nofun, nofun, rfl, rfl, rfl, rfl, ?_⟩,
    ⟨?_, rfl, rfl, rfl⟩, rfl, fun t ht => (sound_of_mem_tables_initial ht).2.1.toHolds,
    ⟨[], by simp, rfl, by simp⟩, ?_, ?_, ?_, ?_⟩
  · intro t ht
    rw [(sound_of_mem_tables_initial ht).1]
    exact SSTableReader.emptyPage_ne_nil
  · intro t ht
    rw [(sound_of_mem_tables_initial ht).1]
    constructor <;> rfl
  · intro m hm v hv
    obtain rfl := (mem_memtables.mp hm).resolve_right not_mem_nil
    exact absurd hv (Memtable.not_mem_empty v)
  · intro t ht v hv
    rw [(sound_of_mem_tables_initial ht).2.2] at hv
    cases hv
  · show 0 + 1 < 2 ^ 64
    decide
  · show wrap64 (0 + 1) + 1 < 2 ^ 64
    decide

theorem wellFormed_of_openDb_empty {e : Engine} (opened : openDb .empty = .ok e) : e.WellFormed :=
  Except.ok.inj opened ▸ wellFormed_initial

/-- A clean close and reopening. -/
theorem WellFormed.reopen {e e' : Engine} (wf : e.WellFormed)
    (room : max e.globalSeq e.roots.manifest.maxSeq + 2 < 2 ^ 64) (done : e.reopen = .ok e') :
    e'.WellFormed := by
  have known : e.files.manifest.formatVersion ≤ manifestFormatVersion := by
    rw [wf.backs.manifest, wf.listed.version]
  rw [reopen_eq_ok known, wf.backs.manifest] at done
  obtain ⟨batches, short, log, below⟩ := wf.log
  cases done
  exact wellFormed_ofRecovered (wf.backs.stores wf.listed e.survives_close) wf.listed wf.holds short
    log (fun t ht v hv => (wf.tables t ht v hv).2) (le_max_right _ _)
    (fun b hb x hx => (below b hb x hx).le.trans (le_max_left _ _)) room

end Engine

end

end OmniKV
