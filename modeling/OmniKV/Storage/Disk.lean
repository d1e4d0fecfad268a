import OmniKV.Storage.Recovery
import OmniKV.Storage.Tiers

/-!
# Files after a crash

A crash leaves the manifest from before or after the last rename. Of a file it leaves the bytes that
were fsynced and not overwritten since.

When the tables that the roots name are on disk as they were mapped, opening the directory again
gives the same tables.
-/

namespace OmniKV

open StorageRoots

/-- What a crash may leave of a file. A file that was never fsynced may be missing. -/
def StoredFile.Survives (file : StoredFile) : Option Bytes → Prop
  | none => file.synced = []
  | some data => data.length ≤ max file.synced.length file.data.length ∧
      ∀ (i : ℕ) (x : UInt8), file.synced[i]? = some x → file.data[i]? = some x → data[i]? = some x

/-- What a crash may leave of a directory. Files that were removed may still be there. -/
structure Files.Survives (f : Files) (d : Disk) : Prop where
  manifest : d.manifest = some f.manifest ∨ d.manifest = some f.durableManifest
  wal : f.wal.Survives d.wal
  files : ∀ p file, f.files p = some file → file.Survives (d.files p)
  blooms : ∀ p bloom, f.blooms p = some bloom → d.blooms p = some bloom

variable {file : StoredFile}

theorem StoredFile.Survives.eq_data {left : Option Bytes}
    (survives : file.Survives left) (synced : file.synced = file.data) :
    left.getD [] = file.data := by
  cases left with
  | none => exact (synced.symm.trans survives).symm
  | some data =>
    obtain ⟨length, bytes⟩ := survives
    rw [synced] at length
    apply List.ext_getElem?
    intro i
    show data[i]? = file.data[i]?
    cases found : file.data[i]? with
    | none =>
      rw [List.getElem?_eq_none_iff] at found ⊢
      omega
    | some x => exact bytes i x (synced ▸ found) found

theorem StoredFile.Survives.eq_some {left : Option Bytes}
    (survives : file.Survives left) (synced : file.synced = file.data) (nonempty : file.data ≠ []) :
    left = some file.data := by
  have same := survives.eq_data synced
  cases left with
  | none => exact absurd same.symm nonempty
  | some data => exact congrArg some same

theorem Files.survives_written {f : Files} {p : Path} (found : f.files p = some file) :
    file.Survives ((f.files p).map StoredFile.data) := by
  rw [found]
  exact ⟨le_max_right _ _, fun _ _ _ here => here⟩

/-- A clean close leaves everything. -/
theorem Engine.survives_close (e : Engine) : e.files.Survives e.close where
  manifest := .inl rfl
  wal := .inl ⟨List.prefix_rfl, id⟩
  files _ _ found := Files.survives_written found
  blooms _ _ found := found

/-- A table and its filter are on disk, fsynced. -/
structure Files.Keeps (f : Files) (t : TableHandle) : Prop where
  file : f.files t.path = some ⟨t.data, t.data⟩
  bloom : f.blooms t.path = some t.bloom

namespace Files.Keeps

variable {f f' : Files} {t : TableHandle} {p : Path} (keeps : f.Keeps t)

include keeps

theorem of_eq (files : f'.files = f.files) (blooms : f'.blooms = f.blooms) :
    f'.Keeps t := ⟨by rw [files, keeps.file], by rw [blooms, keeps.bloom]⟩

theorem write (other : t.path ≠ p) (off : ℕ) (data : Bytes) : (f.write p off data).Keeps t :=
  ⟨by simp [Files.write, other, keeps.file], keeps.bloom⟩

theorem sync (p : Path) : (f.sync p).Keeps t := by
  refine ⟨?_, keeps.bloom⟩
  by_cases same : t.path = p
  · subst same
    simp [Files.sync, keeps.file]
  · simp [Files.sync, same, keeps.file]

theorem create (other : t.path ≠ p) (data : Bytes) : (f.create p data).Keeps t :=
  ⟨by simp [Files.create, other, keeps.file], keeps.bloom⟩

theorem saveBloom (other : t.path ≠ p) (bloom : BloomFilter) : (f.saveBloom p bloom).Keeps t :=
  ⟨keeps.file, by simp [Files.saveBloom, other, keeps.bloom]⟩

theorem remove {paths : List Path} (other : t.path ∉ paths) : (f.remove paths).Keeps t :=
  ⟨by simp [Files.remove, other, keeps.file], by simp [Files.remove, other, keeps.bloom]⟩

/-- A table that exists is not where a new file is created. -/
theorem path_ne (free : ¬(f.files p).isSome) : t.path ≠ p := by
  rintro rfl
  exact free (by rw [keeps.file]; rfl)

end Files.Keeps

/-- A new table, written, fsynced and with its filter. -/
theorem Files.keeps_new (f : Files) (t : TableHandle) :
    (((f.create t.path t.data).sync t.path).saveBloom t.path t.bloom).Keeps t :=
  ⟨by simp [Files.create, Files.sync, Files.saveBloom], by simp [Files.saveBloom]⟩

structure Disk.Stores (d : Disk) (r : StorageRoots) : Prop where
  l0 : r.sstables.map TableHandle.path = r.manifest.sstables
  l1 : r.l1Sstables.map TableHandle.path = r.manifest.l1Sstables
  nonempty : r.baseMmap ≠ []
  file : ∀ t ∈ r.tables, d.files t.path = some t.data
  bloom : ∀ t ∈ r.tables, d.blooms t.path = some t.bloom

section

variable [External]

theorem loadTables_eq {d : Disk} {tables : List TableHandle}
    (file : ∀ t ∈ tables, d.files t.path = some t.data)
    (bloom : ∀ t ∈ tables, d.blooms t.path = some t.bloom) :
    loadTables d (tables.map TableHandle.path) = tables := by
  induction tables with
  | nil => rfl
  | cons t rest ih =>
    have tail := ih (fun u hu => file u (.tail _ hu)) (fun u hu => bloom u (.tail _ hu))
    rw [loadTables] at tail ⊢
    rw [List.map_cons, List.filterMap_cons, file t (.head _), tail]
    simp only [Option.map_some, loadBloom, bloom t (.head _), Option.getD_some]

namespace Disk.Stores

variable {d : Disk} {r : StorageRoots}

theorem sstables (stores : d.Stores r) : loadTables d r.manifest.sstables = r.sstables := by
  rw [← stores.l0]
  apply loadTables_eq
  · exact fun t ht => stores.file t (mem_tables.mpr (.inl ht))
  · exact fun t ht => stores.bloom t (mem_tables.mpr (.inl ht))

theorem l1Sstables (stores : d.Stores r) : loadTables d r.manifest.l1Sstables = r.l1Sstables := by
  rw [← stores.l1]
  apply loadTables_eq
  · exact fun t ht => stores.file t (mem_tables.mpr (.inr (.inl ht)))
  · exact fun t ht => stores.bloom t (mem_tables.mpr (.inr (.inl ht)))

section

omit [External]

theorem base (stores : d.Stores r) : d.files r.manifest.basePath = some r.baseMmap :=
  stores.file r.baseTable (mem_tables.mpr (.inr (.inr rfl)))

theorem baseBloom (stores : d.Stores r) : d.blooms r.manifest.basePath = some r.baseBloom :=
  stores.bloom r.baseTable (mem_tables.mpr (.inr (.inr rfl)))

theorem loadBase (stores : d.Stores r) : OmniKV.loadBase d r.manifest.basePath = r.baseMmap := by
  rw [OmniKV.loadBase, stores.base]
  cases data : r.baseMmap with
  | nil => exact absurd data stores.nonempty
  | cons => rfl

end

/-- Recovery maps the same tables again. The memtable comes from the log. -/
theorem roots_recoverFrom (stores : d.Stores r) : (recoverFrom d r.manifest).roots = { r with
      memtable := Memtable.empty.insertAll (replay d.wal)
      frozenMemtables := []
      heapReader := r.manifest.heapPath } := by
  simp only [recoverFrom, stores.sstables, stores.l1Sstables, stores.loadBase, loadBloom,
    stores.baseBloom, Option.getD_some]

/-- Saving the filters again changes none of them. -/
theorem blooms_recoverFrom (stores : d.Stores r) :
    (recoverFrom d r.manifest).files.blooms = d.blooms := by
  have unchanged : ∀ tables : List TableHandle, (∀ t ∈ tables, d.blooms t.path = some t.bloom) →
      tables.foldl (fun (blooms : Path → Option BloomFilter) t =>
        Function.update blooms t.path (some t.bloom)) d.blooms = d.blooms := by
    intro tables
    induction tables with
    | nil => exact fun _ => rfl
    | cons t rest ih =>
      intro saved
      rw [List.foldl_cons, ← saved t (.head _), Function.update_eq_self]
      exact ih fun u hu => saved u (.tail _ hu)
  simp only [recoverFrom, stores.sstables, stores.l1Sstables, stores.loadBase, loadBloom,
    stores.baseBloom, Option.getD_some]
  rw [← stores.baseBloom, Function.update_eq_self]
  refine unchanged _ fun t ht => stores.bloom t (mem_tables.mpr ?_)
  rw [List.mem_append] at ht
  exact ht.imp_right .inl

theorem files_recoverFrom (stores : d.Stores r) : (recoverFrom d r.manifest).files.files = fun p =>
      (Function.update d.files r.manifest.heapPath
        (some ((d.files r.manifest.heapPath).getD [])) p).map fun data => ⟨data, data⟩ := by
  simp only [recoverFrom, stores.loadBase]
  rw [← stores.base, Function.update_eq_self]

end Disk.Stores

end

end OmniKV
