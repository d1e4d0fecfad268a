import OmniKV.Storage.Engine
import OmniKV.Storage.Merge

/-!
# Flush, compaction and garbage collection

A flush freezes the memtable and truncates the log, then writes the frozen versions to a new L0
table and publishes it. Garbage collection rewrites all tables and the active memtable into a new
base table and copies the values that are still referenced to a new heap file.
-/

namespace OmniKV

namespace Files

variable (f : Files)

def create (p : Path) (data : Bytes) : Files :=
  { f with files := Function.update f.files p (some ⟨data, []⟩) }

def saveBloom (p : Path) (bloom : BloomFilter) : Files :=
  { f with blooms := Function.update f.blooms p (some bloom) }

def rotateWal : Files := { f with wal := f.wal.rotateSegment }

/-- Rename a complete new manifest over the old one. It is saved with the current
format version. -/
def renameManifest (m : Manifest) : Files :=
  { f with manifest := { m with formatVersion := manifestFormatVersion } }

/-- Fsync the directory, which makes the rename durable. -/
def syncDir : Files := { f with durableManifest := f.manifest }

/-- Delete obsolete files and their filters. -/
def remove (paths : List Path) : Files :=
  { f with
    files := fun p => if p ∈ paths then none else f.files p
    blooms := fun p => if p ∈ paths then none else f.blooms p }

/-- Run the first `n` steps of an operation on the files. -/
def runSteps (steps : List (Files → Files)) (n : ℕ) : Files :=
  (steps.take n).foldl (fun f step => step f) f

end Files

variable [External]

def Version.record (v : Version) : OmniRecord :=
  .new v.seq v.key v.pointer.offset v.pointer.length v.pointer.crc v.pointer.expiry

def tableBloom (elements : ℕ) (records : List OmniRecord) : BloomFilter :=
  .ofKeys (max elements 100) (records.map OmniRecord.key)

def newTable (p : Path) (records : List OmniRecord) : TableHandle :=
  ⟨encodeTable records, tableBloom records.length records, p⟩

def tableVersions (data : Bytes) : List Version :=
  ((SSTableReader.iterFrom data []).filter (·.isValid)).map OmniRecord.version

def noUniqueOutput : OmniError :=
  .ioError "unable to allocate a unique compaction output path after 32 attempts"

namespace Engine

variable (e : Engine)

/-- Under the write lock: retire the memtable to the frozen list and truncate the log. -/
def freeze : Engine :=
  { e with
    roots := { e.roots with
      memtable := .empty
      frozenMemtables := e.roots.frozenMemtables ++ [e.roots.memtable] }
    files := e.files.rotateWal }

/-- The records of an L0 table, by key and newest first. -/
def flushRecords (frozen : Memtable) : List OmniRecord := frozen.versions.map Version.record

variable (token : ℕ)

/-- The manifest that lists a new L0 table. -/
def flushManifest : Manifest :=
  { e.roots.manifest with
    sstables := e.roots.manifest.sstables ++ [.l0 token]
    maxSeq := max e.roots.manifest.maxSeq e.globalSeq }

variable (t : TableHandle)

def writeTable : Engine :=
  { e with files := ((e.files.create t.path t.data).sync t.path).saveBloom t.path t.bloom }

def saveManifest (m : Manifest) : Engine :=
  { e with files := (e.files.renameManifest m).syncDir }

def updateRoots (f : StorageRoots → StorageRoots) : Engine :=
  { e with roots := f e.roots }

def removeFiles (paths : List Path) : Engine :=
  { e with files := e.files.remove paths }

def rootsWithL0 (m : Manifest) : StorageRoots :=
  { e.roots with manifest := m, sstables := e.roots.sstables ++ [t] }

/-- Publish the manifest and the new table in one root swap. -/
def pushL0 (m : Manifest) : Engine :=
  e.updateRoots fun _ => e.rootsWithL0 t m

def removeFrozenMemtable (idx : ℕ) : Engine :=
  e.updateRoots fun r => { r with frozenMemtables := r.frozenMemtables.eraseIdx idx }

/-- The rest of a flush, after the freeze: table, manifest, root swap, removal of the frozen
memtable. -/
def publishFrozen (frozen : Memtable) (idx token : ℕ) : Except OmniError Engine :=
  let t := newTable (.l0 token) (flushRecords frozen)
  let m := e.flushManifest token
  if flushRecords frozen = [] then .ok (e.removeFrozenMemtable idx)
  else if (e.files.files t.path).isSome then .error noUniqueOutput
  else .ok ((((e.writeTable t).saveManifest m).pushL0 t m).removeFrozenMemtable idx)

/-- A whole flush by one caller. -/
def compactSstables : Except OmniError Engine :=
  e.freeze.publishFrozen e.roots.memtable e.roots.frozenMemtables.length token

def flushSteps : List (Files → Files) :=
  let t := newTable (.l0 token) (flushRecords e.roots.memtable)
  if flushRecords e.roots.memtable = [] then [Files.rotateWal]
  else
    [ fun f => f.rotateWal, fun f => f.create t.path t.data, fun f => f.sync t.path,
      fun f => f.saveBloom t.path t.bloom, fun f => f.renameManifest (e.flushManifest token),
      fun f => f.syncDir ]

/-- Write a table, save a manifest that names it, swap the roots and remove old files. -/
def publish (r : StorageRoots) (removed : List Path) : Engine :=
  (((e.writeTable t).saveManifest r.manifest).updateRoots fun _ => r).removeFiles removed

def l0Merged : Merged :=
  Merged.ofVersions (e.roots.sstables.flatMap fun t => tableVersions t.data)

def rootsWithoutL0 : StorageRoots :=
  { e.roots with manifest := { e.roots.manifest with sstables := [] }, sstables := [] }

/-- The roots with a new L1 table in place of the L0 tables. -/
def rootsWithL1 : StorageRoots :=
  { e.roots with
    manifest := { e.roots.manifest with
      sstables := []
      l1Sstables := e.roots.manifest.l1Sstables ++ [t.path]
      maxSeq := max e.roots.manifest.maxSeq e.globalSeq }
    l1Sstables := e.roots.l1Sstables ++ [t]
    sstables := [] }

def compactL0ToL1 : Except OmniError Engine :=
  let records := (e.l0Merged.retained e.compactionRetentionFloor).map Version.record
  let t := newTable (.l1 token) records
  let oldPaths := e.roots.sstables.map TableHandle.path
  if e.roots.sstables = [] then .ok e
  else if records = [] then
    .ok (((e.saveManifest e.rootsWithoutL0.manifest).updateRoots fun _ =>
      e.rootsWithoutL0).removeFiles oldPaths)
  else if (e.files.files t.path).isSome then .error noUniqueOutput
  else .ok (e.publish t (e.rootsWithL1 t) oldPaths)

def baseVersions (merged : Merged) (now : UInt64) : List Version :=
  (merged.retained e.compactionRetentionFloor).filter fun v =>
    !v.dead now || e.compactionRetentionFloor.isSome

def l1Merged : Merged :=
  Merged.ofVersions (tableVersions e.roots.baseMmap ++
    e.roots.l1Sstables.flatMap fun t => tableVersions t.data)

def rootsWithBase : StorageRoots :=
  { e.roots with
    baseMmap := t.data
    baseBloom := t.bloom
    l1Sstables := []
    manifest := { e.roots.manifest with basePath := t.path, l1Sstables := [] } }

def compactL1ToL2 (now : UInt64) : Except OmniError Engine :=
  let t := newTable (.base token) ((e.baseVersions e.l1Merged now).map Version.record)
  let oldPaths := e.roots.manifest.basePath :: e.roots.l1Sstables.map TableHandle.path
  if e.roots.l1Sstables = [] then .ok e
  else if (e.files.files t.path).isSome then .error noUniqueOutput
  else .ok (e.publish t (e.rootsWithBase t) oldPaths)

/-- Copy the stored bytes of the kept versions to a new heap that is `written` long so far. -/
def gcLoop (heap : Bytes) (preserve : Bool) (now : UInt64) :
    List Version → ℕ → Except OmniError (List OmniRecord × Bytes)
  | [], _ => .ok ([], [])
  | v :: vs, written =>
    if v.pointer.length = 0 then
      if preserve then do
        let (records, bytes) ← gcLoop heap preserve now vs written
        return (.new v.seq v.key 0 0 v.pointer.crc v.pointer.expiry :: records, bytes)
      else gcLoop heap preserve now vs written
    else if 0 < v.pointer.expiry && v.pointer.expiry ≤ now && !preserve then
      gcLoop heap preserve now vs written
    else
      match Bytes.readExactAt heap v.pointer.offset (storedLength v.pointer.length) with
      | none => .error (.ioError "failed to fill whole buffer")
      | some stored =>
        if crc32 stored ≠ v.pointer.crc then .error (.ioError "GC CRC32 mismatch!")
        else do
          let (records, bytes) ← gcLoop heap preserve now vs
            (wrap64 (written + storedLength v.pointer.length))
          return (.new v.seq v.key written v.pointer.length v.pointer.crc v.pointer.expiry ::
            records, stored ++ bytes)

def gcMerged : Merged :=
  Merged.ofVersions (tableVersions e.roots.baseMmap ++
    e.roots.sstables.flatMap (fun t => tableVersions t.data) ++
    e.roots.l1Sstables.flatMap (fun t => tableVersions t.data) ++ e.roots.memtable.versions)

def gcOutput (now : UInt64) : Except OmniError (List OmniRecord × Bytes) :=
  gcLoop (e.files.read e.roots.manifest.heapPath) e.compactionRetentionFloor.isSome now
    (e.gcMerged.retained e.compactionRetentionFloor) 0

/-- Its filter has room for all keys that were merged. -/
def gcTable (baseToken : ℕ) (records : List OmniRecord) : TableHandle :=
  ⟨encodeTable records, tableBloom e.gcMerged.map.entries.length records, .compactedBase baseToken⟩

/-- The roots after garbage collection. The memtables stay as they are. -/
def gcRoots (heapToken : ℕ) (t : TableHandle) : StorageRoots :=
  { e.roots with
    baseMmap := t.data
    baseBloom := t.bloom
    sstables := []
    l1Sstables := []
    heapReader := .compactedHeap heapToken
    manifest := { e.roots.manifest with
      heapPath := .compactedHeap heapToken
      basePath := t.path
      sstables := []
      l1Sstables := [] } }

/-- The files that the old manifest names. -/
def gcOldPaths : List Path :=
  e.roots.manifest.heapPath :: e.roots.manifest.basePath ::
    (e.roots.manifest.sstables ++ e.roots.manifest.l1Sstables)

def gcSteps (heapToken : ℕ) (t : TableHandle) (heap : Bytes) : List (Files → Files) :=
  [ fun f => f.create (.compactedHeap heapToken) heap, fun f => f.create t.path t.data,
    fun f => f.sync (.compactedHeap heapToken), fun f => f.sync t.path, fun f =>
    f.saveBloom t.path t.bloom,
    fun f => f.renameManifest (e.gcRoots heapToken t).manifest, fun f => f.syncDir, fun f =>
    f.rotateWal, fun f => f.remove e.gcOldPaths ]

def collected (heapToken : ℕ) (t : TableHandle) (heap : Bytes) : Engine :=
  { e with
    roots := e.gcRoots heapToken t
    blockCache := fun _ => none
    heapFile := .compactedHeap heapToken
    heapOffset := wrap64 heap.length
    files := e.files.runSteps (e.gcSteps heapToken t heap) (e.gcSteps heapToken t heap).length }

def runGarbageCollection (heapToken baseToken : ℕ) (now : UInt64) : Except OmniError Engine :=
  if (e.files.files (.compactedHeap heapToken)).isSome then .error noUniqueOutput
  else if (e.files.files (.compactedBase baseToken)).isSome then .error noUniqueOutput
  else do
    let (records, heap) ← e.gcOutput now
    return e.collected heapToken (e.gcTable baseToken records) heap

end Engine

end OmniKV
