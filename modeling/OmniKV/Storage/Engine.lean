import Mathlib.Logic.Function.Basic
import OmniKV.Storage.Batch
import OmniKV.Storage.Memtable
import OmniKV.Storage.Sstable

/-!
# The storage engine

Recent versions are in memtables, older ones in table files of three levels, and values in one heap
file. The manifest names the files in use. Operations are split at the locks of the source, so that
each block below is atomic there.
-/

namespace OmniKV

open SSTableReader

/-- The files of a database. Names of compaction outputs carry a unique token. -/
inductive Path
  | initialHeap
  | initialBase
  | l0 (token : ℕ)
  | l1 (token : ℕ)
  | base (token : ℕ)
  | compactedHeap (token : ℕ)
  | compactedBase (token : ℕ)
deriving DecidableEq, Repr

def manifestFormatVersion : ℕ := 1

structure Manifest where
  heapPath : Path
  basePath : Path
  sstables : List Path
  l1Sstables : List Path
  maxSeq : ℕ
  formatVersion : ℕ
deriving DecidableEq, Repr

def Manifest.initial : Manifest :=
  ⟨.initialHeap, .initialBase, [], [], 0, manifestFormatVersion⟩

/-- What a database directory contains while no engine has it open. A missing log
reads like an empty one. -/
structure Disk where
  manifest : Option Manifest
  wal : Bytes
  files : Path → Option Bytes
  blooms : Path → Option BloomFilter

def Disk.empty : Disk := ⟨none, [], fun _ => none, fun _ => none⟩

/-- A file as readers see it and as the last fsync left it. -/
structure StoredFile where
  data : Bytes
  synced : Bytes

/-- The directory of an open engine. A crash leaves the manifest before or after a rename. -/
structure Files where
  manifest : Manifest
  durableManifest : Manifest
  wal : WriteAheadLog
  files : Path → Option StoredFile
  blooms : Path → Option BloomFilter

/-- The contents of a file, empty when it does not exist. -/
def Files.read (f : Files) (p : Path) : Bytes := ((f.files p).map StoredFile.data).getD []

structure TableHandle where
  data : Bytes
  bloom : BloomFilter
  path : Path

structure StorageRoots where
  baseMmap : Bytes
  baseBloom : BloomFilter
  sstables : List TableHandle
  l1Sstables : List TableHandle
  memtable : Memtable
  frozenMemtables : List Memtable
  manifest : Manifest
  heapReader : Path

structure Engine where
  roots : StorageRoots
  globalSeq : ℕ
  heapFile : Path
  heapOffset : ℕ
  files : Files
  activeSnapshots : SortedMap ℕ ℕ
  replicaRetentionFloors : SortedMap Bytes ℕ
  blockCache : ℕ → Option Bytes
  l0WriteStallThreshold : ℕ

variable (r : StorageRoots)

def StorageRoots.baseTable : TableHandle :=
  ⟨r.baseMmap, r.baseBloom, r.manifest.basePath⟩

variable [External]

def TableHandle.find (t : TableHandle) (key : Bytes) (readSeq : ℕ) : Option Version :=
  if t.bloom.mightContain (hashKey key) then
    (findRecord t.data key readSeq).map OmniRecord.version
  else none

/-- The first tier that has a visible version of the key answers. -/
def StorageRoots.find (r : StorageRoots) (key : Bytes) (readSeq : ℕ) : Option Version :=
  (r.memtable.find key readSeq).or <|
  (r.frozenMemtables.reverse.findSome? (·.find key readSeq)).or <|
  (r.sstables.reverse.findSome? (·.find key readSeq)).or <|
  (r.l1Sstables.reverse.findSome? (·.find key readSeq)).or <|
  r.baseTable.find key readSeq

/-- A version that reads as absent at time `now`. -/
def Version.dead (v : Version) (now : UInt64) : Bool :=
  v.pointer.length = 0 || (0 < v.pointer.expiry && v.pointer.expiry ≤ now)

namespace Engine

def heap (e : Engine) : Bytes := e.files.read e.roots.heapReader

def readFromHeap (e : Engine) (p : ValuePointer) : Except OmniError Bytes × Engine :=
  match e.blockCache p.offset with
  | some cached => (.ok cached, e)
  | none =>
    match readPointer e.heap p with
    | .ok value =>
      (.ok value, { e with blockCache := Function.update e.blockCache p.offset (some value) })
    | .error err => (.error err, e)

def find (e : Engine) (key : Bytes) (readSeq : ℕ) (now : UInt64) :
    Except OmniError (Option Bytes) × Engine :=
  match e.roots.find key readSeq with
  | none => (.ok none, e)
  | some v =>
    if v.dead now then (.ok none, e)
    else
      let (result, e') := e.readFromHeap v.pointer
      (result.map some, e')

/-- What a reader with an empty block cache sees at the current sequence. -/
def visible (e : Engine) (key : Bytes) (now : UInt64) : Except OmniError (Option Bytes) :=
  ({ e with blockCache := fun _ => none }.find key e.globalSeq now).1

end Engine

def Memtable.scan (m : Memtable) (startKey endKey : Bytes) (readSeq : ℕ) : List Version :=
  (((m.map.entries.filter fun e => Memtable.slot startKey readSeq ≤ e.1).map
    Memtable.ofEntry).takeWhile fun v => v.key ≤ endKey).filter fun v => v.seq ≤ readSeq

def TableHandle.scan (t : TableHandle) (startKey endKey : Bytes) (readSeq : ℕ) : List Version :=
  (((iterFrom t.data startKey).takeWhile fun r => r.key ≤ endKey).filter
    fun r => startKey ≤ r.key && r.isValid && r.seq ≤ readSeq).map OmniRecord.version

def StorageRoots.candidates (r : StorageRoots) (startKey endKey : Bytes) (readSeq : ℕ) :
    List Version :=
  r.memtable.scan startKey endKey readSeq ++
    r.frozenMemtables.reverse.flatMap (·.scan startKey endKey readSeq) ++
    r.sstables.reverse.flatMap (·.scan startKey endKey readSeq) ++
    r.l1Sstables.flatMap (·.scan startKey endKey readSeq) ++
    r.baseTable.scan startKey endKey readSeq

/-- Keep the versions whose key differs from that of the last one kept. -/
def dedupFrom (last : Option Bytes) : List Version → List Version
  | [] => []
  | v :: vs => if some v.key = last then dedupFrom last vs else v :: dedupFrom (some v.key) vs

def dedupByKey (vs : List Version) : List Version := dedupFrom none vs

def StorageRoots.scan (r : StorageRoots) (startKey endKey : Bytes) (readSeq : ℕ) : List Version :=
  dedupByKey ((r.candidates startKey endKey readSeq).mergeSort
    fun a b => Memtable.slot a.key a.seq ≤ Memtable.slot b.key b.seq)

namespace Engine

def scanLoop (now : UInt64) : List Version → Engine →
    Except OmniError (List (Bytes × Bytes)) × Engine
  | [], e => (.ok [], e)
  | v :: vs, e =>
    if v.dead now then scanLoop now vs e
    else
      match e.readFromHeap v.pointer with
      | (.error err, e') => (.error err, e')
      | (.ok value, e') =>
        let (rest, e'') := scanLoop now vs e'
        (rest.map ((v.key, value) :: ·), e'')

def scan (e : Engine) (startKey endKey : Bytes) (readSeq : ℕ) (now : UInt64) :
    Except OmniError (List (Bytes × Bytes)) × Engine :=
  scanLoop now (e.roots.scan startKey endKey readSeq) e

end Engine

namespace Engine

/-- Reserve sequence numbers for a batch and its marker, and heap space. -/
def reserve (e : Engine) (tx : WriteBatch) : Engine :=
  { e with
    globalSeq := wrap64 (e.globalSeq + (tx.opCount + 1))
    heapOffset := wrap64 (e.heapOffset + tx.totalHeapBytes) }

end Engine

/-- Write to a file, which exists because the engine has it open. -/
def Files.write (f : Files) (p : Path) (offset : ℕ) (data : Bytes) : Files :=
  { f with
    files := Function.update f.files p
      ((f.files p).map fun file => { file with data := Bytes.writeAt file.data offset data }) }

def Files.sync (f : Files) (p : Path) : Files :=
  { f with
    files := Function.update f.files p
      ((f.files p).map fun file => { file with synced := file.data }) }

namespace Engine

def heapWrite (e : Engine) (reservedOffset : ℕ) (payloads : List Bytes) : Engine :=
  { e with files := (payloads.foldl
      (fun (acc : Files × ℕ) data => (acc.1.write e.heapFile acc.2 data, acc.2 + data.length))
      (e.files, reservedOffset)).1 }

def walAppend (e : Engine) (records : List OmniRecord) : Engine :=
  { e with files := { e.files with wal := e.files.wal.appendBatchNosync records } }

/-- The leader's part of a group commit: fsync the heap, then the log. -/
def syncGroupCommitFiles (e : Engine) : Engine :=
  let files := e.files.sync e.heapFile
  { e with files := { files with wal := files.wal.sync } }

/-- Make a logged batch readable. Records whose key is the marker's are left out. -/
def memtableInsert (e : Engine) (records : List OmniRecord) : Engine :=
  { e with roots := { e.roots with
      memtable := e.roots.memtable.insertAll (records.filter (·.key ≠ commitMarkerKey)) } }

/-- The batch that the next commit of `tx` logs. -/
def nextBatch (e : Engine) (tx : WriteBatch) : LogBatch := tx.logBatch e.globalSeq e.heapOffset

/-- The blocks of a commit one after another, with every write and fsync succeeding. -/
def committed (e : Engine) (tx : WriteBatch) : Engine :=
  ((((e.reserve tx).heapWrite (wrap64 e.heapOffset) (tx.prepped.map (·.bytes))).walAppend
    (e.nextBatch tx).all).syncGroupCommitFiles).memtableInsert (e.nextBatch tx).all

/-- The commit path for one caller. Returns the sequence number of the commit marker. -/
def commitBatchLocal (e : Engine) (tx : WriteBatch) : Except OmniError (Engine × ℕ) :=
  if e.roots.sstables.length ≥ e.l0WriteStallThreshold then .error .writeStall
  else .ok (e.committed tx, (e.nextBatch tx).marker.seq)

def commitAll (e : Engine) : List WriteBatch → Except OmniError Engine
  | [] => .ok e
  | tx :: txs => do
      let (e', _) ← e.commitBatchLocal tx
      e'.commitAll txs

/-- The counter of sequence numbers: the number that the next record gets. -/
def getSeq (e : Engine) : ℕ := e.globalSeq

/-- Register a read snapshot at the last assigned sequence number. -/
def snapshot (e : Engine) : Engine × ℕ :=
  let seq := e.globalSeq - 1
  let count := (e.activeSnapshots.get? seq).getD 0
  ({ e with activeSnapshots := e.activeSnapshots.insert seq (count + 1) }, seq)

def unregisterSnapshot (e : Engine) (seq : ℕ) : Engine :=
  match e.activeSnapshots.get? seq with
  | none => e
  | some count =>
    if count - 1 = 0 then
      { e with activeSnapshots := e.activeSnapshots.filter fun entry => entry.1 ≠ seq }
    else { e with activeSnapshots := e.activeSnapshots.insert seq (count - 1) }

/-- Pin the versions that a replica may still need. The id is taken without surrounding
blanks. -/
def pinReplicaRetention (e : Engine) (replicaId : Bytes) (seq : ℕ) : Except OmniError Engine :=
  if replicaId = [] then .error (.ioError "replica retention id must not be empty")
  else .ok { e with replicaRetentionFloors := e.replicaRetentionFloors.insert replicaId seq }

def releaseReplicaRetention (e : Engine) (replicaId : Bytes) : Engine :=
  { e with replicaRetentionFloors :=
      e.replicaRetentionFloors.filter fun entry => entry.1 ≠ replicaId }

def oldestActiveSnapshot (e : Engine) : Option ℕ :=
  e.activeSnapshots.entries.head?.map Prod.fst

def minReplicaRetention (e : Engine) : Option ℕ :=
  (e.replicaRetentionFloors.entries.map Prod.snd).min?

/-- The oldest sequence that a snapshot or a pin may still read. -/
def compactionRetentionFloor (e : Engine) : Option ℕ :=
  match e.oldestActiveSnapshot, e.minReplicaRetention with
  | some snapshot, some replica => some (min snapshot replica)
  | some snapshot, none => some snapshot
  | none, some replica => some replica
  | none, none => none

end Engine

def tableKeys (data : Bytes) : List Bytes := (iterFrom data []).map OmniRecord.key

variable (d : Disk)

def loadBloom (p : Path) (data : Bytes) : BloomFilter :=
  (d.blooms p).getD (.ofKeys (max (tableKeys data).length 100) (tableKeys data))

def loadTables (paths : List Path) : List TableHandle :=
  paths.filterMap fun p => (d.files p).map fun data => ⟨data, loadBloom d p data, p⟩

def loadBase (p : Path) : Bytes :=
  match d.files p with
  | none => emptyPage
  | some [] => emptyPage
  | some data => data

/-- The manifest, or the one a new database starts with. -/
def loadManifest : Except OmniError Manifest :=
  match d.manifest with
  | none => .ok .initial
  | some m =>
    if m.formatVersion > manifestFormatVersion then
      .error (.unsupportedVersion m.formatVersion manifestFormatVersion)
    else .ok m

structure RecoveredStorage where
  roots : StorageRoots
  heapOffset : ℕ
  files : Files
  maxSeq : ℕ

def recoverFrom (manifest : Manifest) : RecoveredStorage :=
  let base := loadBase d manifest.basePath
  let baseBloom := loadBloom d manifest.basePath base
  let sstables := loadTables d manifest.sstables
  let l1Sstables := loadTables d manifest.l1Sstables
  let records := replay d.wal
  let heap := (d.files manifest.heapPath).getD []
  let onDisk := Function.update (Function.update d.files manifest.basePath (some base))
    manifest.heapPath (some heap)
  let blooms := (sstables ++ l1Sstables).foldl
    (fun (blooms : Path → Option BloomFilter) t => Function.update blooms t.path (some t.bloom))
    (Function.update d.blooms manifest.basePath (some baseBloom))
  { roots :=
      { baseMmap := base
        baseBloom := baseBloom
        sstables := sstables
        l1Sstables := l1Sstables
        memtable := Memtable.empty.insertAll records
        frozenMemtables := []
        manifest := manifest
        heapReader := manifest.heapPath }
    heapOffset := heap.length
    files :=
      { manifest := manifest
        durableManifest := manifest
        wal := .new d.wal
        files := fun p => (onDisk p).map fun data => ⟨data, data⟩
        blooms := blooms }
    maxSeq := (records.map OmniRecord.seq).foldl max manifest.maxSeq }

def recoverStorageRoots : Except OmniError RecoveredStorage := do
  let manifest ← loadManifest d
  return recoverFrom d manifest

def defaultL0WriteStallThreshold : ℕ := 12

namespace Engine

def ofRecovered (recovered : RecoveredStorage) : Engine where
  roots := recovered.roots
  globalSeq := wrap64 (recovered.maxSeq + 1)
  heapFile := recovered.roots.manifest.heapPath
  heapOffset := recovered.heapOffset
  files := recovered.files
  activeSnapshots := .empty
  replicaRetentionFloors := .empty
  blockCache := fun _ => none
  l0WriteStallThreshold := defaultL0WriteStallThreshold

/-- `OmniKV::open`. -/
def openDb : Except OmniError Engine := do
  let recovered ← recoverStorageRoots d
  return ofRecovered recovered

/-- What the directory contains once the engine has closed its files. -/
def close (e : Engine) : Disk where
  manifest := some e.files.manifest
  wal := e.files.wal.data
  files p := (e.files.files p).map StoredFile.data
  blooms := e.files.blooms

def reopen (e : Engine) : Except OmniError Engine := openDb e.close

end Engine

end OmniKV
