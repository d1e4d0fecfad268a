import OmniKV.Data.Fallible
import OmniKV.Storage.Wal

/-!
# Write batches and their records

A batch buffers sets and deletes in two separate lists. Committing it compresses and
checksums the values, reserves a run of sequence numbers and a stretch of the heap
file, and builds one record per operation: all sets first, then all deletes, then the
commit marker.
-/

namespace OmniKV

open List
open OmniRecord (version key isValid_new)

inductive OmniError
  | ioError (message : String)
  | batchTooLarge (limit : ℕ)
  | valueTooLarge (limit : ℕ)
  | writeStall
  | unsupportedVersion (found supported : ℕ)
deriving DecidableEq, Repr

def OmniError.text : OmniError → String
  | .ioError message => s!"IoError(\"{message}\")"
  | .batchTooLarge limit => s!"BatchTooLarge({limit})"
  | .valueTooLarge limit => s!"ValueTooLarge({limit})"
  | .writeStall => "WriteStall"
  | .unsupportedVersion found supported =>
    s!"unsupported manifest version {found}: this build supports up to {supported}"

theorem eq_ok_of_toOption {ε α : Type*} {x : Except ε α} {a : α} (h : x.toOption = some a) :
    x = .ok a := by
  cases x with
  | error err => cases h
  | ok b => exact congrArg Except.ok (Option.some.inj h)

/-- A buffered set, with an absolute expiry time in seconds, zero for never. -/
structure Write where
  key : Bytes
  value : Bytes
  expiry : UInt64
deriving DecidableEq, Repr

structure WriteBatch where
  bufferedWrites : List Write
  bufferedDeletes : List Bytes
  count : bufferedWrites.length + bufferedDeletes.length ≤ maxBatchSize
  values : ∀ w ∈ bufferedWrites, w.value.length ≤ maxValueSize

variable (b : WriteBatch)

namespace WriteBatch

def new : WriteBatch := ⟨[], [], by simp, by simp⟩

def opCount : ℕ := b.bufferedWrites.length + b.bufferedDeletes.length

def isEmpty : Bool := b.bufferedWrites.isEmpty && b.bufferedDeletes.isEmpty

def setWithExpiry (key value : Bytes) (expiry : UInt64) : Except OmniError WriteBatch :=
  if full : b.opCount ≥ maxBatchSize then .error (.batchTooLarge maxBatchSize)
  else if large : value.length > maxValueSize then .error (.valueTooLarge maxValueSize)
  else .ok
    { bufferedWrites := b.bufferedWrites ++ [⟨key, value, expiry⟩]
      bufferedDeletes := b.bufferedDeletes
      count := by
        simp only [opCount] at full
        simp only [length_append, length_singleton]
        omega
      values := by
        intro w member
        obtain old | new := mem_append.mp member
        · exact b.values w old
        · rw [mem_singleton.mp new]
          exact not_lt.mp large }

def set (key value : Bytes) : Except OmniError WriteBatch :=
  b.setWithExpiry key value 0

/-- A set that expires `ttl` seconds from `now`, or never if `ttl` is zero. -/
def setWithTtl (key value : Bytes) (ttl now : UInt64) : Except OmniError WriteBatch :=
  b.setWithExpiry key value (if ttl > 0 then now + ttl else 0)

def delete (key : Bytes) : Except OmniError WriteBatch :=
  if full : b.opCount ≥ maxBatchSize then .error (.batchTooLarge maxBatchSize)
  else .ok
    { b with
      bufferedDeletes := b.bufferedDeletes ++ [key]
      count := by
        simp only [opCount] at full
        simp only [length_append, length_singleton]
        omega }

end WriteBatch

/-- The batch that sets `k` to `v`. -/
def sampleWrite : WriteBatch where
  bufferedWrites := [⟨Bytes.ofString "k", Bytes.ofString "v", 0⟩]
  bufferedDeletes := []
  count := by decide
  values := by decide

/-- The batch that sets `k` to `w`. -/
def sampleOverwrite : WriteBatch where
  bufferedWrites := [⟨Bytes.ofString "k", Bytes.ofString "w", 0⟩]
  bufferedDeletes := []
  count := by decide
  values := by decide

/-- The batch that deletes `k`. -/
def sampleDelete : WriteBatch where
  bufferedWrites := []
  bufferedDeletes := [Bytes.ofString "k"]
  count := by decide
  values := by decide

/-- The batch that sets `k1` and `k2` to `v`. -/
def samplePair : WriteBatch where
  bufferedWrites := [⟨Bytes.ofString "k1", Bytes.ofString "v", 0⟩,
    ⟨Bytes.ofString "k2", Bytes.ofString "v", 0⟩]
  bufferedDeletes := []
  count := by decide
  values := by decide

/-- A value as it goes to the heap: its stored bytes, their flagged length and their checksum. -/
structure PreppedWrite where
  key : Bytes
  bytes : Bytes
  length : ℕ
  crc : UInt32
  expiry : UInt64

/-- The number of heap bytes that a length field stands for. -/
def storedLength (length : ℕ) : ℕ := length % uncompressedFlag

theorem testBit_or_uncompressedFlag (n : ℕ) : (n ||| uncompressedFlag).testBit 63 = true := by
  rw [uncompressedFlag, Nat.testBit_or, Nat.testBit_two_pow_self, Bool.or_true]

/-- Arithmetic on the 64-bit counters wraps around. -/
def wrap64 (n : ℕ) : ℕ := n % 2 ^ 64

theorem wrap64_lt (n : ℕ) : wrap64 n < 2 ^ 64 := Nat.mod_lt _ (by decide)

theorem wrap64_of_lt {n : ℕ} (small : n < 2 ^ 64) : wrap64 n = n := Nat.mod_eq_of_lt small

variable [External]

def prepWrite (w : Write) : PreppedWrite :=
  if w.value.length < 64 then
    ⟨w.key, w.value, w.value.length ||| uncompressedFlag, crc32 w.value, w.expiry⟩
  else
    ⟨w.key, compress w.value, (compress w.value).length, crc32 (compress w.value), w.expiry⟩

/-- The value that a stored payload stands for, after the checks of a heap read. -/
def decodePayload (length : ℕ) (crc : UInt32) (stored : Bytes) : Except OmniError Bytes :=
  if crc32 stored ≠ crc then .error (.ioError "Payload CRC32 mismatch!")
  else if length.testBit 63 then .ok stored
  else match decompress stored with
    | none => .error (.ioError "LZ4 Error")
    | some value => .ok value

variable {w : Write} {offset seq : ℕ} {keys : List Bytes} {ps : List PreppedWrite} {r : OmniRecord}
  (size : w.value.length ≤ maxValueSize)

include size

theorem storedLength_prepWrite :
    storedLength (prepWrite w).length = (prepWrite w).bytes.length := by
  unfold prepWrite
  split_ifs with small
  · have low : w.value.length < 2 ^ 63 := by omega
    simp only [storedLength, uncompressedFlag, Nat.or_mod_two_pow, Nat.mod_self, Nat.or_zero,
      Nat.mod_eq_of_lt low]
  · exact Nat.mod_eq_of_lt (External.length_compress_lt w.value size)

theorem decodePayload_prepWrite :
    decodePayload (prepWrite w).length (prepWrite w).crc (prepWrite w).bytes = .ok w.value := by
  unfold prepWrite
  split_ifs with small
  · simp only [decodePayload, ne_eq, not_true_eq_false, if_false, testBit_or_uncompressedFlag,
      if_true]
  · have flag : (compress w.value).length.testBit 63 = false :=
      Nat.testBit_lt_two_pow (External.length_compress_lt w.value size)
    simp only [decodePayload, ne_eq, not_true_eq_false, if_false, flag, Bool.false_eq_true,
      External.decompress_compress w.value size]

/-- Only an empty value takes no room in the heap. -/
theorem storedLength_prepWrite_pos (nonempty : w.value ≠ []) :
    0 < storedLength (prepWrite w).length := by
  rw [storedLength_prepWrite size]
  refine length_pos_iff.mpr ?_
  unfold prepWrite
  split_ifs
  · exact nonempty
  · exact External.compress_ne_nil _

omit size

/-- A set never looks like a delete. -/
theorem length_prepWrite_ne_zero (w : Write) : (prepWrite w).length ≠ 0 := by
  unfold prepWrite
  split_ifs with small
  · intro zero
    have flag := testBit_or_uncompressedFlag w.value.length
    rw [show w.value.length ||| uncompressedFlag = 0 from zero] at flag
    simp at flag
  · simpa using External.compress_ne_nil w.value

@[simp] theorem key_prepWrite (w : Write) : (prepWrite w).key = w.key := by
  unfold prepWrite
  split_ifs <;> rfl

@[simp] theorem expiry_prepWrite (w : Write) : (prepWrite w).expiry = w.expiry := by
  unfold prepWrite
  split_ifs <;> rfl

/-- The records of the sets, numbered from `seq` and placed in the heap from `offset`. -/
def setRecords (seq offset : ℕ) : List PreppedWrite → List OmniRecord
  | [] => []
  | p :: ps =>
    OmniRecord.new seq p.key offset p.length p.crc p.expiry ::
      setRecords (wrap64 (seq + 1)) (wrap64 (offset + storedLength p.length)) ps

/-- The tombstones of the deletes, numbered from `seq`. -/
def deleteRecords (seq : ℕ) : List Bytes → List OmniRecord
  | [] => []
  | key :: keys => OmniRecord.new seq key 0 0 0 0 :: deleteRecords (wrap64 (seq + 1)) keys

namespace WriteBatch

def prepped (b : WriteBatch) : List PreppedWrite := b.bufferedWrites.map prepWrite

def totalHeapBytes (b : WriteBatch) : ℕ := (b.prepped.map fun p => storedLength p.length).sum

/-- The records of the operations, without the marker. -/
def userRecords (b : WriteBatch) (baseSeq reservedOffset : ℕ) : List OmniRecord :=
  setRecords (wrap64 baseSeq) (wrap64 reservedOffset) b.prepped ++
    deleteRecords (wrap64 (baseSeq + b.bufferedWrites.length)) b.bufferedDeletes

def commitMarker (b : WriteBatch) (baseSeq : ℕ) : OmniRecord :=
  OmniRecord.new (wrap64 (baseSeq + b.opCount)) commitMarkerKey b.opCount 0 0 0

def payloads (b : WriteBatch) : Bytes := b.prepped.flatMap PreppedWrite.bytes

end WriteBatch

theorem length_prepWrite_lt (size : w.value.length ≤ maxValueSize) :
    (prepWrite w).length < 2 ^ 64 := by
  unfold prepWrite
  split_ifs with small
  · exact Nat.or_lt_two_pow (by omega) (by decide)
  · exact (External.length_compress_lt w.value size).trans (by decide)

@[simp] theorem length_setRecords (seq offset : ℕ) (ps : List PreppedWrite) :
    (setRecords seq offset ps).length = ps.length := by
  induction ps generalizing seq offset with
  | nil => rfl
  | cons p ps ih => simp [setRecords, ih]

@[simp] theorem length_deleteRecords (seq : ℕ) (keys : List Bytes) :
    (deleteRecords seq keys).length = keys.length := by
  induction keys generalizing seq with
  | nil => rfl
  | cons key keys ih => simp [deleteRecords, ih]

theorem key_setRecords (seq offset : ℕ) (ps : List PreppedWrite) :
    (setRecords seq offset ps).map key = ps.map PreppedWrite.key := by
  induction ps generalizing seq offset with
  | nil => rfl
  | cons p ps ih => rw [setRecords, map_cons, ih]; rfl

theorem key_deleteRecords (seq : ℕ) (keys : List Bytes) :
    (deleteRecords seq keys).map key = keys := by
  induction keys generalizing seq with
  | nil => rfl
  | cons key keys ih => rw [deleteRecords, map_cons, ih]; rfl

/-- What every record of the commit path satisfies, whatever the key. -/
def WellBuilt (r : OmniRecord) : Prop :=
  r.isValid ∧ r.seq < 2 ^ 64 ∧ r.offset < 2 ^ 64 ∧ r.length < 2 ^ 64

theorem wellBuilt_of_mem_setRecords {ws : List Write} (hseq : seq < 2 ^ 64)
    (hoffset : offset < 2 ^ 64) (sizes : ∀ w ∈ ws, w.value.length ≤ maxValueSize) :
    ∀ r ∈ setRecords seq offset (ws.map prepWrite), WellBuilt r := by
  induction ws generalizing seq offset with
  | nil => simp [setRecords]
  | cons w ws ih =>
    intro r member
    obtain rfl | later := mem_cons.mp member
    · exact ⟨isValid_new .., hseq, hoffset, length_prepWrite_lt (sizes w (.head _))⟩
    · exact ih (wrap64_lt _) (wrap64_lt _) (fun x hx => sizes x (.tail _ hx)) r later

theorem wellBuilt_of_mem_deleteRecords (hseq : seq < 2 ^ 64) :
    ∀ r ∈ deleteRecords seq keys, WellBuilt r := by
  induction keys generalizing seq with
  | nil => simp [deleteRecords]
  | cons key keys ih =>
    intro r member
    obtain rfl | later := mem_cons.mp member
    · exact ⟨isValid_new .., hseq, Nat.two_pow_pos 64, Nat.two_pow_pos 64⟩
    · exact ih (wrap64_lt _) r later

namespace WriteBatch

@[simp] theorem length_userRecords (baseSeq offset : ℕ) :
    (b.userRecords baseSeq offset).length = b.opCount := by
  simp [userRecords, prepped, opCount]

theorem wellBuilt_userRecords (baseSeq offset : ℕ) :
    ∀ r ∈ b.userRecords baseSeq offset, WellBuilt r := by
  intro r member
  obtain set | delete := mem_append.mp member
  · exact wellBuilt_of_mem_setRecords (wrap64_lt _) (wrap64_lt _) b.values r set
  · exact wellBuilt_of_mem_deleteRecords (wrap64_lt _) r delete

def logBatch (b : WriteBatch) (baseSeq reservedOffset : ℕ) : LogBatch where
  records := b.userRecords baseSeq reservedOffset
  marker := b.commitMarker baseSeq
  marker_key := rfl
  count := (b.length_userRecords baseSeq reservedOffset).trans_le b.count
  valid := by
    intro r member
    obtain user | marker := mem_append.mp member
    · exact (b.wellBuilt_userRecords _ _ r user).1
    · rw [mem_singleton.mp marker]
      exact isValid_new ..
  words := by
    intro r member
    obtain user | marker := mem_append.mp member
    · exact (b.wellBuilt_userRecords _ _ r user).2
    · rw [mem_singleton.mp marker]
      have small : b.opCount < 2 ^ 64 := b.count.trans_lt (by decide)
      exact ⟨wrap64_lt _, small, Nat.two_pow_pos 64⟩

end WriteBatch

def readPointer (heap : Bytes) (p : ValuePointer) : Except OmniError Bytes :=
  match Bytes.readExactAt heap p.offset (storedLength p.length) with
  | none => .error (.ioError "failed to fill whole buffer")
  | some stored => decodePayload p.length p.crc stored

/-- `v` carries out an operation on a key: a deletion, or a set whose value is in the
heap. -/
structure Realizes (heap : Bytes) (v : Version) (op : Bytes × Option Write) : Prop where
  key : v.key = op.1
  tombstone : op.2 = none → v.IsTombstone
  value : ∀ w, op.2 = some w → ¬v.IsTombstone ∧ v.pointer.expiry = w.expiry ∧
    readPointer heap v.pointer = .ok w.value

theorem seq_setRecords (room : seq + ps.length < 2 ^ 64) :
    (setRecords seq offset ps).map OmniRecord.seq = List.range' seq ps.length := by
  induction ps generalizing seq offset with
  | nil => rfl
  | cons p ps ih =>
    rw [length_cons] at room
    rw [setRecords, map_cons, wrap64_of_lt (by omega), ih (by omega), length_cons, range'_succ]
    rfl

theorem seq_deleteRecords (room : seq + keys.length < 2 ^ 64) :
    (deleteRecords seq keys).map OmniRecord.seq = List.range' seq keys.length := by
  induction keys generalizing seq with
  | nil => rfl
  | cons key keys ih =>
    rw [length_cons] at room
    rw [deleteRecords, map_cons, wrap64_of_lt (by omega), ih (by omega), length_cons, range'_succ]
    rfl

theorem le_offset_setRecords (room : offset + (ps.map fun p => storedLength p.length).sum < 2 ^ 64)
    (member : r ∈ setRecords seq offset ps) : offset ≤ r.offset := by
  induction ps generalizing seq offset with
  | nil => cases member
  | cons p ps ih =>
    rw [map_cons, sum_cons] at room
    rw [setRecords, wrap64_of_lt (show offset + storedLength p.length < 2 ^ 64 by omega)] at member
    obtain first | rest := mem_cons.mp member
    · exact first ▸ le_rfl
    · have bound := ih (by omega) rest
      omega

/-- The records of a batch without empty values have ascending offsets. -/
theorem pairwise_offset_setRecords (filled : ∀ p ∈ ps, 0 < storedLength p.length)
    (room : offset + (ps.map fun p => storedLength p.length).sum < 2 ^ 64) :
    (setRecords seq offset ps).Pairwise fun r r' => r.offset < r'.offset := by
  induction ps generalizing seq offset with
  | nil => exact .nil
  | cons p ps ih =>
    rw [map_cons, sum_cons] at room
    obtain ⟨here, later⟩ := forall_mem_cons.mp filled
    have total : offset + storedLength p.length + (ps.map fun p => storedLength p.length).sum <
        2 ^ 64 := by
      omega
    rw [setRecords, wrap64_of_lt (show offset + storedLength p.length < 2 ^ 64 by omega)]
    refine pairwise_cons.mpr ⟨fun r member => ?_, ih later total⟩
    have bound := le_offset_setRecords total member
    show offset < r.offset
    omega

/-- The sets of a batch, once their payloads are in the heap. -/
theorem realizes_setRecords {heap : Bytes} {ws : List Write}
    (sizes : ∀ w ∈ ws, w.value.length ≤ maxValueSize)
    (room : offset + ((ws.map prepWrite).flatMap PreppedWrite.bytes).length < 2 ^ 64)
    (written : Bytes.readExactAt heap offset
    ((ws.map prepWrite).flatMap PreppedWrite.bytes).length =
      some ((ws.map prepWrite).flatMap PreppedWrite.bytes)) :
    List.Forall₂ (Realizes heap) ((setRecords seq offset (ws.map prepWrite)).map version)
      (ws.map fun w => (w.key, some w)) := by
  induction ws generalizing seq offset with
  | nil => exact .nil
  | cons w ws ih =>
    have size := sizes w (.head _)
    have length := storedLength_prepWrite size
    simp only [map_cons, flatMap_cons] at room written
    obtain ⟨here, rest⟩ := Bytes.readExactAt_append_eq_some written
    rw [length_append] at room
    refine .cons ?_ ?_
    · refine ⟨key_prepWrite w, nofun, ?_⟩
      rintro w' ⟨⟩
      refine ⟨length_prepWrite_ne_zero w, expiry_prepWrite w, ?_⟩
      simp only [version, OmniRecord.pointer, OmniRecord.new, readPointer, length, here]
      exact decodePayload_prepWrite size
    · rw [length, wrap64_of_lt (n := offset + _) (by omega)]
      exact ih (fun x hx => sizes x (.tail _ hx)) (by omega) rest

theorem exists_prepped_of_mem_setRecords (member : r ∈ setRecords seq offset ps) :
    ∃ p ∈ ps, r.length = p.length := by
  induction ps generalizing seq offset with
  | nil => cases member
  | cons p ps ih =>
    obtain here | later := mem_cons.mp member
    · exact ⟨p, .head _, here ▸ rfl⟩
    · obtain ⟨q, hq, same⟩ := ih later
      exact ⟨q, .tail _ hq, same⟩

theorem isTombstone_of_mem_deleteRecords (member : r ∈ deleteRecords seq keys) :
    r.version.IsTombstone := by
  induction keys generalizing seq with
  | nil => cases member
  | cons key keys ih =>
    obtain here | later := mem_cons.mp member
    · exact here ▸ rfl
    · exact ih later

theorem realizes_deleteRecords (heap : Bytes) (seq : ℕ) (keys : List Bytes) :
    List.Forall₂ (Realizes heap) ((deleteRecords seq keys).map version) (keys.map fun key =>
      (key, none)) := by
  induction keys generalizing seq with
  | nil => exact .nil
  | cons key keys ih =>
    refine .cons ⟨rfl, fun _ => rfl, (fun w h => nomatch h)⟩ ?_
    exact ih (wrap64 (seq + 1))

namespace WriteBatch

/-- The operations of a batch in the order in which a commit numbers them. -/
def ops : List (Bytes × Option Write) :=
  b.bufferedWrites.map (fun w => (w.key, some w)) ++ b.bufferedDeletes.map fun key => (key, none)

/-- The records of a batch have the keys of its operations. -/
theorem key_userRecords (baseSeq offset : ℕ) :
    (b.userRecords baseSeq offset).map key = b.ops.map Prod.fst := by
  simp [userRecords, ops, prepped, key_setRecords, key_deleteRecords, Function.comp_def]

variable {b : WriteBatch} {baseSeq offset : ℕ} {r : OmniRecord}

theorem keysFit_logBatch (keys : ∀ op ∈ b.ops, op.1.length ≤ 65535)
    (baseSeq offset : ℕ) : (b.logBatch baseSeq offset).KeysFit := by
  intro r member
  have key : r.key ∈ b.ops.map Prod.fst :=
    b.key_userRecords baseSeq offset ▸ mem_map_of_mem member
  obtain ⟨op, hop, same⟩ := mem_map.mp key
  exact same ▸ keys op hop

theorem length_payloads (b : WriteBatch) : b.payloads.length = b.totalHeapBytes := by
  have each : ∀ w ∈ b.bufferedWrites, (prepWrite w).bytes.length = storedLength
      (prepWrite w).length :=
    fun w hw => (storedLength_prepWrite (b.values w hw)).symm
  simp only [payloads, totalHeapBytes, prepped, length_flatMap, map_map]
  exact congrArg List.sum (map_congr_left each)

variable (room : baseSeq + b.opCount < 2 ^ 64)

include room

/-- The sequence numbers of a batch are consecutive. -/
theorem seq_userRecords :
    (b.userRecords baseSeq offset).map OmniRecord.seq = List.range' baseSeq b.opCount := by
  simp only [opCount] at room
  have sets : (b.prepped).length = b.bufferedWrites.length := by simp [prepped]
  rw [userRecords, wrap64_of_lt (by omega), wrap64_of_lt (n := baseSeq + _) (by omega),
    map_append, seq_setRecords (by omega), seq_deleteRecords (by omega), sets, range'_append_1,
    opCount]

variable (member : r ∈ (b.logBatch baseSeq offset).records)

include member

theorem seq_of_mem_logBatch : baseSeq ≤ r.seq ∧ r.seq < baseSeq + b.opCount := by
  have inRange : r.seq ∈ List.range' baseSeq b.opCount := by
    rw [← seq_userRecords room]
    exact mem_map_of_mem member
  exact mem_range'_1.mp inRange

theorem eq_of_seq_eq {r' : OmniRecord}
    (member' : r' ∈ (b.logBatch baseSeq offset).records) (same : r.seq = r'.seq) : r = r' := by
  have nodup : ((b.logBatch baseSeq offset).records.map OmniRecord.seq).Nodup := by
    show ((b.userRecords baseSeq offset).map OmniRecord.seq).Nodup
    rw [seq_userRecords room]
    exact nodup_range'
  exact inj_on_of_nodup_map nodup member member' same

/-- The first sequence number goes to the first operation. -/
theorem key_of_seq_eq (first : r.seq = baseSeq) : ∃ op ∈ b.ops.head?, r.key = op.1 := by
  have seqs : (b.userRecords baseSeq offset).map OmniRecord.seq = List.range' baseSeq b.opCount :=
    seq_userRecords room
  have keys := b.key_userRecords baseSeq offset
  cases records : b.userRecords baseSeq offset with
  | nil =>
    have member : r ∈ b.userRecords baseSeq offset := member
    rw [records] at member
    cases member
  | cons r₀ rest =>
    have here : r₀ ∈ b.userRecords baseSeq offset := by
      rw [records]
      exact .head _
    rw [records] at seqs keys
    have start : r₀.seq = baseSeq := by
      cases count : b.opCount with
      | zero => simp [count] at seqs
      | succ n =>
        rw [count] at seqs
        exact (List.cons.inj seqs).1
    obtain rfl := eq_of_seq_eq room member here (first.trans start.symm)
    cases ops : b.ops with
    | nil => simp [ops] at keys
    | cons op _ =>
      rw [ops] at keys
      exact ⟨op, rfl, (List.cons.inj keys).1⟩

omit room member

/-- Every operation of a batch has its version, once the payloads are in the heap. -/
theorem realizes_userRecords {heap : Bytes} (room : offset + b.totalHeapBytes < 2 ^ 64)
    (written : Bytes.readExactAt heap offset b.payloads.length = some b.payloads) :
    List.Forall₂ (Realizes heap) ((b.userRecords baseSeq offset).map version) b.ops := by
  have total := b.length_payloads
  rw [userRecords, map_append, wrap64_of_lt (n := offset) (by omega)]
  exact rel_append (realizes_setRecords b.values (by rw [← total] at room; exact room) written)
    (realizes_deleteRecords heap _ _)

end WriteBatch

end OmniKV
