import OmniKV.Storage.Record
import OmniKV.Storage.Reference

/-!
# The write-ahead log

Each committed batch is one frame of the log: a record count, the records, the last of
which is the commit marker, and a checksum of all of that. Replay cuts the file into
frames from its start. A frame whose checksum fails is skipped, a frame without a
marker is dropped, and the first frame that cannot be read at all ends the replay.
-/

namespace OmniKV

open List
open Bytes (le ofLe)
open OmniRecord

/-- The key of the record that closes every batch. -/
def commitMarkerKey : Bytes := Bytes.ofString "__COMMIT_MARKER__"

/-- Replay takes a larger record count for corruption. -/
def maxReplayCount : ℕ := 100000

/-- The number of operations a `WriteBatch` accepts. -/
def maxBatchSize : ℕ := 10000

/-- The checksummed part of a frame. -/
def batchBuf (records : List OmniRecord) : Bytes :=
  le 4 records.length ++ records.flatMap encode

@[simp] theorem length_batchBuf (records : List OmniRecord) :
    (batchBuf records).length = 4 + (records.flatMap encode).length := by
  simp [batchBuf]

theorem ofLe_take_count {records : List OmniRecord} (count : records.length ≤ maxReplayCount)
    (rest : Bytes) : ofLe ((le 4 records.length ++ rest).take 4) = records.length := by
  have fits : records.length < 256 ^ 4 := by
    simp only [maxReplayCount] at count
    omega
  rw [take_left' (Bytes.length_le 4 _), Bytes.ofLe_le_of_lt fits]

/-- The records of a complete batch without the marker, or nothing when the last record is not a
marker. -/
def committedRecords (records : List OmniRecord) : List OmniRecord :=
  match records.getLast? with
  | some last => if last.key = commitMarkerKey then records.dropLast else []
  | none => []

/-- The open log: what a reader sees, what has reached the disk, and the two counters of the handle.
-/
structure WriteAheadLog where
  data : Bytes
  synced : Bytes
  durableOffset : ℕ
  pending : ℕ
deriving DecidableEq, Repr

variable (w : WriteAheadLog)

namespace WriteAheadLog

/-- Open an existing file for appending. Its bytes count as durable, whatever they are. -/
def new (file : Bytes) : WriteAheadLog := ⟨file, file, file.length, 0⟩

/-- A successful fsync. -/
def sync : WriteAheadLog :=
  { w with synced := w.data, durableOffset := w.durableOffset + w.pending, pending := 0 }

/-- Truncate to the last offset known to be durable and fsync the file. -/
def discardUndurable : WriteAheadLog :=
  let file := w.data.take w.durableOffset ++
    List.replicate (w.durableOffset - w.data.length) 0
  { w with data := file, synced := file, pending := 0 }

/-- Start an empty segment. The truncation itself is not fsynced. -/
def rotateSegment : WriteAheadLog :=
  { w with data := [], durableOffset := 0, pending := 0 }

/-- What a crash may leave of the log file. A truncation that was not fsynced may be undone. -/
def Survives (file : Bytes) : Prop :=
  (file <+: w.data ∧ (w.synced <+: w.data → w.synced <+: file)) ∨
    (¬w.synced <+: w.data ∧ file = w.synced)

theorem Survives.eq_data {w : WriteAheadLog} {file : Bytes} (survives : w.Survives file)
    (synced : w.synced = w.data) : file = w.data := by
  obtain ⟨upper, lower⟩ | ⟨truncated, -⟩ := survives
  · have back := lower (synced ▸ prefix_rfl)
    rw [synced] at back
    exact upper.eq_of_length_le back.length_le
  · exact absurd (synced ▸ prefix_rfl) truncated

/-- What is left of a log whose truncation was not fsynced. -/
theorem Survives.of_rotated {w : WriteAheadLog} {file : Bytes}
    (survives : w.rotateSegment.Survives file) : file = [] ∨ file = w.synced := by
  obtain ⟨upper, -⟩ | ⟨-, undone⟩ := survives
  · exact .inl (prefix_nil.mp upper)
  · exact .inr undone

theorem survives_nil_of_rotated : w.rotateSegment.Survives [] :=
  .inl ⟨prefix_rfl, id⟩

end WriteAheadLog

section

variable [External]

/-- The bytes that `append_batch_nosync` writes for a batch. -/
def encodeBatch (records : List OmniRecord) : Bytes :=
  batchBuf records ++ le 4 (crc32 (batchBuf records)).toNat

/-- Read `count` records; the number of bytes they take. -/
def decodeRecords : ℕ → Bytes → Option (List OmniRecord × ℕ)
  | 0, _ => some ([], 0)
  | count + 1, buf => do
      let (r, len) ← decode buf
      let (rs, used) ← decodeRecords count (buf.drop len)
      return (r :: rs, len + used)

/-- One turn of the replay loop, or nothing when replay stops here. -/
def readFrame (data : Bytes) : Option (List OmniRecord × Bytes) :=
  if data.length < 4 then none else
  let count := ofLe (data.take 4)
  if count > maxReplayCount ∨ count = 0 then none else
  match decodeRecords count (data.drop 4) with
  | none => none
  | some (records, used) =>
    let trailer := data.drop (4 + used)
    if trailer.length < 4 then none
    else if ofLe (trailer.take 4) ≠ (crc32 (data.take (4 + used))).toNat then
      some ([], trailer.drop 4)
    else some (committedRecords records, trailer.drop 4)

def replayLoop : ℕ → Bytes → List OmniRecord
  | 0, _ => []
  | turns + 1, data =>
    match readFrame data with
    | none => []
    | some (records, rest) => records ++ replayLoop turns rest

def replay (data : Bytes) : List OmniRecord := replayLoop data.length data

/-- Whether replay can read a batch back: it is a complete batch of valid records that
fit their fields. -/
structure Replayable (records : List OmniRecord) : Prop where
  nonempty : records ≠ []
  count : records.length ≤ maxReplayCount
  valid : ∀ r ∈ records, r.isValid
  fits : ∀ r ∈ records, r.Fits

variable {records : List OmniRecord} {cut data : Bytes} {batches : List (List OmniRecord)}

theorem decodeRecords_flatMap_encode
    (valid : ∀ r ∈ records, r.isValid) (fits : ∀ r ∈ records, r.Fits) (rest : Bytes) :
    decodeRecords records.length (records.flatMap encode ++ rest) =
      some (records, (records.flatMap encode).length) := by
  induction records with
  | nil => rfl
  | cons r rs ih =>
    have tail := ih (fun x hx => valid x (.tail _ hx)) (fun x hx => fits x (.tail _ hx))
    have head := decode_encode (fits r (.head _)) (valid r (.head _)) (rs.flatMap encode ++ rest)
    simp only [length_cons, flatMap_cons, append_assoc, decodeRecords, head,
      length_append, Option.bind_eq_bind, Option.bind_some, drop_left, tail]
    rfl

theorem decodeRecords_eq_none_of_truncated (valid : ∀ r ∈ records, r.isValid)
    (fits : ∀ r ∈ records, r.Fits)
    (isPrefix : cut <+: records.flatMap encode)
    (short : cut.length < (records.flatMap encode).length) :
    decodeRecords records.length cut = none := by
  induction records generalizing cut with
  | nil => simp at short
  | cons r rs ih =>
    by_cases first : cut.length < r.encode.length
    · have inHead : cut <+: r.encode :=
        prefix_of_prefix_length_le isPrefix (prefix_append _ _) first.le
      simp [decodeRecords, decode_eq_none_of_truncated (fits r (.head _)).key inHead first]
    · -- The cut lies behind the first record, which is read in full.
      obtain ⟨tail, rfl⟩ : ∃ tail, cut = r.encode ++ tail := by
        obtain ⟨tail, h⟩ := prefix_of_prefix_length_le
          (prefix_append r.encode (rs.flatMap encode)) isPrefix (not_lt.mp first)
        exact ⟨tail, h.symm⟩
      have cutTail : tail <+: rs.flatMap encode := by
        simpa using isPrefix
      have shortTail : tail.length < (rs.flatMap encode).length := by
        simpa using short
      have missing := ih (fun x hx => valid x (.tail _ hx)) (fun x hx => fits x (.tail _ hx))
        cutTail shortTail
      have head := decode_encode (fits r (.head _)) (valid r (.head _)) tail
      simp only [length_cons, decodeRecords, head, Option.bind_eq_bind, Option.bind_some,
        drop_left, missing, Option.bind_none]

@[simp] theorem length_encodeBatch (records : List OmniRecord) :
    (encodeBatch records).length = 4 + (records.flatMap encode).length + 4 := by
  simp [encodeBatch]

variable (ok : Replayable records)

include ok

/-- A frame in front of other bytes is read as one turn of the loop, whatever its checksum is. -/
theorem readFrame_append {trailer : Bytes} (length : trailer.length = 4) (rest : Bytes) :
    readFrame (batchBuf records ++ (trailer ++ rest)) = some
      (if ofLe trailer = (crc32 (batchBuf records)).toNat then committedRecords records else
      [], rest) := by
  have nonzero : records.length ≠ 0 := fun h => ok.nonempty (length_eq_zero_iff.mp h)
  have bounds : ¬(records.length > maxReplayCount ∨ records.length = 0) := by
    have := ok.count
    omega
  have layout : batchBuf records ++ (trailer ++ rest) =
      le 4 records.length ++ (records.flatMap encode ++ (trailer ++ rest)) := by
    simp [batchBuf]
  have records_read : decodeRecords records.length ((batchBuf records ++ (trailer ++ rest)).drop
    4) =
      some (records, (records.flatMap encode).length) := by
    rw [layout, drop_left' (Bytes.length_le 4 _), decodeRecords_flatMap_encode ok.valid ok.fits]
  have count : ofLe ((batchBuf records ++ (trailer ++ rest)).take 4) = records.length := by
    rw [layout, ofLe_take_count ok.count]
  rw [readFrame, if_neg (by simp; omega), count, if_neg bounds, records_read]
  simp only [drop_left' (length_batchBuf records), take_left' (length_batchBuf records),
    take_left' length, drop_left' length]
  rw [if_neg (by simp; omega)]
  by_cases same : ofLe trailer = (crc32 (batchBuf records)).toNat
  · rw [if_neg (not_not.mpr same), if_pos same]
  · rw [if_pos same, if_neg same]

/-- A batch that was written whole is returned. -/
theorem readFrame_encodeBatch (rest : Bytes) :
    readFrame (encodeBatch records ++ rest) = some (committedRecords records, rest) := by
  have checksum : ofLe (le 4 (crc32 (batchBuf records)).toNat) = (crc32 (batchBuf records)).toNat :=
    Bytes.ofLe_le_of_lt (UInt32.toNat_lt _)
  rw [encodeBatch, append_assoc, readFrame_append ok (Bytes.length_le 4 _), if_pos checksum]

theorem readFrame_eq_none_of_truncated (isPrefix : cut <+: encodeBatch records)
    (short : cut.length < (encodeBatch records).length) : readFrame cut = none := by
  rw [readFrame]
  by_cases header : cut.length < 4
  · exact if_pos header
  obtain ⟨body, rfl⟩ : ∃ body, cut = le 4 records.length ++ body := by
    have count : le 4 records.length <+: encodeBatch records := by
      simp [encodeBatch, batchBuf]
    obtain ⟨body, h⟩ := prefix_of_prefix_length_le count isPrefix (by simp; omega)
    exact ⟨body, h.symm⟩
  have cutBody : body <+: records.flatMap encode ++ le 4 (crc32 (batchBuf records)).toNat := by
    simpa [encodeBatch, batchBuf] using isPrefix
  rw [ofLe_take_count ok.count, drop_left' (Bytes.length_le 4 _)]
  dsimp only
  split_ifs
  · rfl
  by_cases inside : body.length < (records.flatMap encode).length
  · have cutRecords : body <+: records.flatMap encode :=
      prefix_of_prefix_length_le cutBody (prefix_append _ _) inside.le
    rw [decodeRecords_eq_none_of_truncated ok.valid ok.fits cutRecords inside]
  · -- All records are there; what is missing is part of the checksum.
    obtain ⟨trailer, rfl⟩ : ∃ trailer, body = records.flatMap encode ++ trailer := by
      obtain ⟨trailer, h⟩ := prefix_of_prefix_length_le (prefix_append _ _) cutBody
        (not_lt.mp inside)
      exact ⟨trailer, h.symm⟩
    rw [decodeRecords_flatMap_encode ok.valid ok.fits]
    exact if_pos (by simp at short ⊢; omega)

omit ok

/-- A frame takes at least its count and its checksum. -/
theorem length_lt_of_readFrame {rest : Bytes}
    (read : readFrame data = some (records, rest)) : rest.length < data.length := by
  simp only [readFrame] at read
  split_ifs at read with header
  split at read
  next => cases read
  next used _ =>
    split_ifs at read <;>
      · obtain ⟨-, rfl⟩ := Prod.mk.inj (Option.some.inj read)
        simp only [length_drop]
        omega

/-- As many turns as there are bytes always suffice. -/
theorem replayLoop_eq_of_le {turns : ℕ} (enough : data.length ≤ turns) :
    replayLoop turns data = replay data := by
  suffices steady : ∀ turns turns' (data : Bytes), data.length ≤ turns → data.length ≤ turns' →
      replayLoop turns data = replayLoop turns' data from steady _ _ _ enough le_rfl
  intro turns
  induction turns with
  | zero =>
    intro turns' data h _
    obtain rfl := length_eq_zero_iff.mp (Nat.le_zero.mp h)
    cases turns' <;> rfl
  | succ turns ih =>
    intro turns' data h h'
    cases turns' with
    | zero =>
      obtain rfl := length_eq_zero_iff.mp (Nat.le_zero.mp h')
      rfl
    | succ turns' =>
      simp only [replayLoop]
      split
      next => rfl
      next records rest read =>
        have shorter := length_lt_of_readFrame read
        rw [ih turns' rest (by omega) (by omega)]

theorem replay_eq_nil (stop : readFrame data = none) : replay data = [] := by
  rw [← replayLoop_eq_of_le (Nat.le_succ _), replayLoop, stop]

theorem replay_eq_append {rest : Bytes}
    (read : readFrame data = some (records, rest)) : replay data = records ++ replay rest := by
  have shorter := length_lt_of_readFrame read
  rw [← replayLoop_eq_of_le (Nat.le_succ _), replayLoop, read]
  simp only
  rw [replayLoop_eq_of_le (by omega)]

@[simp] theorem replay_nil : replay [] = [] := rfl

/-- Replay returns the batches at the front of a log in order, then whatever the
remaining bytes give. -/
theorem replay_frames_append (ok : ∀ b ∈ batches, Replayable b) (rest : Bytes) :
    replay (batches.flatMap encodeBatch ++ rest) =
      batches.flatMap committedRecords ++ replay rest := by
  induction batches with
  | nil => rfl
  | cons b bs ih =>
    have head := readFrame_encodeBatch (ok b (.head _)) (bs.flatMap encodeBatch ++ rest)
    rw [flatMap_cons, flatMap_cons, append_assoc, replay_eq_append head,
      ih (fun x hx => ok x (.tail _ hx)), append_assoc]

theorem replay_frames (ok : ∀ b ∈ batches, Replayable b) :
    replay (batches.flatMap encodeBatch) = batches.flatMap committedRecords := by
  simpa using replay_frames_append ok []

theorem replay_frames_torn (ok : ∀ b ∈ batches, Replayable b) {next : List OmniRecord}
    (okNext : Replayable next)
    (isPrefix : cut <+: encodeBatch next) (short : cut.length < (encodeBatch next).length) :
    replay (batches.flatMap encodeBatch ++ cut) = batches.flatMap committedRecords := by
  rw [replay_frames_append ok, replay_eq_nil (readFrame_eq_none_of_truncated okNext isPrefix short),
    append_nil]

/-- A batch as the commit path logs it: the user's records, then the commit marker. -/
structure LogBatch where
  records : List OmniRecord
  marker : OmniRecord
  marker_key : marker.key = commitMarkerKey
  count : records.length ≤ maxBatchSize
  valid : ∀ r ∈ records ++ [marker], r.isValid
  words : ∀ r ∈ records ++ [marker], r.seq < 2 ^ 64 ∧ r.offset < 2 ^ 64 ∧ r.length < 2 ^ 64

namespace LogBatch

/-- The records in the order in which they are logged. -/
def all (b : LogBatch) : List OmniRecord := b.records ++ [b.marker]

/-- No key exceeds what the two-byte length field can express. -/
def KeysFit (b : LogBatch) : Prop := ∀ r ∈ b.records, r.key.length ≤ 65535

theorem replayable {b : LogBatch} (keys : b.KeysFit) : Replayable b.all where
  nonempty := by simp [all]
  count := by
    have bound : maxBatchSize + 1 ≤ maxReplayCount := by decide
    simp only [all, length_append]
    exact (Nat.succ_le_succ b.count).trans bound
  valid := b.valid
  fits := by
    intro r hr
    obtain ⟨hseq, hoffset, hlength⟩ := b.words r hr
    refine ⟨hseq, ?_, hoffset, hlength⟩
    obtain user | marker := mem_append.mp hr
    · exact Nat.lt_succ_of_le (keys r user)
    · rw [mem_singleton.mp marker, b.marker_key]
      decide

@[simp] theorem committedRecords_all (b : LogBatch) : committedRecords b.all = b.records := by
  simp [committedRecords, all, b.marker_key]

theorem replayable_of_mem {batches : List LogBatch} (keys : ∀ b ∈ batches, b.KeysFit) :
    ∀ records ∈ batches.map all, Replayable records := by
  intro records member
  obtain ⟨b, hb, rfl⟩ := mem_map.mp member
  exact replayable (keys b hb)

theorem flatMap_committedRecords (batches : List LogBatch) :
    (batches.map all).flatMap committedRecords = batches.flatMap LogBatch.records := by
  simp [flatMap_map]

def frames (batches : List LogBatch) : Bytes := (batches.map all).flatMap encodeBatch

@[simp] theorem frames_nil : frames [] = [] := rfl

@[simp] theorem frames_append (batches more : List LogBatch) :
    frames (batches ++ more) = frames batches ++ frames more := by
  simp [frames]

@[simp] theorem frames_singleton (b : LogBatch) : frames [b] = encodeBatch b.all := by
  simp [frames]

theorem replay_logBatches {batches : List LogBatch} (keys : ∀ b ∈ batches, b.KeysFit) :
    replay (frames batches) = batches.flatMap LogBatch.records := by
  rw [frames, replay_frames (replayable_of_mem keys), flatMap_committedRecords]

end LogBatch

namespace WriteAheadLog

def appendBatchNosync (w : WriteAheadLog) (records : List OmniRecord) : WriteAheadLog :=
  { w with
    data := w.data ++ encodeBatch records
    pending := w.pending + (encodeBatch records).length }

/-- Append and fsync a list of batches, as that many commits one after another do. -/
def commitAll (w : WriteAheadLog) (batches : List LogBatch) : WriteAheadLog :=
  batches.foldl (fun w b => (w.appendBatchNosync b.all).sync) w

theorem data_commitAll (batches : List LogBatch) :
    (w.commitAll batches).data = w.data ++ LogBatch.frames batches := by
  induction batches generalizing w with
  | nil => simp [commitAll]
  | cons b bs ih =>
    rw [commitAll, foldl_cons, ← commitAll, ih]
    simp [sync, appendBatchNosync, LogBatch.frames]

end WriteAheadLog

/-- A second recovery returns the batches of both runs when the crash left no partial frame, or
nothing was committed after it. -/
theorem replay_second_run {acked later : List LogBatch} (next : LogBatch) {torn : Bytes}
    (isPrefix : torn <+: encodeBatch next.all) (short : torn.length < (encodeBatch next.all).length)
    (keys : ∀ b ∈ next :: acked ++ later, b.KeysFit) (clean : torn = [] ∨ later = []) :
    replay (((WriteAheadLog.new (((WriteAheadLog.new []).commitAll acked).data ++ torn)).commitAll
      later).data) = (acked ++ later).flatMap LogBatch.records := by
  simp only [WriteAheadLog.data_commitAll, WriteAheadLog.new]
  obtain rfl | rfl := clean
  · have both : ∀ b ∈ acked ++ later, b.KeysFit := fun b hb => keys b (mem_cons_of_mem _ hb)
    simpa using LogBatch.replay_logBatches both
  · have first : ∀ b ∈ acked, b.KeysFit := fun b hb => keys b (by simp [hb])
    have torn := replay_frames_torn (LogBatch.replayable_of_mem first)
      (LogBatch.replayable (keys next (by simp))) isPrefix short
    rw [LogBatch.flatMap_committedRecords] at torn
    simpa [LogBatch.frames] using torn

end

section

open scoped Reference

/-- The batch that sets `k` to `v` in an empty database. -/
def sampleBatch : LogBatch where
  records := [new 1 (Bytes.ofString "k") 0 (2 ^ 63 + 1) (crc32 (Bytes.ofString "v")) 0]
  marker := new 2 commitMarkerKey 1 0 0 0
  marker_key := rfl
  count := by decide
  valid := by decide +kernel
  words := by decide +kernel

/-- The first four bytes of a batch stay behind, and the second recovery returns nothing behind
them. -/
theorem replay_second_run_loses_later : (Bytes.le 4 2 <+: encodeBatch sampleBatch.all) ∧
      (Bytes.le 4 2).length < (encodeBatch sampleBatch.all).length ∧
      replay
        (((WriteAheadLog.new (((WriteAheadLog.new []).commitAll []).data ++ Bytes.le 4 2)).commitAll
        [sampleBatch]).data) = [] ∧ ([] ++ [sampleBatch]).flatMap LogBatch.records ≠ [] := by
  decide +kernel

/-- A clean shutdown between two committed batches loses neither. -/
theorem replay_second_run_clean :
    replay
      (((WriteAheadLog.new (((WriteAheadLog.new []).commitAll [sampleBatch]).data ++ [])).commitAll
      [sampleBatch]).data) = ([sampleBatch] ++ [sampleBatch]).flatMap LogBatch.records := by
  have keys : sampleBatch.KeysFit := by
    simp only [LogBatch.KeysFit]
    decide +kernel
  exact replay_second_run sampleBatch nil_prefix (by decide +kernel) (by simp [keys]) (.inl rfl)

end

end OmniKV
