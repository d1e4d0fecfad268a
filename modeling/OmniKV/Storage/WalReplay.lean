import OmniKV.Data.Checked
import OmniKV.Storage.Batch

/-!
# Replay of a log

A log that was cut off anywhere gives the batches in front of the cut, and bytes of any other kind
give whole batches with matching checksums only. A key of more than 65535 bytes is written with a
wrong length, so its batch is not read back, and no batch behind it is.
-/

namespace OmniKV

open List
open Bytes (le ofLe)
open OmniRecord (encode decode)
open Checked

section

variable [External]

/-- A complete frame: a batch of valid records and the four bytes behind it. -/
structure WalFrame where
  records : List OmniRecord
  trailer : Bytes
  replayable : Replayable records
  trailer_length : trailer.length = 4

namespace WalFrame

variable (f : WalFrame)

def bytes : Bytes := batchBuf f.records ++ f.trailer

def Committed : Prop :=
  ofLe f.trailer = (crc32 (batchBuf f.records)).toNat ∧
    (f.records.getLast f.replayable.nonempty).key = commitMarkerKey
deriving Decidable

/-- The records that a frame contributes: all but the marker, or none. -/
def returned : List OmniRecord := if f.Committed then f.records.dropLast else []

theorem returned_eq : f.returned =
    if ofLe f.trailer = (crc32 (batchBuf f.records)).toNat then committedRecords f.records else
      [] := by
  rw [committedRecords, getLast?_eq_some_getLast f.replayable.nonempty, returned]
  by_cases checksum : ofLe f.trailer = (crc32 (batchBuf f.records)).toNat <;>
    simp [Committed, checksum]

theorem readFrame_bytes (rest : Bytes) : readFrame (f.bytes ++ rest) = some (f.returned, rest) := by
  rw [bytes, append_assoc, readFrame_append f.replayable f.trailer_length, returned_eq]

theorem flatMap_returned (frames : List WalFrame) : frames.flatMap returned =
    (frames.filter fun f => f.Committed).flatMap fun f => f.records.dropLast := by
  induction frames with
  | nil => rfl
  | cons f frames ih =>
    rw [flatMap_cons, ih, returned]
    by_cases committed : f.Committed <;> simp [committed]

theorem count_bytes : ofLe (f.bytes.take 4) = f.records.length := by
  rw [bytes, batchBuf, append_assoc, ofLe_take_count f.replayable.count]

theorem fits_of_mem_returned {f : WalFrame} {r : OmniRecord} (member : r ∈ f.returned) :
    r.Fits := by
  rw [returned] at member
  split_ifs at member
  · exact f.replayable.fits r (mem_of_mem_dropLast member)
  · cases member

end WalFrame

variable {records : List OmniRecord}

theorem eq_flatMap_of_decodeRecords {count used : ℕ} {buf : Bytes}
    (read : decodeRecords count buf = some (records, used)) :
    records.length = count ∧ (∀ r ∈ records, r.isValid) ∧ (∀ r ∈ records, r.Fits) ∧
      records.flatMap encode = buf.take used ∧ used ≤ buf.length := by
  induction count generalizing buf records used with
  | zero =>
    cases read
    exact ⟨rfl, nofun, nofun, rfl, Nat.zero_le _⟩
  | succ count ih =>
    obtain ⟨⟨r, len⟩, first, read⟩ := Option.bind_eq_some_iff.mp read
    obtain ⟨⟨rs, used'⟩, rest, read⟩ := Option.bind_eq_some_iff.mp read
    cases read
    obtain ⟨valid, fits, encoded⟩ := OmniRecord.encode_of_decode first
    obtain ⟨-, inside⟩ := OmniRecord.decode_bounds first
    obtain ⟨length, valids, allFit, encodeds, inside'⟩ := ih rest
    rw [length_drop] at inside'
    refine ⟨congrArg (· + 1) length, forall_mem_cons.mpr ⟨valid, valids⟩,
      forall_mem_cons.mpr ⟨fits, allFit⟩, ?_, by omega⟩
    rw [flatMap_cons, encoded, encodeds, take_add]

theorem exists_frame_of_readFrame {data rest : Bytes}
    (read : readFrame data = some (records, rest)) : ∃ f : WalFrame, data = f.bytes ++ rest ∧
    records = f.returned := by
  have parts := read
  simp only [readFrame] at parts
  split_ifs at parts with header count
  split at parts
  · cases parts
  · rename_i all used decoded
    obtain ⟨length, valid, fits, encoded, inside⟩ := eq_flatMap_of_decodeRecords decoded
    have batch : batchBuf all = data.take (4 + used) := by
      have word : le 4 (ofLe (data.take 4)) = data.take 4 := by
        have same := Bytes.le_ofLe (data.take 4)
        rwa [length_take_of_le (not_lt.mp header)] at same
      rw [batchBuf, length, word, encoded, take_add]
    have behind : 4 ≤ (data.drop (4 + used)).length := by
      by_contra cut
      rw [if_pos (not_le.mp cut)] at parts
      cases parts
    have ok : Replayable all := ⟨by rintro rfl; exact count (.inr length.symm), by omega, valid,
      fits⟩
    let f : WalFrame := ⟨all, (data.drop (4 + used)).take 4, ok, length_take_of_le behind⟩
    have layout : data = f.bytes ++ (data.drop (4 + used)).drop 4 := by
      change data = batchBuf all ++ (data.drop (4 + used)).take 4 ++ (data.drop (4 + used)).drop 4
      rw [batch, append_assoc, take_append_drop, take_append_drop]
    -- Reading the frame back settles what the checks have decided.
    rw [layout, f.readFrame_bytes] at read
    obtain ⟨rfl, rfl⟩ := Prod.mk.inj (Option.some.inj read)
    exact ⟨f, layout, rfl⟩

/-- Replay returns what the frames in front contribute. The rest does not begin with a frame. -/
theorem exists_frames (data : Bytes) : ∃ (frames : List WalFrame) (rest : Bytes),
    data = frames.flatMap WalFrame.bytes ++ rest ∧ (∀ f : WalFrame, ¬f.bytes <+: rest) ∧
      replay data = frames.flatMap WalFrame.returned := by
  induction size : data.length using Nat.strong_induction_on generalizing data with
  | _ size ih =>
    cases read : readFrame data with
    | none =>
      refine ⟨[], data, rfl, ?_, replay_eq_nil read⟩
      rintro f ⟨rest, rfl⟩
      rw [f.readFrame_bytes rest] at read
      cases read
    | some turn =>
      obtain ⟨records, rest⟩ := turn
      have shorter := length_lt_of_readFrame read
      obtain ⟨f, layout, rfl⟩ := exists_frame_of_readFrame read
      obtain ⟨frames, rest', layout', stop, returned⟩ := ih _ (by omega) rest rfl
      refine ⟨f :: frames, rest', ?_, stop, ?_⟩
      · rw [layout, layout', flatMap_cons, append_assoc]
      · rw [replay_eq_append read, returned, flatMap_cons]

theorem fits_of_mem_replay {data : Bytes} {r : OmniRecord} (member : r ∈ replay data) : r.Fits := by
  obtain ⟨frames, -, -, -, returned⟩ := exists_frames data
  rw [returned] at member
  obtain ⟨f, -, member⟩ := mem_flatMap.mp member
  exact f.fits_of_mem_returned member

/-- `OmniRecord::decode` with the bounds of its reads. -/
def OmniRecord.decodeChecked (buf : Bytes) : Checked Empty (Option (OmniRecord × ℕ)) :=
  if buf.length < 42 then pure none else do
    let keyLen := ofLe (← slice buf 8 10)
    if buf.length < 42 + keyLen then pure none else do
      let seq ← slice buf 0 8
      let key ← slice buf 10 (10 + keyLen)
      let off := 10 + keyLen
      let offset ← slice buf off (off + 8)
      let length ← slice buf (off + 8) (off + 16)
      let payloadCrc32 ← slice buf (off + 16) (off + 20)
      let expiry ← slice buf (off + 20) (off + 28)
      let crc32 ← slice buf (off + 28) (off + 32)
      let r : OmniRecord :=
        ⟨ofLe seq, key, ofLe offset, ofLe length, .ofNat (ofLe crc32), .ofNat (ofLe payloadCrc32),
          .ofNat (ofLe expiry)⟩
      pure (if r.isValid then some (r, 42 + keyLen) else none)

/-- Read so many records of the file from an offset on, and tell where they end. -/
def readRecords (data : Bytes) : ℕ → ℕ → Checked Empty (Option (List OmniRecord × ℕ))
  | 0, offset => pure (some ([], offset))
  | count + 1, offset =>
    if offset ≥ data.length then pure none else do
      match ← OmniRecord.decodeChecked (← sliceFrom data offset) with
      | none => pure none
      | some (r, len) =>
        let more ← readRecords data count (offset + len)
        pure (more.map fun (rs, stop) => (r :: rs, stop))

/-- The loop of `replay` with the bounds of its reads. Running out of turns counts as a panic. -/
def replayFrom (data : Bytes) : ℕ → ℕ → Checked Empty (List OmniRecord)
  | 0, _ => crash
  | turns + 1, offset =>
    if offset + 4 ≤ data.length then do
      let count := ofLe (← slice data offset (offset + 4))
      if count > maxReplayCount ∨ count = 0 then pure [] else do
        allocate (64 * count)
        match ← readRecords data count (offset + 4) with
        | none => pure []
        | some (records, stop) =>
          if stop + 4 ≤ data.length then do
            let stored := ofLe (← slice data stop (stop + 4))
            let batch ← slice data offset stop
            if stored ≠ (crc32 batch).toNat then replayFrom data turns (stop + 4)
            else if records.isEmpty then pure [] else do
              let last ← index records (records.length - 1)
              let later ← replayFrom data turns (stop + 4)
              pure ((if last.key = commitMarkerKey then records.dropLast else []) ++ later)
          else pure []
    else pure []

/-- The most that replay allocates for the records of one batch. -/
def replayMemory : ℕ := 64 * maxReplayCount

theorem OmniRecord.safe_decodeChecked {bound : ℕ} (buf : Bytes) :
    Safe bound (decodeChecked buf) (· = decode buf) := by
  rw [decode]
  refine .ite (fun short => ?_) fun header => ?_
  · exact .pure (if_pos short).symm
  refine .bind (.slice (by omega) (by omega)) ?_
  rintro _ rfl
  refine .ite (fun short => ?_) fun whole => ?_
  · refine .pure ?_
    rw [if_neg header]
    exact (if_pos short).symm
  -- The remaining seven fields end where the record ends.
  iterate 7
    refine .bind (.slice (by omega) (by omega)) ?_
    rintro _ rfl
  refine .pure ?_
  rw [if_neg header]
  exact (if_neg whole).symm

theorem safe_readRecords {bound : ℕ} (data : Bytes) (count : ℕ) {offset : ℕ}
    (inside : offset ≤ data.length) : Safe bound (readRecords data count offset)
      (· = (decodeRecords count (data.drop offset)).map fun (rs, used) => (rs, offset + used)) := by
  induction count generalizing offset with
  | zero => exact .pure rfl
  | succ count ih =>
    rw [decodeRecords]
    refine .ite (fun ended => ?_) fun more => ?_
    · rw [drop_eq_nil_of_le ended]
      exact .pure rfl
    refine .bind (.sliceFrom inside) ?_
    rintro _ rfl
    refine .bind (OmniRecord.safe_decodeChecked _) ?_
    rintro _ rfl
    cases read : decode (data.drop offset) with
    | none => exact .pure rfl
    | some first =>
      obtain ⟨r, len⟩ := first
      have bounds := OmniRecord.decode_bounds read
      rw [length_drop] at bounds
      refine .bind (ih (by omega)) ?_
      rintro _ rfl
      refine .pure ?_
      rw [← drop_drop, Option.bind_eq_bind, Option.bind_some]
      dsimp only
      cases decodeRecords count ((data.drop offset).drop len) with
      | none => rfl
      | some rest => simp [add_assoc]

omit [External] in
theorem committedRecords_eq {last : OmniRecord} (here : records[records.length - 1]? = some last) :
    committedRecords records = if last.key = commitMarkerKey then records.dropLast else [] := by
  rw [← getLast?_eq_getElem?] at here
  simp only [committedRecords, here]

/-- Replay reads inside the file only, and as many turns as there are bytes suffice. -/
theorem safe_replayFrom (data : Bytes) {turns offset : ℕ} (inside : offset ≤ data.length)
    (enough : data.length - offset < turns) :
    Safe replayMemory (replayFrom data turns offset) (· = replay (data.drop offset)) := by
  induction turns generalizing offset with
  | zero => omega
  | succ turns ih =>
    have whole : (data.drop offset).length = data.length - offset := length_drop
    refine .ite (fun header => ?_) fun short => ?_
    · refine .bind (.slice (by omega) header) ?_
      rintro _ rfl
      rw [Nat.add_sub_cancel_left]
      have start : readFrame (data.drop offset) = _ := if_neg (by omega)
      refine .ite (fun bad => ?_) fun bounds => ?_
      · exact .pure (replay_eq_nil (start.trans (if_pos bad))).symm
      rw [if_neg bounds, drop_drop] at start
      refine .bind (.allocate (by rw [replayMemory]; omega)) fun _ _ => ?_
      refine .bind (safe_readRecords data _ header) ?_
      rintro _ rfl
      cases decoded : decodeRecords (ofLe ((data.drop offset).take 4)) (data.drop (offset + 4)) with
      | none =>
        rw [decoded] at start
        exact .pure (replay_eq_nil start).symm
      | some read =>
        obtain ⟨records, used⟩ := read
        obtain ⟨length, -, -, -, fits⟩ := eq_flatMap_of_decodeRecords decoded
        rw [decoded] at start
        dsimp only [Option.map_some] at start ⊢
        rw [drop_drop, drop_drop, length_drop, ← Nat.add_assoc] at start
        refine .ite (fun trailer => ?_) fun missing => ?_
        · rw [if_neg (by omega)] at start
          refine .bind (.slice (by omega) trailer) ?_
          rintro _ rfl
          refine .bind (.slice (by omega) (by omega)) ?_
          rintro _ rfl
          have size : offset + 4 + used - offset = 4 + used := by omega
          rw [Nat.add_sub_cancel_left, size]
          refine .ite (fun mismatch => ?_) fun checksum => ?_
          · rw [if_pos mismatch] at start
            rw [replay_eq_append start]
            exact ih trailer (by omega)
          · rw [if_neg checksum] at start
            have nonempty : records.length ≠ 0 := fun zero => bounds (.inr (length.symm.trans zero))
            refine .ite (fun empty => ?_) fun _ => ?_
            · exact absurd (length_eq_zero_iff.mpr (isEmpty_iff.mp empty)) nonempty
            refine .bind (.index (by omega)) fun last here => ?_
            refine .bind (ih trailer (by omega)) ?_
            rintro _ rfl
            refine .pure ?_
            rw [replay_eq_append start, committedRecords_eq here]
        · rw [if_pos (by omega)] at start
          exact .pure (replay_eq_nil start).symm
    · refine .pure (replay_eq_nil ?_).symm
      rw [readFrame, if_pos (by omega)]

/-- Bytes of any kind are read inside the file, with a bounded allocation, and fall into frames up
to some rest. Replay returns the committed frames, with matching checksums and without the marker.
-/
theorem replay_arbitrary (data : Bytes) : ∃ (frames : List WalFrame) (rest : Bytes),
    data = frames.flatMap WalFrame.bytes ++ rest ∧ (∀ f : WalFrame, ¬f.bytes <+: rest) ∧
      (∃ n ≤ replayMemory, replayFrom data (data.length + 1) 0 =
        some (.ok ((frames.filter fun f => f.Committed).flatMap fun f => f.records.dropLast), n)) ∧
      ∀ f ∈ frames, (∀ r ∈ f.records, r.isValid) ∧ f.records.dropLast.length = ofLe
      (f.bytes.take 4) - 1 := by
  obtain ⟨frames, rest, layout, stop, returned⟩ := exists_frames data
  refine ⟨frames, rest, layout, stop, ?_, fun f _ => ⟨f.replayable.valid, ?_⟩⟩
  · have safe := safe_replayFrom data (Nat.zero_le _) (Nat.lt_succ_self _)
    rw [drop_zero, returned, WalFrame.flatMap_returned] at safe
    exact safe.exists_ok
  · rw [length_dropLast, f.count_bytes]

/-- A batch that the format can hold: its last record, and no other, is a commit marker. -/
structure MarkedBatch where
  all : List OmniRecord
  nonempty : all ≠ []
  count : all.length ≤ maxReplayCount
  built : ∀ r ∈ all, WellBuilt r
  keys : ∀ r ∈ all, r.key.length ≤ 65535
  marker : (all.getLast nonempty).key = commitMarkerKey
  user : ∀ r ∈ all.dropLast, r.key ≠ commitMarkerKey

namespace MarkedBatch

def userRecords (b : MarkedBatch) : List OmniRecord := b.all.filter fun r => r.key ≠ commitMarkerKey

theorem replayable (b : MarkedBatch) : Replayable b.all where
  nonempty := b.nonempty
  count := b.count
  valid r member := (b.built r member).1
  fits r member :=
    have ⟨seq, offset, length⟩ := (b.built r member).2
    ⟨seq, Nat.lt_succ_of_le (b.keys r member), offset, length⟩

theorem committedRecords_all (b : MarkedBatch) : committedRecords b.all = b.userRecords := by
  have last : b.all.getLast? = some (b.all.getLast b.nonempty) :=
    getLast?_eq_some_getLast b.nonempty
  have split : b.userRecords = b.all.dropLast := by
    rw [userRecords, ← dropLast_append_getLast b.nonempty]
    simpa [b.marker] using b.user
  simp only [committedRecords, last]
  rw [if_pos b.marker, split]

def log (batches : List MarkedBatch) : Bytes := batches.flatMap fun b => encodeBatch b.all

theorem log_cons (b : MarkedBatch) (batches : List MarkedBatch) :
    log (b :: batches) = encodeBatch b.all ++ log batches :=
  rfl

end MarkedBatch

open MarkedBatch

/-- A log that is cut off anywhere gives the batches that lie in front of the cut, and nothing else.
-/
theorem replay_take_log (batches : List MarkedBatch) (cut : ℕ) : ∃ k ≤ batches.length,
    (log (batches.take k)).length ≤ cut ∧
      (k < batches.length → cut < (log (batches.take (k + 1))).length) ∧
      replay ((log batches).take cut) = (batches.take k).flatMap userRecords := by
  induction batches generalizing cut with
  | nil => exact ⟨0, le_rfl, Nat.zero_le cut, nofun, by rw [log, flatMap_nil, take_nil]; rfl⟩
  | cons b bs ih =>
    rw [log_cons]
    by_cases whole : (encodeBatch b.all).length ≤ cut
    · -- The first batch is there, and the cut falls somewhere behind it.
      obtain ⟨k, bound, before, behind, returned⟩ := ih (cut - (encodeBatch b.all).length)
      refine ⟨k + 1, Nat.succ_le_succ bound, ?_, ?_, ?_⟩
      · rw [take_succ_cons, log_cons, length_append]
        omega
      · intro more
        have rest := behind (Nat.lt_of_succ_lt_succ more)
        rw [take_succ_cons, log_cons, length_append]
        omega
      · rw [take_append, take_of_length_le whole,
          replay_eq_append (readFrame_encodeBatch b.replayable _),
          returned, b.committedRecords_all, take_succ_cons, flatMap_cons]
    · have short : cut < (encodeBatch b.all).length := not_le.mp whole
      have torn : readFrame ((encodeBatch b.all).take cut) = none :=
        readFrame_eq_none_of_truncated b.replayable (List.take_prefix cut _)
          (by rwa [length_take_of_le short.le])
      refine ⟨0, Nat.zero_le _, Nat.zero_le cut, fun _ => ?_, ?_⟩
      · rw [take_succ_cons, log_cons, length_append]
        omega
      · rw [take_append_of_le_length short.le, replay_eq_nil torn]
        rfl

/-- A batch of a transaction that does not use the key of the marker. -/
def LogBatch.marked (b : LogBatch) (keys : b.KeysFit)
    (user : ∀ r ∈ b.records, r.key ≠ commitMarkerKey) : MarkedBatch where
  all := b.all
  nonempty := (replayable keys).nonempty
  count := (replayable keys).count
  built r member := ⟨b.valid r member, b.words r member⟩
  keys r member := Nat.le_of_lt_succ ((replayable keys).fits r member).key
  marker := by simpa [LogBatch.all] using b.marker_key
  user := by simpa [LogBatch.all] using user

structure NumberedBatch where
  batch : WriteBatch
  baseSeq : ℕ
  offset : ℕ

namespace NumberedBatch

def logged (b : NumberedBatch) : LogBatch := b.batch.logBatch b.baseSeq b.offset

def log (batches : List NumberedBatch) : Bytes := LogBatch.frames (batches.map logged)

/-- Every key can be written with its length. -/
def ShortKeys (b : NumberedBatch) : Prop := ∀ op ∈ b.batch.ops, op.1.length ≤ 65535

end NumberedBatch

/-- Replay returns the records of all accepted batches exactly when no key exceeds 65535 bytes. -/
theorem replay_log_iff (batches : List NumberedBatch) :
    replay (NumberedBatch.log batches) = batches.flatMap (fun b =>
      b.batch.userRecords b.baseSeq b.offset) ↔ ∀ b ∈ batches, b.ShortKeys := by
  constructor
  · intro whole b member op performed
    have key : op.1 ∈ (b.batch.userRecords b.baseSeq b.offset).map OmniRecord.key := by
      rw [WriteBatch.key_userRecords]
      exact mem_map_of_mem performed
    obtain ⟨r, record, same⟩ := mem_map.mp key
    have returned : r ∈ replay (NumberedBatch.log batches) := by
      rw [whole]
      exact mem_flatMap.mpr ⟨b, member, record⟩
    rw [← same]
    exact Nat.le_of_lt_succ (fits_of_mem_replay returned).key
  · intro short
    have keys : ∀ logged ∈ batches.map NumberedBatch.logged, logged.KeysFit := by
      intro logged member
      obtain ⟨b, listed, rfl⟩ := mem_map.mp member
      exact WriteBatch.keysFit_logBatch (short b listed) _ _
    rw [NumberedBatch.log, LogBatch.replay_logBatches keys, flatMap_map]
    rfl

/-- A record that cannot be read ends the replay. -/
theorem readFrame_eq_none_of_decode {rest : Bytes} (unread : decode rest = none) (count : ℕ) :
    readFrame (le 4 count ++ rest) = none := by
  have stop : ∀ n ≠ 0, decodeRecords n rest = none := by
    intro n nonzero
    cases n with
    | zero => exact absurd rfl nonzero
    | succ n => rw [decodeRecords, unread]; rfl
  rw [readFrame, drop_left' (Bytes.length_le 4 count)]
  split_ifs with header
  · rfl
  · dsimp only
    split_ifs with bounds
    · rfl
    · rw [stop _ fun zero => bounds (.inr zero)]

end

section

open Reference

def sampleMarked : MarkedBatch :=
  (sampleWrite.logBatch 1 0).marked (by unfold LogBatch.KeysFit; decide) (by decide)

/-- Of two batches in the log the second is cut off. -/
theorem replay_cut_second : sampleMarked.userRecords ≠ [] ∧
    replay ((MarkedBatch.log [sampleMarked, sampleMarked]).take 120) =
      sampleMarked.userRecords := by
  have length : (encodeBatch sampleMarked.all).length = 110 := by decide +kernel
  obtain ⟨k, bound, before, behind, returned⟩ := replay_take_log [sampleMarked, sampleMarked] 120
  obtain rfl : k = 1 := by
    obtain rfl | rfl | rfl : k = 0 ∨ k = 1 ∨ k = 2 := by
      simp only [length_cons, length_nil] at bound
      omega
    · simp [MarkedBatch.log, length] at behind
    · rfl
    · simp [MarkedBatch.log, length] at before
  exact ⟨by decide, returned.trans (append_nil _)⟩

/-- The batch that sets one key to `v`. -/
def sampleKeyed (key : Bytes) : WriteBatch where
  bufferedWrites := [⟨key, Bytes.ofString "v", 0⟩]
  bufferedDeletes := []
  count := by simp [maxBatchSize]
  values := by simpa using by decide

theorem decode_sampleKeyed {key head tail : Bytes} (split : key = head ++ tail)
    (size : head.length = 32) (wrapped : key.length % 65536 = 0) (rest : Bytes) :
    decode (((sampleKeyed key).userRecords 1 0).flatMap encode ++ rest) = decode
      (le 8 1 ++ le 2 0 ++ head) := by
  change decode ((encode _ ++ []) ++ rest) = _
  rw [append_nil, OmniRecord.decode_encode_of_wrapped split size wrapped]
  rfl

/-- A batch with a key of 65536 bytes is accepted. Replay returns neither it nor the batch behind
it. -/
theorem long_key_ends_replay :
    WriteBatch.new.set (List.replicate 65536 97) (Bytes.ofString "v") =
      .ok (sampleKeyed (List.replicate 65536 97)) ∧ (sampleWrite.userRecords 2 1).length = 1 ∧
      replay (NumberedBatch.log [⟨sampleKeyed (List.replicate 65536 97), 1, 0⟩,
      ⟨sampleWrite, 2, 1⟩]) = [] := by
  refine ⟨rfl, sampleWrite.length_userRecords 2 1, replay_eq_nil ?_⟩
  have split : List.replicate 65536 (97 : UInt8) =
      List.replicate 32 97 ++ List.replicate 65504 97 := by
    rw [replicate_append_replicate]
  have wrapped : (List.replicate 65536 (97 : UInt8)).length % 65536 = 0 := by
    rw [length_replicate]
  have unread (rest : Bytes) : decode
      (((sampleKeyed (List.replicate 65536 97)).userRecords 1 0).flatMap encode ++ rest) =
      none := by
    rw [decode_sampleKeyed split length_replicate wrapped]
    decide +kernel
  have layout : NumberedBatch.log [⟨sampleKeyed (List.replicate 65536 97), 1, 0⟩,
      ⟨sampleWrite, 2, 1⟩] = _ :=
    LogBatch.frames_append [_] [_]
  rw [layout, LogBatch.frames_singleton, encodeBatch, batchBuf, LogBatch.all, flatMap_append,
    append_assoc, append_assoc, append_assoc]
  exact readFrame_eq_none_of_decode (unread _) _

end

end OmniKV
