import Mathlib.Data.List.TakeWhile
import OmniKV.Storage.Record
import OmniKV.Storage.Bloom

/-!
# Table files

A table holds sorted records, a sparse index with the first key and the offset of every block, the
offset of the index and a magic number. Blocks are closed by size alone, so the versions of one key
may be split over two of them.
-/

namespace OmniKV

open List Option Bytes
open OmniRecord

def tableMagic : Bytes := Bytes.ofString "OMNIV2**"

def blockSize : ℕ := 4096

structure SSTableWriter where
  out : Bytes
  offset : ℕ
  index : List (Bytes × ℕ)
  currentBlockStartKey : Option Bytes

variable (w : SSTableWriter)

namespace SSTableWriter

def new : SSTableWriter := ⟨[], 0, [], none⟩

def append (r : OmniRecord) : SSTableWriter :=
  let index := if w.currentBlockStartKey.isNone then w.index ++ [(r.key, w.offset)] else w.index
  let startKey := if w.currentBlockStartKey.isNone then some r.key else w.currentBlockStartKey
  let offset := w.offset + r.encode.length
  let blockStart := (index.getLast?.map Prod.snd).getD 0
  { out := w.out ++ r.encode
    offset := offset
    index := index
    currentBlockStartKey := if offset - blockStart ≥ blockSize then none else startKey }

def encodeEntry (e : Bytes × ℕ) : Bytes := le 2 e.1.length ++ e.1 ++ le 8 e.2

def finish : Bytes :=
  w.out ++ le 8 w.index.length ++ w.index.flatMap encodeEntry ++ le 8 w.offset ++ tableMagic

end SSTableWriter

open SSTableWriter (encodeEntry)

def encodeTable (records : List OmniRecord) : Bytes :=
  (records.foldl SSTableWriter.append .new).finish

namespace SSTableReader

/-- Where the index starts, when the file ends in the magic number. -/
def indexOffset (data : Bytes) : Option ℕ :=
  if 16 ≤ data.length ∧ data.drop (data.length - 8) = tableMagic then
    some (ofLe (slice data (data.length - 16) (data.length - 8)))
  else none

def parseEntries : ℕ → Bytes → List (Bytes × ℕ)
  | 0, _ => []
  | count + 1, buf =>
    if buf.length < 2 then [] else
    let keyLen := ofLe (buf.take 2)
    let body := buf.drop 2
    if body.length < keyLen + 8 then [] else
    (body.take keyLen, ofLe (slice body keyLen (keyLen + 8))) ::
      parseEntries count (body.drop (keyLen + 8))

/-- The offset of the last block whose first key is at most `target`. -/
def seek (entries : List (Bytes × ℕ)) (target : Bytes) : ℕ :=
  ((entries.takeWhile fun e => e.1 ≤ target).getLast?.map Prod.snd).getD 0

def getBlockForKey (data target : Bytes) : ℕ :=
  match indexOffset data with
  | none => 0
  | some start =>
    if start ≥ data.length then 0 else
    let indexData := slice data start (data.length - 16)
    if indexData.length < 8 then 0 else
    seek (parseEntries (ofLe (indexData.take 8)) (indexData.drop 8)) target

section

variable [External]

/-- The records from an offset on, up to the index or the first that cannot be read. -/
def iterLoop (data : Bytes) (stop : Option ℕ) : ℕ → ℕ → List OmniRecord
  | 0, _ => []
  | turns + 1, offset =>
    if stop.any (· ≤ offset) then [] else
    match decode (data.drop offset) with
    | none => []
    | some (r, len) => r :: iterLoop data stop turns (offset + len)

def iterFrom (data startKey : Bytes) : List OmniRecord :=
  iterLoop data (indexOffset data) (data.length + 1) (getBlockForKey data startKey)

def allRecords (data : Bytes) : List OmniRecord :=
  iterLoop data (indexOffset data) (data.length + 1) 0

/-- The loop of `find`: the best record so far, over the records still to come. -/
def scanBest (target : Bytes) (readSeq : ℕ) :
    Option OmniRecord → List OmniRecord → Option OmniRecord
  | best, [] => best
  | best, r :: rs =>
    if target < r.key then best
    else if r.key = target ∧ r.isValid ∧ r.seq ≤ readSeq ∧ best.all (·.seq < r.seq) then
      scanBest target readSeq (some r) rs
    else scanBest target readSeq best rs

/-- The newest version of `target` at or below `readSeq` that the scan meets. -/
def findRecord (data target : Bytes) (readSeq : ℕ) : Option OmniRecord :=
  scanBest target readSeq none (iterFrom data target)

def find (data target : Bytes) (readSeq : ℕ) : Option ValuePointer :=
  (findRecord data target readSeq).map pointer

end

end SSTableReader

def nextBlock (start : Option ℕ) (offset : ℕ) (r : OmniRecord) : Option ℕ :=
  let blockStart := start.getD offset
  if offset + r.encode.length - blockStart ≥ blockSize then none else some blockStart

/-- The index entries for records written from `offset` on. -/
def blockIndex : Option ℕ → ℕ → List OmniRecord → List (Bytes × ℕ)
  | _, _, [] => []
  | start, offset, r :: rs =>
    let rest := blockIndex (nextBlock start offset r) (offset + r.encode.length) rs
    if start.isNone then (r.key, offset) :: rest else rest

def AlignedFrom : Option ℕ → ℕ → Option Bytes → List OmniRecord → Prop
  | _, _, _, [] => True
  | start, offset, previous, r :: rs =>
    (start = none → previous ≠ some r.key) ∧
      AlignedFrom (nextBlock start offset r) (offset + r.encode.length) (some r.key) rs

def Aligned (records : List OmniRecord) : Prop := AlignedFrom none 0 none records

instance decidableAlignedFrom : (start : Option ℕ) → (offset : ℕ) → (previous : Option Bytes) →
    (records : List OmniRecord) → Decidable (AlignedFrom start offset previous records)
  | _, _, _, [] => isTrue trivial
  | start, offset, _, r :: rs =>
    have := decidableAlignedFrom (nextBlock start offset r) (offset + r.encode.length)
      (some r.key) rs
    inferInstanceAs (Decidable (_ ∧ _))

instance (records : List OmniRecord) : Decidable (Aligned records) :=
  decidableAlignedFrom none 0 none records

variable {records : List OmniRecord}

theorem alignedFrom_congr {start : Option ℕ} {offset : ℕ} {previous : Option Bytes}
    {records' : List OmniRecord} (keys : records.map key = records'.map key) :
    AlignedFrom start offset previous records ↔ AlignedFrom start offset previous records' := by
  induction records generalizing start offset previous records' with
  | nil =>
    obtain rfl := map_eq_nil_iff.mp keys.symm
    rfl
  | cons r rs ih =>
    cases records' with
    | nil => cases keys
    | cons r' rs' =>
      obtain ⟨key, rest⟩ := List.cons.inj keys
      simp only [AlignedFrom, nextBlock, length_encode, key, ih rest]

/-- Where blocks start depends on the keys only. -/
theorem aligned_congr {records' : List OmniRecord} (keys : records.map key = records'.map key) :
    Aligned records ↔ Aligned records' := alignedFrom_congr keys

def recordBytes (records : List OmniRecord) : Bytes := records.flatMap encode

@[simp] theorem recordBytes_nil : recordBytes [] = [] := rfl

@[simp] theorem recordBytes_cons (r : OmniRecord) (rs : List OmniRecord) :
    recordBytes (r :: rs) = r.encode ++ recordBytes rs := rfl

@[simp] theorem recordBytes_append (rs rs' : List OmniRecord) :
    recordBytes (rs ++ rs') = recordBytes rs ++ recordBytes rs' := flatMap_append

namespace SSTableWriter

def blockStart : Option ℕ :=
  if w.currentBlockStartKey.isNone then none else w.index.getLast?.map Prod.snd

/-- An open block has an index entry. -/
def Open : Prop := w.currentBlockStartKey.isSome → w.index ≠ []

variable {w : SSTableWriter} (isOpen : w.Open)

include isOpen

theorem Open.exists_last {key : Bytes}
    (start : w.currentBlockStartKey = some key) : ∃ entry, w.index.getLast? = some entry :=
  ⟨_, getLast?_eq_some_getLast (isOpen (by simp [start]))⟩

theorem index_append (r : OmniRecord) :
    (w.append r).index = w.index ++ if w.blockStart.isNone then [(r.key, w.offset)] else [] := by
  cases start : w.currentBlockStartKey with
  | none => simp [append, blockStart, start]
  | some key =>
    obtain ⟨entry, last⟩ := isOpen.exists_last start
    simp [append, blockStart, start, last]

theorem blockStart_append (r : OmniRecord) :
    (w.append r).blockStart = nextBlock w.blockStart w.offset r := by
  cases start : w.currentBlockStartKey with
  | none =>
    by_cases full : blockSize ≤ w.offset + r.encode.length - w.offset
    · simp only [append, blockStart, start, nextBlock, isNone_none, if_true,
        getLast?_concat, map_some, getD_some, getD_none, ge_iff_le, full]
    · simp only [append, blockStart, start, nextBlock, isNone_none, if_true,
        getLast?_concat, map_some, getD_some, getD_none, ge_iff_le, full, if_false, isNone_some,
        Bool.false_eq_true]
  | some key =>
    obtain ⟨entry, last⟩ := isOpen.exists_last start
    by_cases full : blockSize ≤ w.offset + r.encode.length - entry.2
    · simp only [append, blockStart, start, nextBlock, last, isNone_some, isNone_none,
        Bool.false_eq_true, if_false, map_some, getD_some, ge_iff_le, full, if_true]
    · simp only [append, blockStart, start, nextBlock, last, isNone_some,
        Bool.false_eq_true, if_false, map_some, getD_some, ge_iff_le, full]

theorem Open.append (r : OmniRecord) : (w.append r).Open := by
  intro _
  cases start : w.currentBlockStartKey with
  | none => simp [SSTableWriter.append, start]
  | some key => simpa [SSTableWriter.append, start] using isOpen (by simp [start])

/-- What a run of the writer has written and indexed. -/
theorem foldl_append (records : List OmniRecord) :
    (records.foldl append w).out = w.out ++ recordBytes records ∧
      (records.foldl append w).offset = w.offset + (recordBytes records).length ∧
      (records.foldl append w).index = w.index ++ blockIndex w.blockStart w.offset records := by
  induction records generalizing w with
  | nil => simp [blockIndex]
  | cons r rs ih =>
    obtain ⟨out, offset, index⟩ := ih (isOpen.append r)
    have step : (w.append r).offset = w.offset + r.encode.length := rfl
    have written : (w.append r).out = w.out ++ r.encode := rfl
    rw [foldl_cons, out, offset, index, index_append isOpen, blockStart_append isOpen, step,
      written]
    refine ⟨by simp, by simp; omega, ?_⟩
    cases w.blockStart <;> simp [blockIndex]

end SSTableWriter

/-- The layout of a finished table. -/
theorem encodeTable_eq (records : List OmniRecord) :
    encodeTable records = recordBytes records ++ le 8 (blockIndex none 0 records).length ++
      (blockIndex none 0 records).flatMap encodeEntry ++ le 8 (recordBytes records).length ++
      tableMagic := by
  obtain ⟨out, offset, index⟩ :=
    SSTableWriter.foldl_append (w := .new) (by simp [SSTableWriter.Open, SSTableWriter.new]) records
  simp only [encodeTable, SSTableWriter.finish, out, offset, index]
  simp [SSTableWriter.new, SSTableWriter.blockStart]

theorem mem_blockIndex {start : Option ℕ} {offset : ℕ}
    {entry : Bytes × ℕ} (member : entry ∈ blockIndex start offset records) :
    ∃ before r after, records = before ++ r :: after ∧ entry.1 = r.key ∧
      entry.2 = offset + (recordBytes before).length ∧ ∀ previous,
      AlignedFrom start offset previous records →
        (before.getLast?.map key).or previous ≠ some r.key := by
  induction records generalizing start offset with
  | nil => simp [blockIndex] at member
  | cons r rs ih =>
    have tail : entry ∈ blockIndex (nextBlock start offset r) (offset + r.encode.length) rs →
        ∃ before r' after, r :: rs = before ++ r' :: after ∧ entry.1 = r'.key ∧
          entry.2 = offset + (recordBytes before).length ∧ ∀ previous,
          AlignedFrom start offset previous (r :: rs) →
            (before.getLast?.map key).or previous ≠ some r'.key := by
      intro member
      obtain ⟨before, r', after, rfl, hkey, hoffset, aligned⟩ := ih member
      refine ⟨r :: before, r', after, rfl, hkey, by simp [hoffset]; omega, ?_⟩
      intro previous hyp
      have rest := aligned (some r.key) hyp.2
      cases before with
      | nil => simpa using rest
      | cons first more =>
        obtain ⟨last, found⟩ : ∃ last, (first :: more).getLast? = some last :=
          ⟨_, getLast?_eq_some_getLast (cons_ne_nil _ _)⟩
        rw [getLast?_cons_cons]
        simpa only [found, map_some, some_or] using rest
    by_cases fresh : start.isNone
    · simp only [blockIndex, fresh, if_true, mem_cons] at member
      obtain rfl | member := member
      · refine ⟨[], r, rs, rfl, rfl, by simp, fun previous hyp => ?_⟩
        simpa using hyp.1 (isNone_iff_eq_none.mp fresh)
      · exact tail member
    · simp only [blockIndex, fresh] at member
      exact tail member

/-- Records in the order in which flush and compaction write them. -/
def KeySorted (records : List OmniRecord) : Prop := records.Pairwise fun a b => a.key ≤ b.key

namespace SSTableReader

/-- A lookup starts at a record boundary, and in an aligned table it leaves no version
of its key behind. -/
theorem exists_seek_eq (records : List OmniRecord) (target : Bytes) :
    ∃ before after, records = before ++ after ∧
      seek (blockIndex none 0 records) target = (recordBytes before).length ∧
      (KeySorted records → Aligned records → ∀ r ∈ before, r.key < target) := by
  cases chosen : ((blockIndex none 0 records).takeWhile fun e => e.1 ≤ target).getLast? with
  | none => exact ⟨[], records, rfl, by simp [seek, chosen], by simp⟩
  | some entry =>
    have inRun := mem_of_getLast? chosen
    have reached : entry.1 ≤ target := by simpa using mem_takeWhile_imp inRun
    obtain ⟨before, r, after, rfl, hkey, hoffset, aligned⟩ :=
      mem_blockIndex ((takeWhile_sublist _).subset inRun)
    refine ⟨before, r :: after, rfl, by simp [seek, chosen, hoffset], ?_⟩
    intro sorted blocks x hx
    cases last : before.getLast? with
    | none =>
      rw [getLast?_eq_none_iff.mp last] at hx
      cases hx
    | some l =>
      have differs : l.key ≠ r.key := by
        simpa [last] using aligned none blocks
      have member := mem_of_getLast? last
      obtain ⟨front, rfl⟩ := getLast?_eq_some_iff.mp last
      have ordered := pairwise_append.mp sorted
      have upTo : x.key ≤ l.key := by
        obtain hx | hx := mem_append.mp hx
        · exact (pairwise_append.mp ordered.1).2.2 x hx l (mem_singleton_self l)
        · rw [mem_singleton.mp hx]
      have next : l.key ≤ r.key := ordered.2.2 l member r mem_cons_self
      exact upTo.trans_lt ((lt_of_le_of_ne next differs).trans_le (hkey ▸ reached))

theorem parseEntries_flatMap {entries : List (Bytes × ℕ)}
    (keys : ∀ e ∈ entries, e.1.length < 2 ^ 16) (offsets : ∀ e ∈ entries, e.2 < 2 ^ 64) :
    parseEntries entries.length (entries.flatMap encodeEntry) = entries := by
  induction entries with
  | nil => rfl
  | cons e es ih =>
    have tail := ih (fun x hx => keys x (.tail _ hx)) (fun x hx => offsets x (.tail _ hx))
    have klen : ofLe (le 2 e.1.length) = e.1.length :=
      ofLe_le_of_lt (keys e (.head _))
    have word : ofLe (le 8 e.2) = e.2 := ofLe_le_of_lt (offsets e (.head _))
    have layout : (e :: es).flatMap encodeEntry =
        le 2 e.1.length ++ (e.1 ++ (le 8 e.2 ++ es.flatMap encodeEntry)) := by
      simp [encodeEntry]
    have offset : slice (e.1 ++ (le 8 e.2 ++ es.flatMap encodeEntry)) e.1.length (e.1.length + 8) =
        le 8 e.2 :=
      slice_eq_of_eq_append e.1 _ rfl rfl (by simp)
    have rest : (e.1 ++ (le 8 e.2 ++ es.flatMap encodeEntry)).drop (e.1.length + 8) =
        es.flatMap encodeEntry := by
      rw [← append_assoc]
      exact drop_left' (by simp)
    rw [length_cons, layout, parseEntries, if_neg (by rw [length_append, length_le]; omega),
      take_left' (length_le 2 _), drop_left' (length_le 2 _), klen]
    simp only [offset, rest, word, tail, take_left]
    rw [if_neg (by simp)]

end SSTableReader

theorem length_le_length_recordBytes (records : List OmniRecord) :
    records.length ≤ (recordBytes records).length := by
  induction records with
  | nil => simp
  | cons r rs ih =>
    have nonempty : 42 ≤ r.encode.length := by simp
    rw [recordBytes_cons, length_append, length_cons]
    omega

@[simp] theorem length_tableMagic : tableMagic.length = 8 := by decide

/-- The index section of a finished table. -/
def indexBytes (records : List OmniRecord) : Bytes :=
  le 8 (blockIndex none 0 records).length ++
    (blockIndex none 0 records).flatMap encodeEntry

theorem encodeTable_eq_append (records : List OmniRecord) :
    encodeTable records = recordBytes records ++ (indexBytes records ++
      (le 8 (recordBytes records).length ++ tableMagic)) := by
  rw [encodeTable_eq]
  simp [indexBytes]

theorem length_encodeTable (records : List OmniRecord) : (encodeTable records).length =
      (recordBytes records).length + (indexBytes records).length + 16 := by
  rw [encodeTable_eq_append]
  simp
  omega

theorem SSTableReader.indexOffset_encodeTable (size : (recordBytes records).length < 2 ^ 64) :
    SSTableReader.indexOffset (encodeTable records) = some (recordBytes records).length := by
  have length := length_encodeTable records
  have magic : (encodeTable records).drop ((encodeTable records).length - 8) = tableMagic := by
    rw [encodeTable_eq_append, ← append_assoc, ← append_assoc]
    exact drop_left' (by simp; omega)
  have offset : slice (encodeTable records) ((encodeTable records).length - 16)
      ((encodeTable records).length - 8) = le 8 (recordBytes records).length :=
    slice_eq_of_eq_append (recordBytes records ++ indexBytes records) tableMagic
      (by rw [encodeTable_eq_append, append_assoc]) (by simp [length]) (by simp [length])
  rw [SSTableReader.indexOffset, if_pos ⟨by omega, magic⟩, offset, ofLe_le_of_lt size]

theorem length_blockIndex_le (start : Option ℕ) (offset : ℕ) (records : List OmniRecord) :
    (blockIndex start offset records).length ≤ (recordBytes records).length := by
  induction records generalizing start offset with
  | nil => simp [blockIndex]
  | cons r rs ih =>
    have tail := ih (nextBlock start offset r) (offset + r.encode.length)
    have nonempty : 42 ≤ r.encode.length := by simp
    simp only [blockIndex, recordBytes_cons, length_append]
    split_ifs
    · rw [length_cons]
      omega
    · omega

section

variable [External]

/-- The records of a table are sorted and valid, fit their fields, and take less than 2^64 bytes. -/
structure TableRecords (records : List OmniRecord) : Prop where
  sorted : KeySorted records
  valid : ∀ r ∈ records, r.isValid
  fits : ∀ r ∈ records, r.Fits
  size : (recordBytes records).length < 2 ^ 64

namespace SSTableReader

variable {records : List OmniRecord} (table : TableRecords records)

include table

theorem getBlockForKey_encodeTable (target : Bytes) :
    getBlockForKey (encodeTable records) target = seek (blockIndex none 0 records) target := by
  have length := length_encodeTable records
  have section_eq : slice (encodeTable records) (recordBytes records).length
      ((encodeTable records).length - 16) = indexBytes records :=
    slice_eq_of_eq_append (recordBytes records) _ (encodeTable_eq_append records) rfl (by omega)
  have entryOf : ∀ e ∈ blockIndex none 0 records, e.1.length < 2 ^ 16 ∧ e.2 < 2 ^ 64 := by
    intro e member
    obtain ⟨before, r, after, rfl, hkey, hoffset, -⟩ := mem_blockIndex member
    have total := table.size
    simp only [recordBytes_append, length_append] at total
    refine ⟨hkey ▸ (table.fits r (by simp)).key, by omega⟩
  have count : (blockIndex none 0 records).length < 256 ^ 8 :=
    (length_blockIndex_le none 0 records).trans_lt table.size
  rw [getBlockForKey, indexOffset_encodeTable table.size]
  simp only [section_eq]
  rw [if_neg (by omega), if_neg (by simp [indexBytes]), indexBytes,
    take_left' (length_le 8 _), drop_left' (length_le 8 _), ofLe_le_of_lt count,
    parseEntries_flatMap (fun e he => (entryOf e he).1) (fun e he => (entryOf e he).2)]

theorem iterLoop_encodeTable {before after : List OmniRecord}
    (split : records = before ++ after) {turns : ℕ} (enough : after.length < turns) :
    iterLoop (encodeTable records) (some (recordBytes records).length) turns
      (recordBytes before).length = after := by
  induction after generalizing before turns with
  | nil =>
    obtain ⟨turns, rfl⟩ := Nat.exists_eq_succ_of_ne_zero (Nat.ne_of_gt enough)
    simp [iterLoop, split]
  | cons r rs ih =>
    obtain ⟨turns, rfl⟩ := Nat.exists_eq_succ_of_ne_zero (Nat.ne_of_gt (Nat.zero_lt_of_lt enough))
    have member : r ∈ records := by simp [split]
    have inside : ¬(recordBytes records).length ≤ (recordBytes before).length := by
      simp [split]
    have here : (encodeTable records).drop (recordBytes before).length =
        r.encode ++ (recordBytes rs ++ (indexBytes records ++
          (le 8 (recordBytes records).length ++ tableMagic))) := by
      rw [encodeTable_eq_append]
      nth_rewrite 1 [split]
      simp
    have step : iterLoop (encodeTable records) (some (recordBytes records).length) turns
        (recordBytes (before ++ [r])).length = rs := ih (by simp [split]) (by simpa using enough)
    simp only [recordBytes_append, recordBytes_cons, recordBytes_nil, append_nil, length_append]
      at step
    simp only [iterLoop, any_some, inside, decide_false, Bool.false_eq_true, if_false, here,
      decode_encode (table.fits r member) (table.valid r member), step]

/-- From a record boundary at the start of the key's block, the records up to the index. -/
theorem iterFrom_of_seek {before after : List OmniRecord} {key : Bytes}
    (split : records = before ++ after)
    (start : seek (blockIndex none 0 records) key = (recordBytes before).length) :
    iterFrom (encodeTable records) key = after := by
  have enough : after.length < (encodeTable records).length + 1 := by
    have count := length_le_length_recordBytes records
    have length := length_encodeTable records
    simp only [split, length_append] at count length ⊢
    omega
  rw [iterFrom, indexOffset_encodeTable table.size, getBlockForKey_encodeTable table, start,
    iterLoop_encodeTable table split enough]

/-- Iteration from a key returns a tail of the records, with all at or above the key if the table is
aligned. -/
theorem exists_iterFrom_eq (startKey : Bytes) :
    ∃ before, records = before ++ iterFrom (encodeTable records) startKey ∧
      (Aligned records → ∀ r ∈ before, r.key < startKey) := by
  obtain ⟨before, after, split, start, skipped⟩ := exists_seek_eq records startKey
  refine ⟨before, ?_, skipped table.sorted⟩
  rw [iterFrom_of_seek table split start]
  exact split

/-- `data` is a table file with these records. -/
structure TableFile (data : Bytes) (records : List OmniRecord) : Prop where
  table : TableRecords records
  all : allRecords data = records
  iter : ∀ startKey, ∃ before, records = before ++ iterFrom data startKey ∧
    (Aligned records → ∀ r ∈ before, r.key < startKey)

theorem tableFile_encodeTable : TableFile (encodeTable records) records where
  table := table
  all := by
    have start : (0 : ℕ) = (recordBytes []).length := rfl
    rw [allRecords, indexOffset_encodeTable table.size, start]
    refine iterLoop_encodeTable table rfl ?_
    have count := length_le_length_recordBytes records
    have length := length_encodeTable records
    omega
  iter := exists_iterFrom_eq table

omit table

def versionSet (records : List OmniRecord) : Set Version := {v | ∃ r ∈ records, r.version = v}

/-- The loop of `find` returns the newest of the best so far and the visible versions to come. -/
theorem scanBest_spec (target : Bytes) (readSeq : ℕ)
    (sorted : KeySorted records) (valid : ∀ r ∈ records, r.isValid) (best : Option OmniRecord) :
    (∀ r, scanBest target readSeq best records = some r →
      (best = some r ∨ r ∈ records ∧ r.key = target ∧ r.seq ≤ readSeq) ∧
      (∀ b ∈ best, b.seq ≤ r.seq) ∧
        ∀ x ∈ records, x.key = target → x.seq ≤ readSeq → x.seq ≤ r.seq) ∧
      (scanBest target readSeq best records = none →
        best = none ∧ ∀ x ∈ records, x.key = target → readSeq < x.seq) := by
  induction records generalizing best with
  | nil => simp +contextual [scanBest]
  | cons first rest ih =>
    obtain ⟨above, tail⟩ := pairwise_cons.mp sorted
    have step := fun best => ih tail (fun r hr => valid r (.tail _ hr)) best
    simp only [scanBest]
    split_ifs with past better
    · -- The scan stops at the first larger key; the target cannot follow it.
      have absent : ∀ x ∈ first :: rest, x.key ≠ target := by
        intro x hx
        obtain rfl | hx := mem_cons.mp hx
        · exact past.ne'
        · exact (past.trans_le (above x hx)).ne'
      refine ⟨fun r hr => ⟨.inl hr, by simp_all, fun x hx hk => absurd hk (absent x hx)⟩,
        fun none => ⟨none, fun x hx hk => absurd hk (absent x hx)⟩⟩
    · obtain ⟨hkey, -, hseq, higher⟩ := better
      obtain ⟨found, missing⟩ := step (some first)
      constructor
      · intro r hr
        obtain ⟨origin, bound, all⟩ := found r hr
        have fromFirst : first.seq ≤ r.seq := bound first rfl
        refine ⟨.inr ?_, ?_, ?_⟩
        · obtain same | ⟨member, rest⟩ := origin
          · cases same
            exact ⟨.head _, hkey, hseq⟩
          · exact ⟨.tail _ member, rest⟩
        · intro b hb
          have lower : b.seq < first.seq := by simpa [mem_def.mp hb] using higher
          exact lower.le.trans fromFirst
        · intro x hx hk hs
          obtain rfl | hx := mem_cons.mp hx
          · exact fromFirst
          · exact all x hx hk hs
      · intro none
        exact absurd (missing none).1 (by simp)
    · obtain ⟨found, missing⟩ := step best
      have validFirst := valid first (.head _)
      constructor
      · intro r hr
        obtain ⟨origin, bound, all⟩ := found r hr
        refine ⟨origin.imp_right fun h => ⟨.tail _ h.1, h.2⟩, bound, ?_⟩
        intro x hx hk hs
        obtain rfl | hx := mem_cons.mp hx
        · -- A visible version that was passed over is not above the best so far.
          cases best with
          | none => exact absurd ⟨hk, validFirst, hs, rfl⟩ better
          | some b =>
            have below : x.seq ≤ b.seq := by
              by_contra exceeds
              exact better ⟨hk, validFirst, hs, by simpa using exceeds⟩
            exact below.trans (bound b rfl)
        · exact all x hx hk hs
      · intro none
        obtain ⟨rfl, all⟩ := missing none
        refine ⟨rfl, fun x hx hk => ?_⟩
        obtain rfl | hx := mem_cons.mp hx
        · by_contra visible
          exact better ⟨hk, validFirst, not_lt.mp visible, rfl⟩
        · exact all x hx hk

namespace TableFile

variable {data : Bytes} {records : List OmniRecord} (file : TableFile data records)

include file

theorem mem_of_mem_iterFrom {key : Bytes} {r : OmniRecord} (member : r ∈ iterFrom data key) :
    r ∈ records := by
  obtain ⟨before, split, -⟩ := file.iter key
  rw [split]
  exact mem_append_right _ member

theorem sorted_iterFrom (key : Bytes) : KeySorted (iterFrom data key) := by
  obtain ⟨before, split, -⟩ := file.iter key
  have sorted := file.table.sorted
  rw [split] at sorted
  exact (pairwise_append.mp sorted).2.1

variable (aligned : Aligned records)

include aligned

/-- Iteration over an aligned table misses nothing from its start key on. -/
theorem mem_iterFrom {key : Bytes}
    {r : OmniRecord} (member : r ∈ records) (from_key : key ≤ r.key) : r ∈ iterFrom data key := by
  obtain ⟨before, split, skipped⟩ := file.iter key
  rw [split] at member
  obtain early | late := mem_append.mp member
  · exact absurd from_key (not_le.mpr (skipped aligned r early))
  · exact late

/-- Iterating from the empty key returns the whole of an aligned table. -/
theorem iterFrom_nil : iterFrom data [] = records := by
  obtain ⟨before, split, skipped⟩ := file.iter []
  have empty : before = [] := by
    refine eq_nil_iff_forall_not_mem.mpr fun r hr => ?_
    exact absurd (skipped aligned r hr) (not_lt_nil _)
  rw [split, empty, nil_append]

/-- A lookup in an aligned table finds the newest visible version. -/
theorem finds : Versioned.Finds (fun key seq => (findRecord data key seq).map version)
    (versionSet records) := by
  have spec := fun (key : Bytes) (seq : ℕ) =>
    scanBest_spec key seq (file.sorted_iterFrom key) (fun r member =>
      file.table.valid r (file.mem_of_mem_iterFrom member)) none
  have inTail : ∀ {key : Bytes} {r : OmniRecord}, r ∈ records → r.key = key →
      r ∈ iterFrom data key := fun member hk => file.mem_iterFrom aligned member hk.ge
  constructor
  · intro key seq v found
    obtain ⟨r, hr, rfl⟩ := map_eq_some_iff.mp found
    obtain ⟨origin, -, all⟩ := (spec key seq).1 r hr
    obtain ⟨member, hk, hs⟩ := origin.resolve_left (by simp)
    refine ⟨⟨r, file.mem_of_mem_iterFrom member, rfl⟩, hk, hs, ?_⟩
    rintro v ⟨x, hx, rfl⟩ hkx hsx
    exact all x (inTail hx hkx) hkx hsx
  · intro key seq missing v hv hk
    obtain ⟨x, hx, rfl⟩ := hv
    exact ((spec key seq).2 (map_eq_none_iff.mp missing)).2 x (inTail hx hk) hk

end TableFile

/-- A base file that was never written: one page of zero bytes. -/
@[irreducible] def emptyPage : Bytes := List.replicate 4096 0

theorem decode_replicate_zero {n : ℕ} (long : 42 ≤ n) : decode (List.replicate n 0) = none := by
  have zeros : ∀ i j, slice (List.replicate n 0) i j = List.replicate (min (j - i) (n - i)) 0 := by
    simp [slice]
  have number : ∀ m, ofLe (List.replicate m 0) = 0 := by
    intro m
    induction m with
    | zero => rfl
    | succ m ih => simp [replicate_succ, ofLe, ih]
  have header : checked ⟨0, [], 0, 0, 0, 0, 0⟩ = List.replicate 38 0 := by decide
  have invalid : ¬isValid ⟨0, [], 0, 0, 0, 0, 0⟩ := by
    simp only [isValid, computeCrc, header, beq_iff_eq]
    exact External.crc32_zeros.symm
  rw [decode, if_neg (by simpa using long)]
  simp only [zeros, number, Nat.sub_self, Nat.zero_min, replicate_zero]
  rw [if_neg (by simpa using long)]
  exact if_neg invalid

omit [External] in
theorem emptyPage_ne_nil : emptyPage ≠ [] := by
  apply ne_nil_of_length_pos
  rw [emptyPage, length_replicate]
  decide

theorem tableFile_emptyPage : TableFile emptyPage [] := by
  have noIndex : indexOffset emptyPage = none := by
    have page : emptyPage.drop (emptyPage.length - 8) ≠ tableMagic := by
      simp only [emptyPage, length_replicate, drop_replicate]
      decide
    rw [indexOffset, if_neg (fun h => page h.2)]
  have unread : decode emptyPage = none := by
    rw [emptyPage]
    exact decode_replicate_zero (by decide)
  have iterated : ∀ key, iterFrom emptyPage key = [] := by
    simp [iterFrom, getBlockForKey, noIndex, iterLoop, unread]
  refine ⟨⟨.nil, by simp, by simp, by simp⟩, ?_, fun key => ⟨[], by simp [iterated], by simp⟩⟩
  simp [allRecords, iterLoop, unread]

end SSTableReader

end

-- Everything below uses the lemmas above; the layout itself is not unfolded again.
attribute [irreducible] Aligned

end OmniKV
