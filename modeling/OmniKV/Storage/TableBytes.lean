import OmniKV.Storage.Sstable
import OmniKV.Storage.WalReplay

/-!
# A table file of arbitrary bytes

The reader takes an index offset and a number of index entries from the file. It checks the offset
against the length of the file but not against the trailer, and it makes room for the entries before
it reads any. Every other read is checked.
-/

namespace OmniKV.SSTableReader

open List
open Bytes (ofLe)
open OmniRecord
open Checked

def readFooter (data : Bytes) : Checked Empty (Option ℕ) :=
  if data.length < 16 then pure none else do
    if (← sliceFrom data (data.length - 8)) ≠ tableMagic then pure none else do
      let offset ← slice data (data.length - 16) (data.length - 8)
      pure (some (ofLe offset))

def readEntries (indexData : Bytes) : ℕ → ℕ → Checked Empty (List (Bytes × ℕ))
  | 0, _ => pure []
  | count + 1, curr =>
    if curr + 2 > indexData.length then pure [] else do
      let keyLen := ofLe (← slice indexData curr (curr + 2))
      let curr := curr + 2
      if curr + keyLen + 8 > indexData.length then pure [] else do
        let key ← slice indexData curr (curr + keyLen)
        let offset ← slice indexData (curr + keyLen) (curr + keyLen + 8)
        let later ← readEntries indexData count (curr + keyLen + 8)
        pure ((key, ofLe offset) :: later)

section

-- The binary search of the standard library. The entries need not be sorted, so where it ends is
-- left open.
variable (partitionPoint : (entries : List (Bytes × ℕ)) → Bytes → Fin (entries.length + 1))

/-- `get_block_for_key` with the bounds of its reads. An entry takes 24 bytes in memory. -/
def getBlockChecked (data target : Bytes) : Checked Empty ℕ := do
  match ← readFooter data with
  | none => pure 0
  | some start =>
    if start ≥ data.length then pure 0 else do
      let indexData ← slice data start (data.length - 16)
      if indexData.length < 8 then pure 0 else do
        let numEntries := ofLe (← slice indexData 0 8)
        allocate (24 * numEntries)
        let entries ← readEntries indexData numEntries 8
        let idx := (partitionPoint entries target).val
        if idx = 0 then pure 0 else do
          let entry ← index entries (idx - 1)
          pure entry.2

variable [External]

/-- `SSTableIterator::next`: the record at an offset and where the one behind it starts. -/
def nextChecked (data : Bytes) (offset : ℕ) : Checked Empty (Option (OmniRecord × ℕ)) := do
  if (← readFooter data).any (· ≤ offset) then pure none else do
    let read ← decodeChecked (← sliceFrom data offset)
    pure (read.map fun (r, len) => (r, offset + len))

/-- Calls of `next` until it has no record. Running out of turns counts as a panic. -/
def iterChecked (data : Bytes) : ℕ → ℕ → Checked Empty (List OmniRecord)
  | 0, _ => crash
  | turns + 1, offset => do
    match ← nextChecked data offset with
    | none => pure []
    | some (r, offset) =>
      let later ← iterChecked data turns offset
      pure (r :: later)

/-- The loop of `find`. -/
def findLoop (data target : Bytes) (readSeq : ℕ) :
    ℕ → ℕ → Option OmniRecord → Checked Empty (Option OmniRecord)
  | 0, _, _ => crash
  | turns + 1, offset, best =>
    if offset < data.length then do
      match ← nextChecked data offset with
      | none => pure best
      | some (r, offset) =>
        if target < r.key then pure best
        else if r.key = target ∧ r.isValid ∧ r.seq ≤ readSeq ∧ best.all (·.seq < r.seq) then
          findLoop data target readSeq turns offset (some r)
        else findLoop data target readSeq turns offset best
    else pure best

def iterFromChecked (data startKey : Bytes) : Checked Empty (List OmniRecord) := do
  iterChecked data (data.length + 1) (← getBlockChecked partitionPoint data startKey)

def findChecked (data target : Bytes) (readSeq : ℕ) : Checked Empty (Option ValuePointer) := do
  let offset ← getBlockChecked partitionPoint data target
  let best ← findLoop data target readSeq (data.length + 1) offset none
  pure (best.map pointer)

end

variable {bound : ℕ}

theorem safe_readFooter (data : Bytes) : Safe bound (readFooter data) (· = indexOffset data) := by
  refine .ite (fun short => ?_) fun long => ?_
  · exact .pure (if_neg fun both => by omega).symm
  refine .bind (.sliceFrom (Nat.sub_le ..)) ?_
  rintro _ rfl
  refine .ite (fun other => ?_) fun same => ?_
  · exact .pure (if_neg fun both => other both.2).symm
  refine .bind (.slice (by omega) (by omega)) ?_
  rintro _ rfl
  exact .pure (if_pos ⟨by omega, not_not.mp same⟩).symm

theorem safe_readEntries (indexData : Bytes) (count curr : ℕ) :
    Safe bound (readEntries indexData count curr)
      (· = parseEntries count (indexData.drop curr)) := by
  induction count generalizing curr with
  | zero => exact .pure rfl
  | succ count ih =>
    rw [parseEntries]
    refine .ite (fun short => ?_) fun header => ?_
    · exact .pure (if_pos (by rw [length_drop]; omega)).symm
    rw [if_neg (by rw [length_drop]; omega)]
    refine .bind (.slice (by omega) (by omega)) ?_
    rintro _ rfl
    rw [Nat.add_sub_cancel_left]
    have body : (indexData.drop curr).drop 2 = indexData.drop (curr + 2) := drop_drop
    refine .ite (fun short => ?_) fun whole => ?_
    · exact .pure (if_pos (by rw [body, length_drop]; omega)).symm
    rw [if_neg (by rw [body, length_drop]; omega)]
    refine .bind (.slice (by omega) (by omega)) ?_
    rintro _ rfl
    refine .bind (.slice (by omega) (by omega)) ?_
    rintro _ rfl
    refine .bind (ih _) ?_
    rintro _ rfl
    refine .pure ?_
    simp only [Bytes.slice, drop_drop, Nat.add_sub_cancel_left]
    simp only [Nat.add_assoc]

/-- The index starts in front of the trailer, and it tells of no more entries than the file has
bytes. -/
def IndexFits (data : Bytes) : Prop :=
  ∀ start, indexOffset data = some start → start < data.length → start + 16 ≤ data.length ∧
    (start + 24 ≤ data.length → ofLe ((data.drop start).take 8) ≤ data.length)

section

variable {data : Bytes} {offset turns : ℕ}

/-- The offset lies in the file, or the reader stops at it. -/
def Readable (data : Bytes) (offset : ℕ) : Prop :=
  offset ≤ data.length ∨ (indexOffset data).any (· ≤ offset)

variable (partitionPoint : (entries : List (Bytes × ℕ)) → Bytes → Fin (entries.length + 1))

theorem safe_getBlockChecked (fits : IndexFits data) (target : Bytes) :
    Safe (24 * data.length) (getBlockChecked partitionPoint data target) (Readable data) := by
  have first : Readable data 0 := Or.inl (Nat.zero_le _)
  refine .bind (safe_readFooter data) ?_
  rintro _ rfl
  cases footer : indexOffset data with
  | none => exact .pure first
  | some start =>
    refine .ite (fun _ => .pure first) fun inside => ?_
    obtain ⟨trailer, count⟩ := fits start footer (by omega)
    -- Wherever the index sends the reader, it is in the file or behind the blocks.
    have anywhere : ∀ offset, Readable data offset := by
      intro offset
      rw [Readable, footer, Option.any_some, decide_eq_true_iff]
      omega
    refine .bind (.slice (by omega) (by omega)) ?_
    rintro _ rfl
    refine .ite (fun _ => .pure first) fun header => ?_
    rw [length_take] at header
    refine .bind (.slice (by omega) (by rw [length_take, length_drop]; omega)) ?_
    rintro _ rfl
    rw [drop_zero, take_take, min_eq_left (by omega)]
    refine .bind (.allocate (Nat.mul_le_mul_left 24 (count (by omega)))) fun _ _ => ?_
    refine .bind (safe_readEntries _ _ _) fun entries _ => ?_
    refine .ite (fun _ => .pure first) fun found => ?_
    refine .bind (.index ?_) fun entry _ => .pure (anywhere entry.2)
    omega

theorem indexFits_of_safe {target : Bytes} {Q : ℕ → Prop}
    (safe : Safe (24 * data.length) (getBlockChecked partitionPoint data target) Q) :
    IndexFits data := by
  intro start footer inside
  obtain ⟨_, -, read⟩ := (safe_readFooter data : Safe 0 _ _).exists_ok
  have later := safe.rest read
  rw [footer] at later
  dsimp only at later
  rw [if_neg (by omega)] at later
  by_cases trailer : start + 16 ≤ data.length
  · refine ⟨trailer, fun header => ?_⟩
    have index : 8 ≤ ((data.drop start).take (data.length - 16 - start)).length := by
      rw [length_take, length_drop]
      omega
    rw [slice_eq_pure (by omega) (by omega), pure_bind, if_neg (by omega),
      slice_eq_pure (by omega) index,
      pure_bind, drop_zero, take_take, Nat.sub_zero, min_eq_left (by omega)] at later
    have room := later.allocated
    omega
  · have long : 16 ≤ data.length := by
      by_contra short
      rw [indexOffset, if_neg fun both => short both.1] at footer
      cases footer
    have panics : slice data start (data.length - 16) = (crash : Checked Empty Bytes) :=
      if_neg (by omega)
    rw [panics] at later
    exact (Safe.not_crash later).elim

variable [External]

theorem safe_nextChecked (inside : Readable data offset) :
    Safe bound (nextChecked data offset) (· = if (indexOffset data).any (· ≤ offset) then none else
      (decode (data.drop offset)).map fun (r, len) => (r, offset + len)) := by
  refine .bind (safe_readFooter data) ?_
  rintro _ rfl
  refine .ite (fun ended => ?_) fun more => ?_
  · exact .pure (if_pos ended).symm
  rw [if_neg more]
  refine .bind (.sliceFrom (inside.resolve_right more)) ?_
  rintro _ rfl
  refine .bind (safe_decodeChecked _) ?_
  rintro _ rfl
  exact .pure rfl

/-- As many turns as there are bytes left suffice. -/
theorem safe_iterChecked (inside : Readable data offset) (enough : data.length - offset < turns) :
    Safe bound (iterChecked data turns offset) (· = iterLoop data (indexOffset data) turns
      offset) := by
  induction turns generalizing offset with
  | zero => omega
  | succ turns ih =>
    rw [iterLoop]
    refine .bind (safe_nextChecked inside) ?_
    rintro _ rfl
    split_ifs with ended
    · exact .pure rfl
    cases read : decode (data.drop offset) with
    | none => exact .pure rfl
    | some first =>
      have bounds := decode_bounds read
      rw [length_drop] at bounds
      refine .bind (ih (Or.inl (by omega)) (by omega)) ?_
      rintro _ rfl
      exact .pure rfl

theorem safe_findLoop (target : Bytes) (readSeq : ℕ) {best : Option OmniRecord}
    (enough : data.length - offset < turns) :
    Safe bound (findLoop data target readSeq turns offset best)
      (· = scanBest target readSeq best (iterLoop data (indexOffset data) turns offset)) := by
  induction turns generalizing offset best with
  | zero => omega
  | succ turns ih =>
    rw [iterLoop]
    refine .ite (fun inside => ?_) fun ended => ?_
    · refine .bind (safe_nextChecked (Or.inl (by omega))) ?_
      rintro _ rfl
      split_ifs with stops
      · exact .pure rfl
      cases read : decode (data.drop offset) with
      | none => exact .pure rfl
      | some first =>
        have bounds := decode_bounds read
        dsimp only [Option.map_some, scanBest]
        split_ifs
        · exact .pure rfl
        · exact ih (by omega)
        · exact ih (by omega)
    · rw [drop_eq_nil_of_le (by omega)]
      exact .pure (by split_ifs <;> rfl)

/-- Reads of any file do not panic and allocate in proportion to its size, provided that its index
fits. -/
theorem reads_safe_iff (data key : Bytes) (readSeq : ℕ) :
    (Safe (24 * data.length) (findChecked partitionPoint data key readSeq) (fun _ => True) ∧
      Safe (24 * data.length) (iterFromChecked partitionPoint data key) fun _ => True) ↔
      IndexFits data := by
  constructor
  · rintro ⟨-, iterated⟩
    exact indexFits_of_safe partitionPoint iterated.of_bind
  · intro fits
    have block := safe_getBlockChecked partitionPoint fits key
    constructor
    · refine .bind block fun offset _ => ?_
      exact .bind (safe_findLoop key readSeq (by omega)) fun _ _ => .pure trivial
    · refine .bind block fun offset inside => ?_
      exact (safe_iterChecked inside (by omega)).imp le_rfl fun _ _ => trivial

end

section

open Reference

/-- An index offset that points into the trailer, and an index that asks for room for `2 ^ 50`
entries. -/
theorem table_file_panics_or_exhausts : findChecked (fun _ _ => 0) (Bytes.le 8 9 ++ tableMagic)
    [] 0 = crash ∧ iterFromChecked (fun _ _ => 0) (Bytes.le 8 9 ++ tableMagic) [] = crash ∧
      findChecked (fun _ _ => 0) (Bytes.le 8 (2 ^ 50) ++ Bytes.le 8 0 ++ tableMagic) [] 0 =
        some (.ok none, 24 * 2 ^ 50) := ⟨rfl, rfl, rfl⟩

end

end OmniKV.SSTableReader
