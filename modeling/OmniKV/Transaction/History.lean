import OmniKV.Data.SortedMap
import OmniKV.Storage.Batch

/-!
# Transactions and the history of commits

A transaction buffers its writes and remembers the keys and ranges that it read. When it commits,
these are compared with the history: the transactions that committed since its snapshot.
-/

namespace OmniKV

inductive TxnState
  | active
  | committed
  | aborted
deriving DecidableEq, Repr

/-- Buffered writes: a value and a time to live for each key. No value is a deletion. -/
abbrev WriteSet := SortedMap Bytes (Option Bytes × UInt64)

structure Savepoint where
  name : Bytes
  writeSetSnapshot : WriteSet
  readSetSnapshot : List Bytes
  readRangesSnapshot : List (Bytes × Bytes)
deriving DecidableEq

/-- A transaction. Calls that compare its start with the timeout are told the outcome. -/
structure Transaction where
  id : ℕ
  /-- Reads see the versions up to this sequence number. -/
  readSeq : ℕ
  state : TxnState
  readSet : List Bytes
  readRanges : List (Bytes × Bytes)
  writeSet : WriteSet
  savepoints : List Savepoint
deriving DecidableEq

/-- A committed transaction, as the history keeps it. -/
structure CommittedTxn where
  txnId : ℕ
  commitSeq : ℕ
  writeKeys : List Bytes
  readKeys : List Bytes
  readRanges : List (Bytes × Bytes)
deriving DecidableEq

/-- What a replicated command carries of a transaction; each node has its own sequence number for
it. -/
structure SsiCommitRecord where
  txnId : ℕ
  writeKeys : List Bytes
  readKeys : List Bytes
  readRanges : List (Bytes × Bytes)
deriving DecidableEq

abbrev SsiHistory := List CommittedTxn

variable (txn : Transaction)

namespace Transaction

def new (id readSeq : ℕ) : Transaction := ⟨id, readSeq, .active, [], [], .empty, []⟩

def writeKeys : List Bytes := txn.writeSet.entries.map Prod.fst

/-- The record of a transaction that commits at `commitSeq`. -/
def record (commitSeq : ℕ) : CommittedTxn :=
  ⟨txn.id, commitSeq, txn.writeKeys, txn.readSet, txn.readRanges⟩

def stageWrite (now : UInt64) (batch : WriteBatch) : Bytes × (Option Bytes × UInt64) →
    Except OmniError WriteBatch
  | (key, some value, ttl) =>
    if ttl > 0 then batch.setWithTtl key value ttl now else batch.set key value
  | (key, none, _) => batch.delete key

def buildWriteBatch (now : UInt64) : Except OmniError WriteBatch :=
  txn.writeSet.entries.foldlM (stageWrite now) .new

end Transaction

inductive Conflict
  | writeWrite (key : Bytes) (txnId commitSeq : ℕ)
  | readWrite (key : Bytes) (txnId commitSeq : ℕ)
  | theirWriteInOurRange (key : Bytes) (txnId commitSeq : ℕ) (start stop : Bytes)
  | ourWriteInTheirRange (key : Bytes) (txnId commitSeq : ℕ) (start stop : Bytes)
deriving DecidableEq

def keyText (key : Bytes) : String := (String.fromUTF8? ⟨key.toArray⟩).getD ""

def Conflict.message : Conflict → String
  | .writeWrite key txnId commitSeq =>
    "SSI CONFLICT (WW): key '" ++ keyText key ++ "' written by txn " ++ toString txnId ++
      " at seq " ++ toString commitSeq
  | .readWrite key txnId commitSeq =>
    "SSI CONFLICT (RW): key '" ++ keyText key ++ "' read by us, written by txn " ++
      toString txnId ++ " at seq " ++ toString commitSeq
  | .theirWriteInOurRange key txnId commitSeq start stop =>
    "SSI CONFLICT (RANGE): key '" ++ keyText key ++ "' written by txn " ++ toString txnId ++
      " at seq " ++ toString commitSeq ++ " inside our read range [" ++ keyText start ++ ", " ++
      keyText stop ++ "]"
  | .ourWriteInTheirRange key txnId commitSeq start stop =>
    "SSI CONFLICT (RANGE): our key '" ++ keyText key ++ "' falls in txn " ++ toString txnId ++
      "'s read range [" ++ keyText start ++ ", " ++ keyText stop ++ "] (seq " ++
      toString commitSeq ++ ")"

/-- A half-open range contains a key. -/
def InRange (range : Bytes × Bytes) (key : Bytes) : Prop := range.1 ≤ key ∧ key < range.2
deriving Decidable

def Transaction.Touches (key : Bytes) : Prop :=
  key ∈ txn.writeKeys ∨ key ∈ txn.readSet ∨ ∃ range ∈ txn.readRanges, InRange range key

def findInRanges (keys : List Bytes) (ranges : List (Bytes × Bytes)) :
    Option (Bytes × Bytes × Bytes) :=
  keys.findSome? fun key => (ranges.find? fun range => InRange range key).map (key, ·)

theorem findInRanges_eq_none_iff {keys : List Bytes} {ranges : List (Bytes × Bytes)} :
    findInRanges keys ranges = none ↔ ∀ key ∈ keys, ∀ range ∈ ranges, ¬InRange range key := by
  simp [findInRanges]

namespace SsiHistory

/-- The checks against one committed transaction, in order. -/
def conflictWith (c : CommittedTxn) : Option Conflict :=
  ((txn.writeKeys.find? (· ∈ c.writeKeys)).map (.writeWrite · c.txnId c.commitSeq)).or <|
  ((txn.readSet.find? (· ∈ c.writeKeys)).map (.readWrite · c.txnId c.commitSeq)).or <|
  ((findInRanges c.writeKeys txn.readRanges).map fun (key, start, stop) =>
    .theirWriteInOurRange key c.txnId c.commitSeq start stop).or <|
  (findInRanges txn.writeKeys c.readRanges).map fun (key, start, stop) =>
    .ourWriteInTheirRange key c.txnId c.commitSeq start stop

def scanConflicts (committed : SsiHistory) : Option Conflict :=
  committed.findSome? fun c => if c.commitSeq > txn.readSeq then conflictWith txn c else none

/-- The committed transaction wrote a key that `txn` touches, or read a range that `txn` writes in.
-/
def Conflicts (c : CommittedTxn) : Prop :=
  (∃ key ∈ c.writeKeys, key ∈ txn.writeKeys ∨ key ∈ txn.readSet ∨
    ∃ range ∈ txn.readRanges, InRange range key) ∨
  ∃ key ∈ txn.writeKeys, ∃ range ∈ c.readRanges, InRange range key

variable {txn : Transaction}

theorem conflictWith_eq_none_iff {c : CommittedTxn} :
    conflictWith txn c = none ↔ ¬Conflicts txn c := by
  simp only [conflictWith, Option.or_eq_none_iff, Option.map_eq_none_iff, List.find?_eq_none,
    findInRanges_eq_none_iff, decide_eq_true_eq, Conflicts]
  constructor
  · rintro ⟨ww, rw, theirs, ours⟩ (⟨key, wrote, hit⟩ | ⟨key, wrote, range, member, inside⟩)
    · obtain writes | reads | ⟨range, member, inside⟩ := hit
      · exact ww key writes wrote
      · exact rw key reads wrote
      · exact theirs key wrote range member inside
    · exact ours key wrote range member inside
  · intro free
    refine ⟨fun key writes wrote => free (.inl ⟨key, wrote, .inl writes⟩),
      fun key reads wrote => free (.inl ⟨key, wrote, .inr (.inl reads)⟩),
      fun key wrote range member inside =>
      free (.inl ⟨key, wrote, .inr (.inr ⟨range, member, inside⟩)⟩),
      fun key writes range member inside => free (.inr ⟨key, writes, range, member, inside⟩)⟩

theorem scanConflicts_eq_none_iff {committed : SsiHistory} : scanConflicts txn committed = none ↔
      ∀ c ∈ committed, txn.readSeq < c.commitSeq → ¬Conflicts txn c := by
  simp only [scanConflicts, List.findSome?_eq_none_iff, ite_eq_right_iff, conflictWith_eq_none_iff]

def recordCommitted (history : SsiHistory) (txnId commitSeq : ℕ) (record : SsiCommitRecord) :
    SsiHistory :=
  history ++ [⟨txnId, commitSeq, record.writeKeys, record.readKeys, record.readRanges⟩]

/-- Drop the records below the oldest snapshot in use. -/
def prune (history : SsiHistory) (minActiveSeq : ℕ) : SsiHistory :=
  history.filter fun c => c.commitSeq ≥ minActiveSeq

theorem mem_prune {history : SsiHistory} {minActiveSeq : ℕ} {c : CommittedTxn} :
    c ∈ history.prune minActiveSeq ↔ c ∈ history ∧ minActiveSeq ≤ c.commitSeq := by
  simp [prune]

/-- A transaction compares itself with no record below its snapshot. -/
theorem scanConflicts_prune_of_le {floor : ℕ} (below : floor ≤ txn.readSeq) (history : SsiHistory) :
    scanConflicts txn (history.prune floor) = scanConflicts txn history := by
  induction history with
  | nil => rfl
  | cons c history ih =>
    rw [prune, List.filter_cons, scanConflicts, scanConflicts, List.findSome?_cons]
    by_cases kept : c.commitSeq ≥ floor
    · rw [if_pos (decide_eq_true kept), List.findSome?_cons]
      cases (if c.commitSeq > txn.readSeq then conflictWith txn c else none) with
      | none => exact ih
      | some conflict => rfl
    · rw [if_neg (mt of_decide_eq_true kept), if_neg (show ¬c.commitSeq > txn.readSeq by omega)]
      exact ih

end SsiHistory

end OmniKV
