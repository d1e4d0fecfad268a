import OmniKV.Transaction.SnapshotCounts
import OmniKV.Wire.Session

/-!
# What the commit of a transaction validates

The storage scan also returns the key at the end of its range, which a recorded range leaves out; a
point lookup returns the first row of a range and records one key; and a rollback to a savepoint
forgets the reads that came after it.
-/

namespace OmniKV

open Relation Wire List Transaction

/-- A scan of an explicit transaction, by what determines its bounds. -/
inductive TxnScan
  -- `SeqScanIter` and the statements that load the rows of a table
  | table (rowPrefix : Bytes)
  -- `PkLookupIter`
  | point (rowKey : Bytes)
  -- `overlay_kv_scan`
  | kv (start stop : Bytes)
deriving DecidableEq

namespace TxnScan

def bounds : TxnScan → Bytes × Bytes
  | table rowPrefix => (rowPrefix, rowPrefix ++ [0x7F])
  | point rowKey => (rowKey, rowKey ++ [0x7F])
  | kv start stop => (start, stop)

def stored [External] (scan : TxnScan) (m : TransactionManager) (txn : Transaction) (now : UInt64) :
    Except OmniError (List (Bytes × Bytes)) :=
  let rows := (m.db.scan scan.bounds.1 scan.bounds.2 txn.readSeq now).1
  match scan with
  | point rowKey => if (txn.writeSet.get? rowKey).isSome then .ok [] else rows.map (·.take 1)
  | _ => rows.map (·.filter fun row => (txn.writeSet.get? row.1).isNone)

/-- The storage scan may come upon the key. -/
def Reaches (txn : Transaction) (scan : TxnScan) (key : Bytes) : Prop :=
  (∀ rowKey, scan = point rowKey → txn.writeSet.get? rowKey = none) ∧ scan.bounds.1 ≤ key ∧
    key ≤ scan.bounds.2

/-- The key is among what the scan records. -/
def Covers : TxnScan → Bytes → Prop
  | point rowKey, key => key = rowKey
  | scan, key => InRange scan.bounds key

theorem reaches_of_mem_stored [External] {scan : TxnScan} {m : TransactionManager}
    {txn : Transaction} {now : UInt64}
    {rows : List (Bytes × Bytes)} {row : Bytes × Bytes} (serving : m.db.Serving)
    (result : scan.stored m txn now = .ok rows) (member : row ∈ rows) : scan.Reaches txn row.1 := by
  obtain ⟨-, entries, scanned, shown⟩ := serving.scan scan.bounds.1 scan.bounds.2 txn.readSeq now
  have inside (found : row ∈ entries) : scan.bounds.1 ≤ row.1 ∧ row.1 ≤ scan.bounds.2 := by
    obtain ⟨start, stop, -⟩ := (shown row.1 row.2).mp found
    exact ⟨start, stop⟩
  simp only [stored, scanned] at result
  cases scan with
  | point rowKey =>
    dsimp only at result
    split_ifs at result with own
    · cases result
      cases member
    · cases result
      refine ⟨?_, inside (mem_of_mem_take member)⟩
      rintro _ ⟨⟩
      exact Option.not_isSome_iff_eq_none.mp own
  | table | kv =>
    cases result
    exact ⟨nofun, inside (mem_of_mem_filter member)⟩

end TxnScan

open TxnScan

/-- A call that reads or writes for a transaction. -/
inductive Access
  | get (key : Bytes)
  | scan (scan : TxnScan)
  | write (key : Bytes) (value : Option Bytes × UInt64)
deriving DecidableEq

namespace Access

/-- The keys that a call records as read. Rows in the write set are not recorded. -/
def readKeys (txn : Transaction) : Access → List Bytes
  | .get key => [key]
  | .scan (.point rowKey) => if (txn.writeSet.get? rowKey).isSome then [] else [rowKey]
  | _ => []

def readRanges : Access → List (Bytes × Bytes)
  | .scan (.table rowPrefix) => [(table rowPrefix).bounds]
  | .scan (.kv start stop) => [(kv start stop).bounds]
  | _ => []

def written : Access → WriteSet → WriteSet
  | .write key value, writeSet => writeSet.insert key value
  | _, writeSet => writeSet

/-- The key is read, and recorded so, or written. -/
def Touches : Access → Bytes → Prop
  | .get own, key => key = own
  | .scan made, key => made.Covers key
  | .write own _, key => key = own

def Writes : Access → Prop
  | .write _ _ => True
  | _ => False

end Access

open Access (readKeys written)

namespace Transaction

variable {txn : Transaction} {key : Bytes} {a : Access} {later : List Access}

/-- What a call leaves of an active transaction. -/
def apply (txn : Transaction) (a : Access) : Transaction :=
  { txn with
    readSet := a.readKeys txn ∪ txn.readSet
    readRanges := txn.readRanges ++ a.readRanges
    writeSet := a.written txn.writeSet }

theorem get_eq_apply [External] (m : TransactionManager) (now : UInt64)
    (active : txn.state = .active) : (m.get txn key now false).2.1 = txn.apply (.get key) := by
  have applied : txn.apply (.get key) = { txn with readSet := txn.readSet.insert key } := by
    simp [apply, readKeys, Access.readRanges, written]
  rw [TransactionManager.get, if_neg (not_not_intro active), if_neg Bool.false_ne_true, applied]
  dsimp only
  split <;> rfl

theorem setWithTtl_eq_apply (value : Bytes) (ttl : UInt64) (active : txn.state = .active) :
    txn.setWithTtl key value ttl = .ok (txn.apply (.write key (some value, ttl))) := by
  simp [setWithTtl, active, apply, readKeys, Access.readRanges, written]

theorem delete_eq_apply (active : txn.state = .active) :
    txn.delete key = .ok (txn.apply (.write key (none, 0))) := by
  simp [delete, active, apply, readKeys, Access.readRanges, written]

theorem overlayKvScan_eq_apply [External] (w : WireState) (start stop : Bytes)
    (here : Circumstances) :
    (overlayKvScan w start stop here).2.block.txn = w.block.txn.map
      (·.apply (.scan (.kv start stop))) :=
  rfl

theorem mem_writeKeys_apply {own : Bytes} {value : Option Bytes × UInt64} :
    key ∈ (txn.apply (.write own value)).writeKeys ↔ key ∈ txn.writeKeys ∨ key = own := by
  have keys (ws : WriteSet) : key ∈ ws.entries.map Prod.fst ↔ ∃ v, (key, v) ∈ ws := by
    simp [SortedMap.mem_def]
  simp only [writeKeys, apply, written, keys, SortedMap.mem_insert, Prod.mk.injEq]
  constructor
  · rintro ⟨v, ⟨rfl, -⟩ | ⟨-, member⟩⟩
    · exact .inr rfl
    · exact .inl ⟨v, member⟩
  · intro found
    by_cases same : key = own
    · exact ⟨value, .inl ⟨same, rfl⟩⟩
    · obtain ⟨v, member⟩ := found.resolve_right same
      exact ⟨v, .inr ⟨same, member⟩⟩

/-- A call that only reads adds what it records. -/
theorem touches_apply_of_read (read : a.written txn.writeSet = txn.writeSet) :
    (txn.apply a).Touches key ↔
      txn.Touches key ∨ key ∈ a.readKeys txn ∨ ∃ range ∈ a.readRanges, InRange range key := by
  simp only [Touches, writeKeys, apply, read, mem_union_iff, mem_append, or_and_right, exists_or]
  simp only [or_assoc, or_left_comm]

/-- A call adds to what the transaction touches, and takes nothing away. -/
theorem touches_apply : (txn.apply a).Touches key ↔ txn.Touches key ∨ a.Touches key := by
  cases a with
  | get own => rw [touches_apply_of_read rfl]; simp [readKeys, Access.readRanges, Access.Touches]
  | write own value =>
    rw [Touches, mem_writeKeys_apply, Touches, Access.Touches, or_right_comm]
    simp [apply, readKeys, Access.readRanges]
  | scan made =>
    rw [touches_apply_of_read rfl]
    cases made with
    | table | kv => simp [readKeys, Access.readRanges, Access.Touches, TxnScan.Covers]
    | point rowKey =>
      by_cases own : (txn.writeSet.get? rowKey).isSome
      · -- The key that is not recorded is one that the transaction writes.
        have written : rowKey ∈ txn.writeKeys := by
          obtain ⟨v, found⟩ := Option.isSome_iff_exists.mp own
          exact mem_map_of_mem (SortedMap.get?_eq_some_iff.mp found)
        have touched : key = rowKey → txn.Touches key := fun same => .inl (same ▸ written)
        simpa [readKeys, Access.readRanges, Access.Touches, TxnScan.Covers, own] using touched
      · simp [readKeys, Access.readRanges, Access.Touches, TxnScan.Covers, own]

theorem touches_foldl : (later.foldl apply txn).Touches key ↔
    txn.Touches key ∨ ∃ a ∈ later, a.Touches key := by
  induction later generalizing txn with
  | nil => simp
  | cons a later ih =>
    rw [foldl_cons, ih, touches_apply, exists_mem_cons_iff, or_assoc]

theorem state_foldl : (later.foldl apply txn).state = txn.state := by
  induction later generalizing txn with
  | nil => rfl
  | cons a later ih => exact ih

theorem written_apply : (txn.apply a).writeSet.entries ≠ [] ↔
    txn.writeSet.entries ≠ [] ∨ a.Writes := by
  cases a with
  | get | scan => simp [apply, written, Access.Writes]
  | write own value =>
    have inside : own ∈ (txn.apply (.write own value)).writeKeys :=
      mem_writeKeys_apply.mpr (.inr rfl)
    exact iff_of_true (fun none => by simp [writeKeys, none] at inside) (.inr trivial)

theorem written_foldl :
    (later.foldl apply txn).writeSet.entries ≠ [] ↔
      txn.writeSet.entries ≠ [] ∨ ∃ a ∈ later, a.Writes := by
  induction later generalizing txn with
  | nil => simp
  | cons a later ih => rw [foldl_cons, ih, written_apply, exists_mem_cons_iff, or_assoc]

variable [External]

/-- A commit fails if another transaction has committed a write of the key after the snapshot. -/
def Validates (txn : Transaction) (key : Bytes) : Prop :=
  ∀ (m : TransactionManager), ∀ c ∈ m.history, txn.readSeq < c.commitSeq → key ∈ c.writeKeys →
    ∀ now expired fault, ∃ err, (m.commit txn now expired fault).1 = .error err ∧
      (m.commit txn now expired fault).2.1.state = .aborted

theorem validates_of_touches (active : txn.state = .active) (written : txn.writeSet.entries ≠ [])
    (touched : txn.Touches key) : txn.Validates key := by
  intro m c member later wrote now expired fault
  have conflict : SsiHistory.scanConflicts txn m.history ≠ none := fun free =>
    SsiHistory.scanConflicts_eq_none_iff.mp free c member later (.inl ⟨key, wrote, touched⟩)
  obtain ⟨found, hfound⟩ := Option.ne_none_iff_exists'.mp conflict
  rw [TransactionManager.commit, if_neg (not_not_intro active)]
  split_ifs
  · exact ⟨_, rfl, rfl⟩
  · rw [hfound]
    exact ⟨_, rfl, rfl⟩

/-- A commit validates the keys that the transaction has touched, if it has writes. -/
theorem validates_iff (m : TransactionManager) (active : txn.state = .active) :
    txn.Validates key ↔ txn.writeSet.entries ≠ [] ∧ txn.Touches key := by
  refine ⟨fun valid => ?_, fun wrote => validates_of_touches active wrote.1 wrote.2⟩
  -- The other transaction has written this key and done nothing else.
  let other : CommittedTxn := ⟨0, txn.readSeq + 1, [key], [], []⟩
  obtain ⟨err, failed, state⟩ := valid { m with history := [other] } other (.head _)
    (Nat.lt_succ_self _) (.head _) 0 false none
  rw [TransactionManager.commit, if_neg (not_not_intro active), if_neg Bool.false_ne_true]
    at failed state
  split_ifs at failed state with unwritten
  refine ⟨unwritten, ?_⟩
  cases free : SsiHistory.scanConflicts txn [other] with
  | some conflict =>
    by_contra untouched
    have none : SsiHistory.scanConflicts txn [other] = none := by
      refine SsiHistory.scanConflicts_eq_none_iff.mpr ?_
      rintro c member - (⟨k, wrote, hit⟩ | ⟨k, -, range, read, -⟩)
      · obtain rfl := mem_singleton.mp member
        obtain rfl := mem_singleton.mp wrote
        exact untouched hit
      · obtain rfl := mem_singleton.mp member
        cases read
    rw [none] at free
    cases free
  | none =>
    simp only [free] at state
    split at state
    · exact absurd (active.symm.trans state) (by simp)
    · split at state
      · exact absurd (active.symm.trans state) (by simp)
      · cases state

/-- A commit validates a key that a scan may come upon exactly when there is something to commit,
and the scan has recorded the key, or another call touches it. -/
theorem scan_validates_iff (m : TransactionManager) (active : txn.state = .active) (scan : TxnScan)
    (later : List Access) :
    (m.db.Serving → ∀ now rows, scan.stored m txn now = .ok rows → ∀ row ∈ rows,
      scan.Reaches txn row.1) ∧
    ∀ key, scan.Reaches txn key → ((later.foldl apply (txn.apply (.scan scan))).Validates key ↔
        (txn.writeSet.entries ≠ [] ∨ ∃ a ∈ later, a.Writes) ∧
          (scan.Covers key ∨ txn.Touches key ∨ ∃ a ∈ later, a.Touches key)) := by
  refine ⟨fun serving now rows result row member => reaches_of_mem_stored serving result member,
    fun key _ => ?_⟩
  have open' : (later.foldl apply (txn.apply (.scan scan))).state = .active :=
    state_foldl.trans active
  rw [validates_iff m open', touches_foldl, touches_apply, written_foldl]
  tauto

end Transaction

section

open Reference

/-- The row of the primary key 10. -/
def sampleRow : WriteBatch where
  bufferedWrites := [⟨Bytes.ofString "t10", Bytes.ofString "v", 0⟩]
  bufferedDeletes := []
  count := by decide
  values := by decide

/-- A transaction that begins after the row was stored. -/
def sampleReader (db : Engine) : Transaction × TransactionManager :=
  (TransactionManager.commitDirectly (.new db [] "30s") sampleRow none).2.begin

def sampleCandidates (db : Engine) : List Version :=
  (sampleReader db).2.db.roots.candidates (.ofString "t1") (Bytes.ofString "t1" ++ [0x7F])
    (sampleReader db).1.readSeq

/-- Another transaction overwrites the row. -/
def sampleOverwritten (db : Engine) : TransactionManager :=
  let other := (sampleReader db).2.begin
  (other.2.commit (other.1.apply (.write (.ofString "t10") (some [], 0))) 0 false none).2.2

/-- The lookup of the primary key 1 shows the row of the key 10, and the commit does not validate
it. -/
theorem point_scan_unvalidated :
    ∃ m m' : TransactionManager, ∃ reader : Transaction, ∃ scan : TxnScan, ∃ c ∈ m'.history,
      reader.state = .active ∧ scan.stored m reader 0 = .ok [(.ofString "t10", .ofString "v")] ∧
      reader.readSeq < c.commitSeq ∧ .ofString "t10" ∈ c.writeKeys ∧
      ∃ seq, (m'.commit ((reader.apply (.scan scan)).apply (.write (.ofString "y") (some [], 0))) 0
        false none).1 = .ok seq := by
  have outcome : ∃ db, Engine.openDb .empty = .ok db ∧ (sampleReader db).1.state = .active ∧
      (sampleCandidates db).length ≤ 1 ∧
      (Engine.scanLoop 0 (sampleCandidates db) (sampleReader db).2.db).1 =
      .ok [(.ofString "t10", .ofString "v")] ∧
      (∃ c ∈ (sampleOverwritten db).history, (sampleReader db).1.readSeq < c.commitSeq ∧
        .ofString "t10" ∈ c.writeKeys) ∧
      ∃ seq,
      ((sampleOverwritten db).commit
      (((sampleReader db).1.apply (.scan (.point (.ofString "t1")))).apply
        (.write (.ofString "y") (some [], 0))) 0 false none).1 = .ok seq := by
    decide +kernel
  obtain ⟨db, -, active, few, scanned, ⟨c, member, later, wrote⟩, committed⟩ := outcome
  refine ⟨(sampleReader db).2, _, _, .point (.ofString "t1"), c, member, active, ?_, later, wrote,
    committed⟩
  rw [sampleCandidates, ← StorageRoots.scan_of_length_le_one few] at scanned
  simp only [stored, bounds, Engine.scan, scanned]
  rfl

/-- The scan of a table has recorded the row of the primary key 1. -/
theorem table_scan_validates : (table (.ofString "t")).Reaches (.new 1 1) (.ofString "t1") ∧
      (([.write (.ofString "y") (some [], 0)] : List Access).foldl apply
        (apply (.new 1 1) (.scan (.table (.ofString "t"))))).Validates (.ofString "t1") := by
  have reached : (table (.ofString "t")).Reaches (.new 1 1) (.ofString "t1") :=
    ⟨nofun, by decide, by decide⟩
  have covered : (table (.ofString "t")).Covers (.ofString "t1") := by
    constructor <;> decide
  refine ⟨reached, ((scan_validates_iff TxnSystem.sampleManager rfl _ _).2 _ reached).mpr ?_⟩
  exact ⟨.inr ⟨_, .head _, trivial⟩, .inl covered⟩

end

def lastNamed (name : Bytes) : List Savepoint → Option (ℕ × Savepoint)
  | [] => none
  | sp :: rest =>
    match lastNamed name rest with
    | some (pos, found) => some (pos + 1, found)
    | none => if sp.name = name then some (0, sp) else none

theorem lastNamed_cases (name : Bytes) (l : List Savepoint) :
    (lastNamed name l = none ∧ ∀ sp ∈ l, sp.name ≠ name) ∨
      ∃ before sp after, l = before ++ sp :: after ∧ sp.name = name ∧
      (∀ other ∈ after, other.name ≠ name) ∧ lastNamed name l = some (before.length, sp) := by
  induction l with
  | nil => exact .inl ⟨rfl, nofun⟩
  | cons sp rest ih =>
    rw [lastNamed]
    obtain ⟨none, others⟩ | ⟨before, found, after, rfl, named, others, some⟩ := ih
    · by_cases here : sp.name = name
      · exact .inr ⟨[], sp, rest, rfl, here, others, by simp [none, here]⟩
      · exact .inl ⟨by simp [none, here], forall_mem_cons.mpr ⟨here, others⟩⟩
    · exact .inr ⟨sp :: before, found, after, rfl, named, others, by simp [some]⟩

namespace Transaction

def savepointNotFound (name : Bytes) : OmniError :=
  .ioError ("Savepoint '" ++ keyText name ++ "' not found")

def savepoint (txn : Transaction) (name : Bytes) : Except OmniError Transaction :=
  if txn.state ≠ .active then .error notActive
  else .ok { txn with
    savepoints := txn.savepoints ++ [⟨name, txn.writeSet, txn.readSet, txn.readRanges⟩] }

/-- Return to a savepoint. The savepoint itself is used up. -/
def rollbackToSavepoint (txn : Transaction) (name : Bytes) : Except OmniError Transaction :=
  if txn.state ≠ .active then .error notActive
  else
    match lastNamed name txn.savepoints with
    | none => .error (savepointNotFound name)
    | some (pos, sp) => .ok { txn with
        writeSet := sp.writeSetSnapshot
        readSet := sp.readSetSnapshot
        readRanges := sp.readRangesSnapshot
        savepoints := txn.savepoints.take pos }

def releaseSavepoint (txn : Transaction) (name : Bytes) : Except OmniError Transaction :=
  if txn.state ≠ .active then .error notActive
  else
    match lastNamed name txn.savepoints with
    | none => .error (savepointNotFound name)
    | some (pos, _) => .ok { txn with savepoints := txn.savepoints.eraseIdx pos }

end Transaction

inductive TxnOp
  | access (a : Access)
  | savepoint (name : Bytes)
  | rollbackTo (name : Bytes)
  | release (name : Bytes)

/-- A transaction next to what its client knows: all reads, and the writes at each savepoint, the
most recent first. -/
structure SavepointRun where
  txn : Transaction
  readKeys : List Bytes
  readRanges : List (Bytes × Bytes)
  live : List (Bytes × WriteSet)

namespace SavepointRun

variable {s s' : SavepointRun} {op : TxnOp} {id readSeq : ℕ}

def initial (id readSeq : ℕ) : SavepointRun := ⟨.new id readSeq, [], [], []⟩

/-- A call that is refused changes nothing. -/
def next (s : SavepointRun) : TxnOp → Option SavepointRun
  | .access a => some { s with
      txn := s.txn.apply a
      readKeys := s.readKeys ++ a.readKeys s.txn
      readRanges := s.readRanges ++ a.readRanges }
  | .savepoint name =>
    match s.txn.savepoint name with
    | .ok txn => some { s with txn := txn, live := (name, s.txn.writeSet) :: s.live }
    | .error _ => some s
  | .rollbackTo name =>
    match s.txn.rollbackToSavepoint name with
    | .ok txn => some { s with txn := txn, live := (s.live.dropWhile (·.1 ≠ name)).tail }
    | .error _ => some s
  | .release name =>
    match s.txn.releaseSavepoint name with
    | .ok txn => some { s with txn := txn, live := s.live.eraseP (·.1 = name) }
    | .error _ => some s

/-- Nothing was read between a savepoint and the return to it. -/
def Safe (s : SavepointRun) : TxnOp → Prop
  | .rollbackTo name => ∀ found ∈ lastNamed name s.txn.savepoints,
      s.txn.readSet ⊆ found.2.readSetSnapshot ∧ s.txn.readRanges ⊆ found.2.readRangesSnapshot
  | _ => True

instance (s : SavepointRun) (op : TxnOp) : Decidable (s.Safe op) :=
  match op with
  | .rollbackTo name => inferInstanceAs (Decidable (∀ found ∈ lastNamed name s.txn.savepoints, _))
  | .access _ | .savepoint _ | .release _ => inferInstanceAs (Decidable True)

/-- The savepoints of the transaction, as its client sees them. -/
def marks (savepoints : List Savepoint) : List (Bytes × WriteSet) :=
  savepoints.reverse.map fun sp => (sp.name, sp.writeSetSnapshot)

/-- The transaction is active, and its savepoints are those that its client expects. -/
structure Tracks (s : SavepointRun) : Prop where
  active : s.txn.state = .active
  live : s.live = marks s.txn.savepoints

structure Remembers (s : SavepointRun) : Prop where
  keys : ∀ key ∈ s.readKeys, key ∈ s.txn.readSet
  ranges : ∀ range ∈ s.readRanges, range ∈ s.txn.readRanges

/-- What the client sees of the savepoints, around one of them. -/
theorem marks_split (before after : List Savepoint) (sp : Savepoint) :
    marks (before ++ sp :: after) = marks after ++ (sp.name, sp.writeSetSnapshot) ::
      marks before := by
  simp [marks]

theorem ne_of_mem_marks {savepoints : List Savepoint} {name : Bytes} {mark : Bytes × WriteSet}
    (others : ∀ sp ∈ savepoints, sp.name ≠ name) (member : mark ∈ marks savepoints) :
    mark.1 ≠ name := by
  obtain ⟨sp, inside, rfl⟩ := mem_map.mp member
  exact others sp (mem_reverse.mp inside)

/-- A rollback returns to the most recent savepoint of the client, and fails if there is none. -/
theorem Tracks.rollback (tracks : s.Tracks) (name : Bytes) : match s.live.find? (·.1 = name) with
    | some mark => ∃ txn, s.txn.rollbackToSavepoint name = .ok txn ∧ txn.writeSet = mark.2
    | none => s.txn.rollbackToSavepoint name = .error (savepointNotFound name) := by
  rw [tracks.live, rollbackToSavepoint, if_neg (not_not_intro tracks.active)]
  obtain ⟨none, others⟩ | ⟨before, sp, after, split, rfl, others, found⟩ :=
    lastNamed_cases name s.txn.savepoints
  · rw [find?_eq_none.mpr fun mark member => by simpa using ne_of_mem_marks others member, none]
  · have skipped : (marks after).find? (·.1 = sp.name) = none :=
      find?_eq_none.mpr fun mark member => by simpa using ne_of_mem_marks others member
    rw [found, split, marks_split, find?_append, skipped]
    simp

theorem Tracks.next (tracks : s.Tracks) (step : s.next op = some s') : s'.Tracks := by
  cases op with
  | access a =>
    cases step
    exact ⟨tracks.active, tracks.live⟩
  | savepoint name =>
    rw [SavepointRun.next, savepoint, if_neg (not_not_intro tracks.active)] at step
    cases step
    refine ⟨tracks.active, ?_⟩
    simp [marks, tracks.live]
  | rollbackTo name =>
    rw [SavepointRun.next, rollbackToSavepoint, if_neg (not_not_intro tracks.active)] at step
    obtain ⟨none, -⟩ | ⟨before, sp, after, split, rfl, others, found⟩ :=
      lastNamed_cases name s.txn.savepoints
    · rw [none] at step
      exact Option.some.inj step ▸ tracks
    · rw [found] at step
      cases step
      refine ⟨tracks.active, ?_⟩
      simp only [tracks.live, split, marks_split]
      rw [dropWhile_append_of_pos fun mark member => by simpa using ne_of_mem_marks others member]
      simp
  | release name =>
    rw [SavepointRun.next, releaseSavepoint, if_neg (not_not_intro tracks.active)] at step
    obtain ⟨none, -⟩ | ⟨before, sp, after, split, rfl, others, found⟩ :=
      lastNamed_cases name s.txn.savepoints
    · rw [none] at step
      exact Option.some.inj step ▸ tracks
    · rw [found] at step
      cases step
      refine ⟨tracks.active, ?_⟩
      simp only [tracks.live, split, marks_split]
      rw [eraseP_append_right _ fun mark member => by simpa using ne_of_mem_marks others member]
      simp [marks, eraseIdx_append_of_length_le]

theorem Remembers.next (remembers : s.Remembers) (tracks : s.Tracks) (safe : s.Safe op)
    (step : s.next op = some s') : s'.Remembers := by
  cases op with
  | access a =>
    cases step
    refine ⟨fun key read => mem_union_iff.mpr ?_, fun range read => mem_append.mpr ?_⟩
    · exact (mem_append.mp read).symm.imp_right (remembers.keys key)
    · exact (mem_append.mp read).imp_left (remembers.ranges range)
  | savepoint name =>
    rw [SavepointRun.next, savepoint, if_neg (not_not_intro tracks.active)] at step
    exact Option.some.inj step ▸ ⟨remembers.keys, remembers.ranges⟩
  | rollbackTo name =>
    rw [SavepointRun.next, rollbackToSavepoint, if_neg (not_not_intro tracks.active)] at step
    cases found : lastNamed name s.txn.savepoints with
    | none =>
      rw [found] at step
      exact Option.some.inj step ▸ remembers
    | some entry =>
      obtain ⟨keys, ranges⟩ := safe entry found
      rw [found] at step
      exact Option.some.inj step ▸ ⟨fun key read => keys (remembers.keys key read),
        fun range read => ranges (remembers.ranges range read)⟩
  | release name =>
    rw [SavepointRun.next, releaseSavepoint, if_neg (not_not_intro tracks.active)] at step
    cases found : lastNamed name s.txn.savepoints with
    | none =>
      rw [found] at step
      exact Option.some.inj step ▸ remembers
    | some entry =>
      rw [found] at step
      exact Option.some.inj step ▸ ⟨remembers.keys, remembers.ranges⟩

section

variable [External]

/-- A rollback restores the writes of its savepoint. If nothing is read between a savepoint and the
return to it, the commit validates everything that was read. -/
theorem rollback_validates (run : ReflTransGen (Run.Step next) (initial id readSeq) s) :
    (∀ name, match s.live.find? (·.1 = name) with
      | some mark => ∃ txn, s.txn.rollbackToSavepoint name = .ok txn ∧ txn.writeSet = mark.2
      | none => s.txn.rollbackToSavepoint name = .error (savepointNotFound name)) ∧
    (ReflTransGen (Run.SafeStep Safe next) (initial id readSeq) s → s.txn.writeSet.entries ≠ [] →
      ∀ key, key ∈ s.readKeys ∨ (∃ range ∈ s.readRanges, InRange range key) →
      s.txn.Validates key) := by
  have tracks : s.Tracks := Run.step_invariant run ⟨rfl, rfl⟩ fun tracks step => tracks.next step
  refine ⟨tracks.rollback, fun safe written key read => ?_⟩
  have both : s.Tracks ∧ s.Remembers := Run.invariant (I := fun s => s.Tracks ∧ s.Remembers) safe
    ⟨⟨rfl, rfl⟩, ⟨nofun, nofun⟩⟩
    fun ⟨tracks, remembers⟩ safe step => ⟨tracks.next step, remembers.next tracks safe step⟩
  have remembers := both.2
  apply validates_of_touches tracks.active written
  obtain known | ⟨range, scanned, inside⟩ := read
  · exact .inr (.inl (remembers.keys key known))
  · exact .inr (.inr ⟨range, remembers.ranges range scanned, inside⟩)

end

section

open Reference

/-- The read of `x` is forgotten with the return to the savepoint, and the commit succeeds after `x`
was overwritten. -/
theorem rollback_forgets_read :
    ∃ s, [.savepoint (.ofString "s"), .access (.get (.ofString "x")), .rollbackTo (.ofString "s"),
        .access (.write (.ofString "y") (some [], 0))].foldlM next (initial 1 1) = some s ∧
      .ofString "x" ∈ s.readKeys ∧ s.txn.writeSet.entries ≠ [] ∧
      ∃ m : TransactionManager, m.history = [⟨2, 2, [.ofString "x"], [], []⟩] ∧ s.txn.readSeq < 2 ∧
        ∃ seq, (m.commit s.txn 0 false none).1 = .ok seq :=
  ⟨_, rfl, by decide +kernel, by decide +kernel,
    { TxnSystem.sampleManager with history := [⟨2, 2, [.ofString "x"], [], []⟩] }, rfl,
    by decide +kernel, by decide +kernel⟩

/-- Here `x` is read before the savepoint as well. -/
theorem rollback_validates_earlier_read :
    ∃ s, ReflTransGen (Run.SafeStep Safe next) (initial 1 1) s ∧ s.live = [] ∧
      s.txn.Validates (.ofString "x") := by
  have safe := Run.safeStep_get Safe next (initial 1 1)
    [.access (.get (.ofString "x")), .savepoint (.ofString "s"), .access (.get (.ofString "x")),
      .rollbackTo (.ofString "s"), .access (.write (.ofString "y") (some [], 0))]
      (by decide +kernel)
  have steps := Run.step_of_safeStep safe
  exact ⟨_, safe, by decide +kernel, (rollback_validates steps).2 safe (by decide +kernel) _
    (.inl (by decide +kernel))⟩

end

end SavepointRun

end OmniKV
