import OmniKV.Query.KvQuery
import OmniKV.Query.Statements
import OmniKV.Transaction.Autocommit

/-!
# Statements on a wire connection

A connection has at most one transaction block open. A copy of the text in upper case decides what
it is: a transaction command, `SET`, a shortcut, or a statement, which is read with the SQL grammar
and, if that fails, with the legacy one. The SQL executor is a parameter.
-/

namespace OmniKV.Wire

open Sql Parse KvQuery

/-- What the executor does with the store until it has a result. -/
inductive StoreProgram (α : Type)
  | done (a : α)
  | getSeq (next : ℕ → StoreProgram α)
  | find (key : Bytes) (readSeq : ℕ) (next : Except OmniError (Option Bytes) → StoreProgram α)
  | scan (start stop : Bytes) (readSeq : ℕ) (next : Except OmniError (List (Bytes × Bytes)) →
    StoreProgram α)
  | commit (batch : WriteBatch) (next : Except OmniError ℕ → StoreProgram α)

/-- The time, whether the transaction has timed out, and a failure of the storage layer. -/
structure Circumstances where
  now : UInt64
  expired : Bool
  fault : Option CommitFault

/-- The result of the executor, with the reads that it recorded and the batch that it staged. -/
structure Executed where
  result : Except String ExecResult
  readKeys : List Bytes
  readRanges : List (Bytes × Bytes)
  staged : WriteBatch

/-- `SqlExecutor::execute`, at the snapshot and over the writes of an open transaction, or with
autocommit. -/
class SqlExecutor where
  execute : Option (ℕ × WriteSet) → SqlStatement → StoreProgram Executed

def StoreProgram.run [External] {α : Type} (here : Circumstances) :
    StoreProgram α → Engine → α × Engine
  | done a, e => (a, e)
  | getSeq next, e => (next e.getSeq).run here e
  | find key readSeq next, e =>
    let (value, e) := e.find key readSeq here.now
    (next value).run here e
  | scan start stop readSeq next, e =>
    let (entries, e) := e.scan start stop readSeq here.now
    (next entries).run here e
  | commit batch next, e =>
    let (seq, e) := e.commitBatchLocalLocked batch here.fault
    (next seq).run here e

structure TxnBlock where
  txn : Option Transaction
  /-- An error occurred in the block. -/
  txnFailed : Bool

inductive StepOutcome
  | complete (tag : String)
  | rows (columns : List (Bytes × ℕ)) (rows : List (List Cell)) (tag : String)
  | warning (code message tag : String)
  | error (code message : String)
deriving DecidableEq

/-- A connection and the manager that all connections share. -/
structure WireState where
  manager : TransactionManager
  block : TxnBlock

namespace TxnBlock

def idle : TxnBlock := ⟨none, false⟩

/-- The status byte of `ReadyForQuery`. -/
def readyStatus (block : TxnBlock) : Char :=
  if block.txnFailed then 'E' else if block.txn.isSome then 'T' else 'I'

/-- An error fails an open transaction. -/
def fail (block : TxnBlock) : TxnBlock :=
  { block with txnFailed := block.txnFailed || block.txn.isSome }

end TxnBlock

namespace WireState

def fail (w : WireState) : WireState := { w with block := w.block.fail }

def begin (w : WireState) : WireState :=
  let (txn, m) := w.manager.begin
  ⟨m, ⟨some txn, false⟩⟩

/-- The block after `AND CHAIN`. -/
def chained (chain : Bool) (w : WireState) : WireState := if chain then w.begin else w

end WireState

def stageBatch (writes : WriteSet) (batch : WriteBatch) : WriteSet :=
  batch.bufferedDeletes.foldl (fun writes key => writes.insert key (none, 0))
    (batch.bufferedWrites.foldl (fun writes w => writes.insert w.key (some w.value, w.expiry))
    writes)

/-- `MAX_PGWIRE_RESULT_ROWS` -/
def maxResultRows : ℕ := 10000

def boundedPgwireQueryLimit : Option ℕ → Except String ℕ
  | some limit =>
    if limit > maxResultRows then
      .error s!"SELECT LIMIT {limit} exceeds PgWire maximum of {maxResultRows} rows"
    else .ok limit
  | none => .ok maxResultRows

def boundedPgwireSqlLimit (limit offset : Option ℕ) : Except String ℕ :=
  let skipped := offset.getD 0
  if skipped > maxResultRows then
    .error s!"SELECT OFFSET {skipped} exceeds PgWire maximum query window of {maxResultRows} rows"
  else
    match limit with
    | some limit =>
      if limit > maxResultRows then
        .error s!"SELECT LIMIT {limit} exceeds PgWire maximum of {maxResultRows} rows"
      else if limit + skipped > maxResultRows then
        .error s!"SELECT LIMIT/OFFSET window exceeds PgWire maximum of {maxResultRows} rows"
      else .ok limit
    | none => .ok (maxResultRows - skipped)

def enforcePgwireStatementLimits : SqlStatement → Except String SqlStatement
  | .select columns source whereClause groupBy having orderBy limit offset => do
      let limit ← boundedPgwireSqlLimit limit offset
      return .select columns source whereClause groupBy having orderBy (some limit) offset
  | .setOp op left right all => do
      let left ← enforcePgwireStatementLimits left
      let right ← enforcePgwireStatementLimits right
      return .setOp op left right all
  | other => .ok other

/-- Whether a message contains a text. -/
def mentions (message part : String) : Bool := part.toList <:+: message.toList

def sqlstateForExecError (message : String) : String :=
  if mentions message "duplicate key value violates primary key" then "23505"
  else if mentions message "column \"" && mentions message "does not exist" then "42703"
  else if mentions message "is ambiguous" then "42702"
  else if mentions message "does not exist" || mentions message "is not in the FROM clause" then
  "42P01" else if mentions message "already exists" then "42P07"
  else "XX000"

def outcomeOf : ExecResult → StepOutcome
  | .rows columns rows =>
    let count := rows.length
    .rows (columns.map (·, 25)) rows s!"SELECT {count}"
  | .modified _ command => .complete command
  | .ok message => .complete message

def mergeStagedWritesIntoTxn (executed : Executed) (txn : Transaction) : Transaction :=
  { txn with
    readSet := executed.readKeys.foldl (fun keys key => keys.insert key) txn.readSet
    readRanges := txn.readRanges ++ executed.readRanges
    writeSet := stageBatch txn.writeSet executed.staged }

section

variable [External]

def runStatement [SqlExecutor] (w : WireState) (stmt : SqlStatement) (here : Circumstances) :
    StepOutcome × WireState :=
  let program := SqlExecutor.execute (w.block.txn.map fun txn => (txn.readSeq, txn.writeSet)) stmt
  let (executed, db) := program.run here w.manager.db
  let w := { w with manager := { w.manager with db := db } }
  match executed.result with
  | .ok result =>
    (outcomeOf result, { w with block :=
      { w.block with txn := w.block.txn.map (mergeStagedWritesIntoTxn executed) } })
  | .error message => (.error (sqlstateForExecError message) s!"Exec error: {message}", w.fail)

def runLimited [SqlExecutor] (w : WireState) (stmt : SqlStatement) (here : Circumstances) :
    StepOutcome × WireState :=
  match enforcePgwireStatementLimits stmt with
  | .error message => (.error "54000" message, w.fail)
  | .ok stmt => runStatement w stmt here

def stageKvWrite (w : WireState) (batch : WriteBatch) (here : Circumstances) :
    Except OmniError Unit × WireState :=
  match w.block.txn with
  | some txn =>
    (.ok (), { w with block :=
      { w.block with txn := some { txn with writeSet := stageBatch txn.writeSet batch } } })
  | none =>
    let (seq, m) := w.manager.commitDirectly batch here.fault
    (seq.map fun _ => (), { w with manager := m })

/-- A scan with the staged writes of the open transaction in place of what is stored. -/
def overlayKvScan (w : WireState) (start stop : Bytes) (here : Circumstances) :
    List (Bytes × Bytes) × WireState :=
  let seq := (w.block.txn.map Transaction.readSeq).getD w.manager.db.getSeq
  let (found, db) := w.manager.db.scan start stop seq here.now
  let stored : List (Bytes × Bytes) := found.toOption.getD []
  let overlaid : List (Bytes × Bytes) :=
    match w.block.txn with
    | none => stored
    | some txn =>
      (stored.filter fun entry => (txn.writeSet.get? entry.1).isNone) ++
        txn.writeSet.entries.filterMap fun (key, value, _) =>
          if start ≤ key && key < stop then value.map (key, ·) else none
  (overlaid.mergeSort fun a b => a.1 ≤ b.1,
    { manager := { w.manager with db := db }
      block := { w.block with
        txn := w.block.txn.map fun txn => { txn with readRanges :=
          txn.readRanges ++ [(start, stop)] } } })

def answerKvWrite (w : WireState) (batch : WriteBatch) (tag failure : String)
    (here : Circumstances) : StepOutcome × WireState :=
  match stageKvWrite w batch here with
  | (.ok (), w) => (.complete tag, w)
  | (.error err, w) =>
    let err := err.text
    (.error "XX000" s!"{failure} failed: {err}", w)

/-- Set a key. -/
def executeKvSet (w : WireState) (key value : Bytes) (tag failure : String) (here : Circumstances) :
    StepOutcome × WireState :=
  match WriteBatch.new.set key value with
  | .error err =>
    let err := err.text
    (.error "XX000" s!"Batch error: {err}", w)
  | .ok batch => answerKvWrite w batch tag failure here

def deleteBatch (keys : List Bytes) : WriteBatch :=
  keys.foldl (fun batch key => (batch.delete key).toOption.getD batch) .new

def executeParsedKvQuery (w : WireState) (parsed : KvQuery.Query) (here : Circumstances) :
    StepOutcome × WireState :=
  let (start, stop) := buildScanRange parsed.conditions
  match parsed.action with
  | .selectAll =>
    let (results, w) := overlayKvScan w start stop here
    match boundedPgwireQueryLimit parsed.limit with
    | .error message => (.error "54000" message, w)
    | .ok limit =>
      let rows := ((if parsed.orderDesc then results.reverse else results).take limit).map
          fun (key, value) =>
        [some key, some value]
      let count := rows.length
      (.rows [(.ofString "key", 25), (.ofString "value", 25)] rows s!"SELECT {count}", w)
  | .selectCount =>
    let (results, w) := overlayKvScan w start stop here
    (.rows [(.ofString "count", 20)] [[some (Bytes.decimal results.length)]] "SELECT 1", w)
  | .insert key value => executeKvSet w key value "INSERT 0 1" "Insert" here
  | .update key value => executeKvSet w key value "UPDATE 1" "Update" here
  | .delete =>
    let (results, w) := overlayKvScan w start stop here
    let batch := deleteBatch (results.map Prod.fst)
    let deleted := batch.opCount
    if deleted = 0 then (.complete s!"DELETE {deleted}", w)
    else answerKvWrite w batch s!"DELETE {deleted}" "Delete" here

def noTransaction : String := "there is no transaction in progress"

def executeCommit (w : WireState) (chain : Bool) (here : Circumstances) : StepOutcome × WireState :=
  match w.block.txn with
  | some txn =>
    if w.block.txnFailed then (.complete "ROLLBACK", .chained chain ⟨(w.manager.abort txn).2,
      .idle⟩)
    else
      match w.manager.commit txn here.now here.expired here.fault with
      | (.ok _, _, m) => (.complete "COMMIT", .chained chain ⟨m, .idle⟩)
      | (.error err, _, m) =>
        let err := err.text
        (.error "40001" s!"COMMIT failed: {err}", ⟨m, .idle⟩)
  | none =>
    if chain then (.error "25P01" noTransaction, w) else (.warning "25P01" noTransaction "COMMIT",
      w)

omit [External] in
def executeRollback (w : WireState) (chain : Bool) : StepOutcome × WireState :=
  match w.block.txn with
  | some txn => (.complete "ROLLBACK", .chained chain ⟨(w.manager.abort txn).2, .idle⟩)
  | none =>
    if chain then (.error "25P01" noTransaction, w) else (.warning "25P01" noTransaction "ROLLBACK",
      w)

omit [External] in
def executeBegin (w : WireState) : StepOutcome × WireState :=
  if w.block.txn.isSome then (.warning "25001" "there is already a transaction in progress" "BEGIN",
    w)
  else (.complete "BEGIN", w.begin)

/-- What a trimmed text asks for. A statement comes with its normalized text. -/
inductive Command
  | empty
  | set
  | begin
  | commit (chain : Bool)
  | rollback (chain : Bool)
  | statement (normalized : Bytes)
deriving DecidableEq

section

variable [TextFunctions]

omit [External] in
/-- The text in upper case with single spaces. -/
def normalize (text : Bytes) : Bytes := join (words (TextFunctions.upper text))

section

omit [External] [TextFunctions]

/-- A command that ends a transaction without its `AND [NO] CHAIN`, and whether it chains. -/
def stripChain (normalized : Bytes) : Bytes × Bool :=
  if ["COMMIT", "END", "ROLLBACK", "ABORT"].any (isToken (normalized.takeWhile (· ≠ 32)) ·) then
    match (Bytes.ofString " AND NO CHAIN").isSuffixOf? normalized,
        (Bytes.ofString " AND CHAIN").isSuffixOf? normalized with
    | some rest, _ => (rest, false)
    | none, some rest => (rest, true)
    | none, none => (normalized, false)
  else (normalized, false)

def startsWith (text : Bytes) (word : String) : Bool := (Bytes.ofString word).isPrefixOf text

end

omit [External] in
def commandOf (trimmed : Bytes) : Command :=
  let (text, chain) := stripChain (normalize trimmed)
  if trimmed = [] then .empty
  else if isToken text "SET" || startsWith text "SET " then .set
  else if ["BEGIN", "BEGIN WORK", "BEGIN TRANSACTION", "START TRANSACTION"].any
  (isToken text ·) then .begin
  else if ["COMMIT", "COMMIT WORK", "COMMIT TRANSACTION", "END", "END WORK", "END TRANSACTION"].any
  (isToken text ·) then
    .commit chain
  else if ["ROLLBACK", "ROLLBACK WORK", "ROLLBACK TRANSACTION", "ABORT", "ABORT WORK",
  "ABORT TRANSACTION"].any
      (isToken text ·) then .rollback chain
  else .statement text

section

omit [External] [TextFunctions]

/-- The texts that are answered without reading them as statements. -/
def isShortcut (normalized : Bytes) : Bool :=
  isToken normalized "SELECT 1" || startsWith normalized "SELECT VERSION"

def versionRows : StepOutcome :=
  .rows [(.ofString "version", 25)] [[some (.ofString "OmniKV 0.1.0 — Distributed KV Engine")]]
    "SELECT 1"

end

variable [SqlExecutor]

def executeLegacyStatement (w : WireState) (text : Bytes) (params : List (Option Bytes))
    (here : Circumstances) : StepOutcome × WireState :=
  if !params.isEmpty then
    (.error "0A000" "parameterized statements require the SQL grammar; the legacy KV grammar does not support parameters", w)
  else
    match parseQuery text with
    | .ok parsed => executeParsedKvQuery w parsed here
    | .error message => (.error "42601" s!"Parse error: {message}", w.fail)

def executeNonTransactionalStatement (w : WireState) (text normalized : Bytes)
    (params : List (Option Bytes)) (here : Circumstances) : StepOutcome × WireState :=
  if w.block.txnFailed then
    (.error "25P02"
      "current transaction is aborted, commands ignored until end of transaction block", w)
  else if isShortcut normalized then (versionRows, w)
  else
    match parseSql text with
    | .ok parsed =>
      match bindStatementParams parsed params with
      | .error message => (.error "08P01" message, w.fail)
      | .ok stmt => runLimited w stmt here
    | .error _ => executeLegacyStatement w text params here

def executeStatementWithParams (w : WireState) (sql : Bytes) (params : List (Option Bytes))
    (here : Circumstances) : StepOutcome × WireState :=
  match commandOf (strip sql) with
  | .empty => (.complete "EMPTY", w)
  | .set => (.complete "SET", w)
  | .begin => executeBegin w
  | .commit chain => executeCommit w chain here
  | .rollback chain => executeRollback w chain
  | .statement normalized => executeNonTransactionalStatement w (strip sql) normalized params here

def executeStatementCore (w : WireState) (sql : Bytes) (here : Circumstances) :
    StepOutcome × WireState :=
  executeStatementWithParams w sql [] here

end

end

end OmniKV.Wire
