import OmniKV.Data.Checked
import OmniKV.Wire.Session

/-!
# The messages of a wire connection

The simple protocol runs the text of a query. The extended one keeps prepared statements and
portals, and after an error skips messages up to the next Sync. The rate limiter, the socket and a
panic of the executor are the environment of a message.
-/

namespace OmniKV.Wire

open Sql Parse KvQuery Checked

structure PreparedStatement where
  sql : Bytes
  paramOids : List ℕ

/-- The rows of a portal that is not finished. -/
structure SuspendedRows where
  columns : List (Bytes × ℕ)
  rows : List (List Cell)
  tag : String
  streamed : ℕ

structure Portal where
  sql : Bytes
  sourceStatement : Bytes
  params : List (Option Bytes)
  suspendedRows : Option SuspendedRows

structure ConnectionState extends TxnBlock where
  namedStatements : SortedMap Bytes PreparedStatement
  portals : SortedMap Bytes Portal
  extendedErrorPending : Bool

structure Connection where
  manager : TransactionManager
  conn : ConnectionState

structure Environment where
  here : Circumstances
  /-- The refusal of the rate limiter, with the time to wait. -/
  retryAfter : Option ℕ
  /-- The number of frames that are written before the socket fails, if it does. -/
  writable : Option ℕ
  executorPanics : Bool

inductive Frame
  | error (code message : String)
  | notice (code message : String)
  | commandComplete (tag : String)
  | readyForQuery (status : Char)
  | rowDescription (columns : List (Bytes × ℕ))
  | dataRow (values : List Cell)
  | parameterDescription (oids : List ℕ)
  | parseComplete
  | bindComplete
  | closeComplete
  | noData
  | portalSuspended

/-- A connection after a message, with the frames of the answer. -/
abbrev Answer := Connection × List Frame

/-- The code and the message of an error. -/
abbrev ProtocolError := String × String

/-- Functions of the standard library on texts. -/
class Utf8 where
  /-- The error of `str::from_utf8`. -/
  invalid : Bytes → Option String
  /-- `String::from_utf8_lossy` -/
  lossy : Bytes → Bytes

/-- `MAX_PGWIRE_PACKET_BYTES` -/
def maxPacketBytes : ℕ := 4 * 1024 * 1024

/-- `MAX_PGWIRE_PREPARED_STATEMENTS` -/
def maxPreparedStatements : ℕ := 1000

/-- `MAX_PGWIRE_PORTALS` -/
def maxPortals : ℕ := 1000

namespace ConnectionState

def new : ConnectionState := ⟨.idle, .empty, .empty, false⟩

end ConnectionState

variable (c : Connection)

namespace Connection

def wire : WireState := ⟨c.manager, c.conn.toTxnBlock⟩

def withWire (w : WireState) : Connection :=
  ⟨w.manager, { c.conn with toTxnBlock := w.block }⟩

/-- `extended_protocol_error` -/
def protocolError (code message : String) : Answer :=
  ({ c with conn := { c.conn with toTxnBlock := c.conn.fail, extendedErrorPending := true } },
    [.error code message])

def readyForQuery : Frame := .readyForQuery c.conn.readyStatus

/-- Abort an open transaction. -/
def release : Connection :=
  match c.conn.txn with
  | some txn => ⟨(c.manager.abort txn).2, { c.conn with txn := none }⟩
  | none => c

def extended (x : Checked ProtocolError Answer) : Checked ProtocolError Answer :=
  if c.conn.extendedErrorPending then pure (c, [])
  else recover x fun err => c.protocolError err.1 err.2

end Connection

def rateLimited (retryAfter : ℕ) : String := s!"rate limit exceeded; retry after {retryAfter}ms"

/-- The number that bytes denote, the highest byte first. -/
def beNat (bytes : Bytes) : ℕ := bytes.foldl (fun n b => 256 * n + b.toNat) 0

def readExact (n : ℕ) (stream : Bytes) : Option (Bytes × Bytes) :=
  if n ≤ stream.length then some (stream.take n, stream.drop n) else none

/-- The length of the body, without that of the length itself. -/
def validatePgwireBodyLen (len : ℕ) : Option ℕ :=
  if len < 4 then none else if len - 4 > maxPacketBytes then none else some (len - 4)

/-- The body of a message and the rest of the stream, or nothing if reading fails. -/
def readMessageBody (stream : Bytes) : Checked ProtocolError (Option (Bytes × Bytes)) :=
  match readExact 4 stream with
  | none => pure none
  | some (len, stream) =>
    match validatePgwireBodyLen (beNat len) with
    | none => pure none
    | some n => do
        allocate n
        return readExact n stream

def malformed (message : String) : ProtocolError := ("08P01", message)

section

variable [Utf8]

def takeCstr (buf : Bytes) (what : String) : Checked ProtocolError (Bytes × Bytes) :=
  match buf.findIdx? (· = 0) with
  | none => reject (malformed s!"{what} is missing its null terminator")
  | some stop => do
      let text ← sliceTo buf stop
      match Utf8.invalid text with
      | some err => reject (malformed s!"{what} is not UTF-8: {err}")
      | none => return (text, ← sliceFrom buf (stop + 1))

end

def takeNumber (width : ℕ) (buf : Bytes) : Checked ProtocolError (ℕ × Bytes) := do
  let digits ← sliceTo buf width
  return (beNat digits, ← sliceFrom buf width)

/-- The type numbers of a Parse message. -/
def takeOids : ℕ → Bytes → Checked ProtocolError (List ℕ)
  | 0, _ => pure []
  | count + 1, buf => do
      let (oid, buf) ← takeNumber 4 buf
      return oid :: (← takeOids count buf)

/-- An entry of a list of formats: whether it is another than the text format. -/
def takeFormat (what : String) (buf : Bytes) : Checked ProtocolError (Option Bytes × Bytes) :=
  if buf.length < 2 then reject (malformed s!"{what} entry is truncated")
  else do
    let (code, buf) ← takeNumber 2 buf
    return (if code = 0 then none else some [1], buf)

/-- An entry of a list of values. A negative length denotes NULL. -/
def takeValue (what : String) (buf : Bytes) : Checked ProtocolError (Option Bytes × Bytes) :=
  if buf.length < 4 then reject (malformed s!"{what} entry is truncated")
  else do
    let (len, buf) ← takeNumber 4 buf
    if len ≥ 2 ^ 31 then return (none, buf)
    else if buf.length < len then reject (malformed s!"{what} entry is truncated")
    else
      allocate len
      let value ← sliceTo buf len
      return (some value, ← sliceFrom buf len)

def takeEntries (take : Bytes → Checked ProtocolError (Option Bytes × Bytes)) :
    ℕ → Bytes → Checked ProtocolError (List (Option Bytes) × Bytes)
  | 0, buf => pure ([], buf)
  | count + 1, buf => do
      let (entry, buf) ← take buf
      let (entries, buf) ← takeEntries take count buf
      return (entry :: entries, buf)

/-- The size of an entry of a list of Bind. -/
def entryBytes : ℕ := 24

def readBindList (buf : Bytes) (what : String) (isFormat : Bool) :
    Checked ProtocolError (List (Option Bytes) × Bytes) :=
  if buf.length < 2 then reject (malformed s!"{what} is missing its count")
  else do
    let (count, buf) ← takeNumber 2 buf
    allocate (entryBytes * count)
    takeEntries (if isFormat then takeFormat what else takeValue what) count buf

section

variable [External] [TextFunctions]

omit [External] in
/-- Whether a trimmed text is a command, a shortcut, or a statement of one of the grammars. -/
def statementIsAcceptedByCore (trimmed : Bytes) : Bool :=
  let normalized := normalize trimmed
  let stripped := (stripChain normalized).1
  normalized.isEmpty ||
    ["BEGIN", "BEGIN WORK", "BEGIN TRANSACTION", "START TRANSACTION", "COMMIT", "COMMIT WORK",
    "COMMIT TRANSACTION",
      "END", "END WORK", "END TRANSACTION", "ROLLBACK", "ROLLBACK WORK", "ROLLBACK TRANSACTION",
      "ABORT", "ABORT WORK", "ABORT TRANSACTION"].any (isToken stripped ·) ||
    (isToken normalized "SET" || startsWith normalized "SET ") || isShortcut normalized ||
    (parseSql trimmed).toOption.isSome || (parseQuery trimmed).toOption.isSome

section

omit [External] [TextFunctions]

def aggName : AggFunc → String
  | .count => "count"
  | .sum => "sum"
  | .avg => "avg"
  | .min => "min"
  | .max => "max"

def windowName : WindowFuncType → String
  | .rowNumber => "row_number"
  | .rank => "rank"
  | .denseRank => "dense_rank"

def selectColumnLabel : Parse.SelectColumn → Bytes
  | .star => .ofString "?column?"
  | .named name => name
  | .qualified table column => table ++ 46 :: column
  | .aggregate func arg => Bytes.ofString (aggName func) ++ 40 :: arg ++ [41]
  | .windowFunc func _ _ => .ofString (windowName func)

end

omit [External] in
/-- The columns that a statement returns, if it returns rows. -/
def rowColumns (sql : Bytes) : Option (List (Bytes × ℕ)) :=
  let text := strip sql
  let normalized := normalize text
  if isShortcut normalized then some [(.ofString "version", 25)]
  else if startsWith normalized "SELECT" || startsWith normalized "SHOW" then
    match parseSql text with
    | .ok (.select columns ..) => some (columns.map fun column => (selectColumnLabel column, 25))
    | _ => some [(.ofString "column", 25)]
  else
    match parseQuery text with
    | .ok query =>
      match query.action with
      | .selectAll => some [(.ofString "key", 25), (.ofString "value", 25)]
      | .selectCount => some [(.ofString "count", 20)]
      | _ => none
    | .error _ => none

omit [External] in
def reachesExecutor (block : TxnBlock) (sql : Bytes) (params : List (Option Bytes)) : Bool :=
  match commandOf (strip sql) with
  | .statement normalized =>
    !block.txnFailed && !isShortcut normalized &&
      (((parseSql (strip sql)).toOption.bind fun stmt =>
      (bindStatementParams stmt params).toOption).any
        fun stmt => (enforcePgwireStatementLimits stmt).toOption.isSome)
  | _ => false

variable [SqlExecutor]

def runText (c : Connection) (env : Environment) (sql : Bytes) (params : List (Option Bytes)) :
    Checked ProtocolError (StepOutcome × Connection) :=
  if env.executorPanics && reachesExecutor c.conn.toTxnBlock sql params then crash
  else
    let (outcome, w) := executeStatementWithParams c.wire sql params env.here
    pure (outcome, c.withWire w)

omit [External] [TextFunctions] [SqlExecutor] in
/-- `write_step_outcome_simple` -/
def simpleFrames : StepOutcome → List Frame
  | .complete tag => [.commandComplete tag]
  | .rows columns rows tag => .rowDescription columns :: rows.map .dataRow ++ [.commandComplete tag]
  | .warning code message tag => [.notice code message, .commandComplete tag]
  | .error code message => [.error code message]

def handleQuery (c : Connection) (env : Environment) (sql : Bytes) : Checked ProtocolError Answer :=
  match env.retryAfter with
  | some retryAfter => pure (c, [.error "53300" (rateLimited retryAfter), c.readyForQuery])
  | none => do
      let c := { c with conn := { c.conn with extendedErrorPending := false } }
      let (outcome, c) ← runText c env sql []
      return (c, simpleFrames outcome ++ [c.readyForQuery])

variable [Utf8]

omit [External] [SqlExecutor] in
def handleParse (c : Connection) (env : Environment) (body : Bytes) :
    Checked ProtocolError Answer :=
  c.extended do
    match env.retryAfter with
    | some retryAfter =>
      return ({ c with conn := { c.conn with extendedErrorPending := true } },
        [.error "53300" (rateLimited retryAfter)])
    | none =>
      let (name, rest) ← takeCstr body "statement name"
      let (sql, rest) ← takeCstr rest "query text"
      if rest.length < 2 then reject (malformed "Parse message is missing the parameter type count")
      else
        let (count, oids) ← takeNumber 2 rest
        if rest.length < 2 + count * 4 then
          reject (malformed "Parse message parameter type list is truncated")
        else
          allocate (4 * count)
          let oids ← takeOids count oids
          if !statementIsAcceptedByCore (strip sql) then
            let near := Bytes.text ((words (strip sql)).headD [])
            reject ("42601", s!"syntax error at or near \"{near}\"")
          else
            let statements := if name = [] then c.conn.namedStatements.erase [] else
              c.conn.namedStatements
            if name ≠ [] ∧ (statements.get? name).isNone ∧
                statements.entries.length ≥ maxPreparedStatements then
              reject ("54000",
                s!"too many prepared statements (max {maxPreparedStatements}); close some first")
            else
              return ({ c with conn :=
                { c.conn with namedStatements := statements.insert name ⟨sql, oids⟩ } },
                [.parseComplete])

section

omit [External] [TextFunctions] [SqlExecutor]

def unknownStatement (name : Bytes) : ProtocolError :=
  let name := Bytes.text name
  ("26000", s!"prepared statement \"{name}\" does not exist")

def unknownPortal (name : Bytes) : ProtocolError :=
  let name := Bytes.text name
  ("34000", s!"portal \"{name}\" does not exist")

end

omit [External] [TextFunctions] [SqlExecutor] [Utf8] in
def hexText (b : UInt8) : String := "0x" ++ String.ofList (Nat.toDigits 16 b.toNat)

section

omit [External] [TextFunctions] [SqlExecutor]

def orReject {α : Type} (err : ProtocolError) : Option α → Checked ProtocolError α
  | some a => pure a
  | none => reject err

def handleBind (c : Connection) (body : Bytes) : Checked ProtocolError Answer :=
  c.extended do
    let (portalName, rest) ← takeCstr body "portal name"
    let (stmtName, rest) ← takeCstr rest "statement name"
    let stmt ← orReject (unknownStatement stmtName) (c.conn.namedStatements.get? stmtName)
    let (formatCodes, rest) ← readBindList rest "parameter format codes" true
    let (rawValues, rest) ← readBindList rest "parameter values" false
    let (resultFormats, _) ← readBindList rest "result format codes" true
    if resultFormats.any Option.isSome then
      reject (malformed "binary result format is not supported; request text format (0)")
    else if formatCodes.length > 1 && formatCodes.length ≠ rawValues.length then
      reject (malformed "parameter format code count does not match parameter count")
    else if formatCodes.any Option.isSome then
      reject (malformed "binary parameter format is not supported; use text format (0)")
    else
      let params := rawValues.map (Option.map Utf8.lossy)
      let portals := c.conn.portals.erase []
      let c := { c with conn := { c.conn with portals := portals } }
      if portalName ≠ [] ∧ (portals.get? portalName).isNone ∧
          portals.entries.length ≥ maxPortals then
        return c.protocolError "54000" s!"too many portals (max {maxPortals}); close some first"
      else
        let portals := portals.insert portalName ⟨stmt.sql, stmtName, params, none⟩
        return ({ c with conn := { c.conn with portals := portals } }, [.bindComplete])

end

section

omit [External] [SqlExecutor] [Utf8]

/-- `send_parameter_description`, after the numbers have been collected. -/
def parameterDescription (stmt : PreparedStatement) : Checked ProtocolError Frame := do
  let count := countStatementParams stmt.sql
  allocate (4 * count)
  if count < 2 ^ 15 then
    allocate (2 + 4 * count)
    allocate (1 + 4 + (2 + 4 * count))
    return .parameterDescription ((List.range count).map fun i => stmt.paramOids.getD i 0)
  else crash

def rowFrame (sql : Bytes) : Frame :=
  match rowColumns sql with
  | some columns => .rowDescription columns
  | none => .noData

end

omit [External] [SqlExecutor] in
def handleDescribe (c : Connection) (body : Bytes) : Checked ProtocolError Answer :=
  c.extended do
    if body.length < 2 then reject (malformed "Describe message is missing its kind byte")
    else
      let kind ← index body 0
      let (name, _) ← takeCstr (← sliceFrom body 1) "describe target name"
      if kind = 83 then
        let stmt ← orReject (unknownStatement name) (c.conn.namedStatements.get? name)
        let description ← parameterDescription stmt
        return (c, [description, rowFrame stmt.sql])
      else if kind = 80 then
        let portal ← orReject (unknownPortal name) (c.conn.portals.get? name)
        return (c, [rowFrame portal.sql])
      else
        let kind := hexText kind
        reject (malformed s!"unknown Describe kind {kind}")

omit [External] [TextFunctions] [SqlExecutor] [Utf8] in
def streamRows (portalName : Bytes) (portal : Portal) (maxRows : ℕ) (suspended : SuspendedRows) :
    Answer :=
  let start := min suspended.streamed suspended.rows.length
  let stop := if maxRows = 0 then suspended.rows.length else
    min (start + maxRows) suspended.rows.length
  let frames := ((suspended.rows.drop start).take (stop - start)).map Frame.dataRow
  if stop < suspended.rows.length then
    let portal := { portal with suspendedRows := some { suspended with streamed := stop } }
    ({ c with conn := { c.conn with portals := c.conn.portals.insert portalName portal } },
    frames ++ [.portalSuspended])
  else (c, frames ++ [.commandComplete suspended.tag])

def handleExecute (c : Connection) (env : Environment) (body : Bytes) :
    Checked ProtocolError Answer :=
  c.extended do
    let (portalName, rest) ← takeCstr body "portal name"
    if rest.length < 4 then reject (malformed "Execute message is missing its row-count field")
    else
      let (maxRows, _) ← takeNumber 4 rest
      let portal ← orReject (unknownPortal portalName) (c.conn.portals.get? portalName)
      let fresh := { portal with suspendedRows := none }
      let c := { c with conn := { c.conn with portals := c.conn.portals.insert portalName fresh } }
      match portal.suspendedRows, env.retryAfter with
      | some suspended, _ => return streamRows c portalName fresh maxRows suspended
      | none, some retryAfter => reject ("53300", rateLimited retryAfter)
      | none, none =>
        let (outcome, c) ← runText c env portal.sql portal.params
        match outcome with
        | .rows columns rows tag => return streamRows c portalName fresh maxRows ⟨columns, rows,
          tag, 0⟩
        | .error code message => return c.protocolError code message
        | other => return (c, simpleFrames other)

omit [External] [TextFunctions] [SqlExecutor] in
def handleClose (c : Connection) (body : Bytes) : Checked ProtocolError Answer :=
  c.extended do
    if body.length < 2 then reject (malformed "Close message is missing its kind byte")
    else
      let kind ← index body 0
      let (name, _) ← takeCstr (← sliceFrom body 1) "close target name"
      if kind = 83 then
        if (c.conn.namedStatements.get? name).isSome then
          let statements := c.conn.namedStatements.erase name
          let portals := c.conn.portals.filter fun entry => entry.2.sourceStatement ≠ name
          return ({ c with conn := { c.conn with namedStatements := statements, portals :=
            portals } }, [.closeComplete])
        else return (c, [.closeComplete])
      else if kind = 80 then
        return ({ c with conn := { c.conn with portals := c.conn.portals.erase name } },
          [.closeComplete])
      else
        let kind := hexText kind
        reject (malformed s!"unknown Close kind {kind}")

/-- What becomes of a connection with a message: it reads on, or its handler returns. -/
inductive Turn
  | next (c : Connection) (stream : Bytes)
  | returned (c : Connection)

omit [External] [TextFunctions] [SqlExecutor] [Utf8] in
def respond (env : Environment) (stream : Bytes) (answer : Answer) : Turn :=
  if env.writable.all (answer.2.length ≤ ·) then .next answer.1 stream else .returned answer.1

def handleMessage (c : Connection) (env : Environment) (kind : UInt8) (body : Bytes) :
    Checked ProtocolError Answer :=
  if kind = 81 then handleQuery c env (Utf8.lossy (body.takeWhile (· ≠ 0)))
  else if kind = 80 then handleParse c env body
  else if kind = 66 then handleBind c body
  else if kind = 68 then handleDescribe c body
  else if kind = 69 then handleExecute c env body
  else if kind = 67 then handleClose c body
  else if kind = 72 then pure (c, [])
  else if kind = 83 then
    let c := { c with conn := { c.conn with extendedErrorPending := false } }
    pure (c, [c.readyForQuery])
  else pure (c, [.error "XX000" "Unsupported message type", c.readyForQuery])

/-- One round of the loop of `handle_connection`. -/
def serveMessage (c : Connection) (stream : Bytes) (env : Environment) :
    Checked ProtocolError Turn :=
  match stream with
  | [] => pure (.returned c.release)
  | kind :: stream => do
      match ← readMessageBody stream with
      | none => return .returned c
      | some (body, stream) =>
        if kind = 88 then return .returned c.release
        else return respond env stream (← handleMessage c env kind body)

end

end OmniKV.Wire
