import OmniKV.Wire.Dispatch
import OmniKV.Wire.Protocol

/-!
# Panics and allocations of a connection

Every index, slice and conversion of the handlers is in range, and every allocation whose size comes
from a message is at most as large as the largest message, but for one: Describe counts the
parameters of a statement by the highest number in its text, and the count is converted to 16 bits.
-/

namespace OmniKV.Wire

open Sql Parse KvQuery Checked List

section

variable [Utf8]

theorem safe_takeCstr (bound : ℕ) (buf : Bytes) (what : String) :
    Safe bound (takeCstr buf what) fun found =>
    buf = found.1 ++ 0 :: found.2 ∧ 0 ∉ found.1 ∧ Utf8.invalid found.1 = none := by
  rw [takeCstr]
  cases found : buf.findIdx? (· = 0) with
  | none => exact .reject _
  | some stop =>
    obtain ⟨inside, zero, before⟩ := findIdx?_eq_some_iff_getElem.mp found
    refine .bind (.sliceTo inside.le) ?_
    rintro text rfl
    cases valid : Utf8.invalid (buf.take stop) with
    | some err => exact .reject _
    | none =>
      refine .bind (.sliceFrom inside) ?_
      rintro rest rfl
      refine .pure ⟨?_, ?_, valid⟩
      · have first : buf[stop] = 0 := of_decide_eq_true zero
        rw [← first, ← drop_eq_getElem_cons inside, take_append_drop]
      · intro member
        obtain ⟨i, below, here⟩ := mem_take_iff_getElem.mp member
        exact before i (lt_min_iff.mp below).1 (decide_eq_true here)

theorem takeCstr_of_eq {text rest : Bytes} (clean : 0 ∉ text) (valid : Utf8.invalid text = none)
    (what : String) : takeCstr (text ++ 0 :: rest) what = pure (text, rest) := by
  have found : (text ++ 0 :: rest).findIdx? (· = 0) = some text.length := by
    have none : text.findIdx? (· = 0) = none := by
      rw [findIdx?_eq_none_iff]
      exact fun b member => decide_eq_false fun zero => clean (zero ▸ member)
    rw [findIdx?_append, none]
    simp [findIdx?_cons]
  have before : sliceTo (ε := ProtocolError) (text ++ 0 :: rest) text.length = pure text := by
    rw [sliceTo, if_pos (by simp), take_left]
  have after : sliceFrom (ε := ProtocolError) (text ++ 0 :: rest) (text.length + 1) =
      pure rest := by
    rw [sliceFrom, if_pos (by simp), ← drop_drop, drop_left]
    rfl
  rw [takeCstr, found]
  dsimp only
  rw [before, after, pure_bind, valid]
  rfl

variable {buf : Bytes} {bound : ℕ}

section

omit [Utf8]

theorem takeNumber_eq {width : ℕ} (inside : width ≤ buf.length) :
    takeNumber width buf = pure (beNat (buf.take width), buf.drop width) := by
  rw [takeNumber, sliceTo, sliceFrom, if_pos inside, if_pos inside]
  rfl

theorem safe_takeNumber {width : ℕ} (inside : width ≤ buf.length) :
    Safe bound (takeNumber width buf) fun found => found = (beNat (buf.take width),
      buf.drop width) := by
  rw [takeNumber_eq inside]
  exact .pure rfl

theorem beNat_lt (bytes : Bytes) : beNat bytes < 256 ^ bytes.length := by
  have general : ∀ start, bytes.foldl (fun n b => 256 * n + b.toNat) start < (start + 1) *
      256 ^ bytes.length := by
    induction bytes with
    | nil => simp
    | cons b bytes ih =>
      intro start
      have digit : b.toNat < 256 := b.toNat_lt
      calc (b :: bytes).foldl (fun n b => 256 * n + b.toNat) start
          < (256 * start + b.toNat + 1) * 256 ^ bytes.length := ih _
        _ ≤ (256 * (start + 1)) * 256 ^ bytes.length := Nat.mul_le_mul_right _ (by omega)
        _ = (start + 1) * 256 ^ (b :: bytes).length := by rw [length_cons]; ring
  simpa [beNat] using general 0

theorem safe_takeOids {count : ℕ} (inside : count * 4 ≤ buf.length) :
    Safe bound (takeOids count buf) fun _ => True := by
  induction count generalizing buf with
  | zero => exact .pure trivial
  | succ count ih =>
    refine .bind (safe_takeNumber (by omega)) ?_
    rintro _ rfl
    refine .bind (ih ?_) fun oids _ => .pure trivial
    rw [length_drop]
    omega

theorem safe_takeFormat (what : String) (buf : Bytes) :
    Safe bound (takeFormat what buf) fun found => found.2.length ≤ buf.length := by
  refine .ite (fun _ => .reject _) fun long => ?_
  refine .bind (safe_takeNumber (by omega)) ?_
  rintro _ rfl
  refine .pure ?_
  simp

theorem safe_takeValue (what : String) (small : buf.length ≤ bound) :
    Safe bound (takeValue what buf) fun found => found.2.length ≤ buf.length := by
  refine .ite (fun _ => .reject _) fun long => ?_
  refine .bind (safe_takeNumber (by omega)) ?_
  rintro _ rfl
  refine .ite (fun _ => .pure (by simp)) fun _ => .ite (fun _ => .reject _) fun full => ?_
  have inside : beNat (buf.take 4) ≤ (buf.drop 4).length := by omega
  refine .bind (.allocate ?_) fun _ _ => .bind (.sliceTo inside) fun value _ => ?_
  · rw [length_drop] at inside
    omega
  · refine .bind (.sliceFrom inside) ?_
    rintro rest rfl
    refine .pure ?_
    simp

theorem safe_takeEntries {take : Bytes → Checked ProtocolError (Option Bytes × Bytes)}
    (each : ∀ buf : Bytes, buf.length ≤ bound → Safe bound (take buf) fun found =>
    found.2.length ≤ buf.length) (count : ℕ) (small : buf.length ≤ bound) :
    Safe bound (takeEntries take count buf) fun found => found.2.length ≤ buf.length := by
  induction count generalizing buf with
  | zero => exact .pure le_rfl
  | succ count ih =>
    refine .bind (each buf small) ?_
    rintro ⟨entry, rest⟩ shorter
    refine .bind (ih (shorter.trans small)) ?_
    rintro ⟨entries, rest'⟩ shorter'
    exact .pure (shorter'.trans shorter)

theorem safe_readBindList (large : maxPacketBytes ≤ bound) (what : String) (isFormat : Bool)
    (small : buf.length ≤ bound) :
    Safe bound (readBindList buf what isFormat) fun found => found.2.length ≤ buf.length := by
  refine .ite (fun _ => .reject _) fun long => ?_
  refine .bind (safe_takeNumber (by omega)) ?_
  rintro _ rfl
  have count : beNat (buf.take 2) < 256 ^ 2 := by
    have low := beNat_lt (buf.take 2)
    rwa [length_take, min_eq_left (by omega)] at low
  have rest : (buf.drop 2).length ≤ buf.length := by simp
  refine .bind (.allocate ?_) fun _ _ => ?_
  · rw [maxPacketBytes] at large
    rw [entryBytes]
    omega
  · refine (safe_takeEntries (fun buf small => ?_) _ (rest.trans small)).imp le_rfl
      fun found shorter => shorter.trans rest
    cases isFormat with
    | true => exact safe_takeFormat what buf
    | false => exact safe_takeValue what small

def frameOf (stream : Bytes) : Option (Bytes × Bytes) :=
  (readExact 4 stream).bind fun (len, stream) =>
    (validatePgwireBodyLen (beNat len)).bind (readExact · stream)

theorem length_of_readExact {n : ℕ} {stream : Bytes} {found : Bytes × Bytes}
    (read : readExact n stream = some found) :
    found.1.length = n ∧ found.2.length ≤ stream.length := by
  rw [readExact] at read
  split_ifs at read with inside
  cases read
  exact ⟨by simpa using inside, by simp⟩

theorem le_of_validatePgwireBodyLen {len n : ℕ} (valid : validatePgwireBodyLen len = some n) :
    n ≤ maxPacketBytes := by
  rw [validatePgwireBodyLen] at valid
  split_ifs at valid with short large
  exact Option.some.inj valid ▸ Nat.not_lt.mp large

theorem length_of_frameOf {stream : Bytes} {frame : Bytes × Bytes}
    (framed : frameOf stream = some frame) :
    frame.1.length ≤ maxPacketBytes ∧ frame.2.length ≤ stream.length := by
  obtain ⟨⟨len, rest⟩, first, framed⟩ := Option.bind_eq_some_iff.mp framed
  obtain ⟨n, valid, second⟩ := Option.bind_eq_some_iff.mp framed
  rw [(length_of_readExact second).1]
  exact ⟨le_of_validatePgwireBodyLen valid, (length_of_readExact second).2.trans
    (length_of_readExact first).2⟩

theorem readMessageBody_eq (stream : Bytes) :
    ∃ n ≤ maxPacketBytes, readMessageBody stream = some (.ok (frameOf stream), n) := by
  unfold readMessageBody frameOf
  cases readExact 4 stream with
  | none => exact ⟨0, Nat.zero_le _, rfl⟩
  | some found =>
    obtain ⟨len, rest⟩ := found
    dsimp only [Option.bind_some]
    cases valid : validatePgwireBodyLen (beNat len) with
    | none => exact ⟨0, Nat.zero_le _, rfl⟩
    | some size => exact ⟨max size 0, Nat.max_le.mpr ⟨le_of_validatePgwireBodyLen valid,
      Nat.zero_le _⟩, rfl⟩

end

end

section

variable [TextFunctions] [Utf8] (c : Connection)

/-- A Describe message of a statement with more parameters than a signed 16-bit number counts. -/
def DescribesTooMany (body : Bytes) : Prop :=
  ∃ name rest stmt, body = 83 :: (name ++ 0 :: rest) ∧ 0 ∉ name ∧ Utf8.invalid name = none ∧
    c.conn.namedStatements.get? name = some stmt ∧ 2 ^ 15 ≤ countStatementParams stmt.sql

def ExecutesPortal (body : Bytes) (portal : Portal) : Prop :=
  ∃ name rest, body = name ++ 0 :: rest ∧ 0 ∉ name ∧ Utf8.invalid name = none ∧ 4 ≤ rest.length ∧
    c.conn.portals.get? name = some portal ∧ portal.suspendedRows = none

def ExecutorPanics (env : Environment) (kind : UInt8) (body : Bytes) : Prop :=
  env.executorPanics = true ∧ env.retryAfter = none ∧
    (kind = 81 ∧ reachesExecutor c.conn.toTxnBlock (Utf8.lossy (body.takeWhile (· ≠ 0))) [] = true ∨
      kind = 69 ∧ c.conn.extendedErrorPending = false ∧
        ∃ portal, ExecutesPortal c body portal ∧ reachesExecutor c.conn.toTxnBlock portal.sql
        portal.params = true)

/-- The messages that make the handler panic. -/
def Crashes (env : Environment) (kind : UInt8) (body : Bytes) : Prop :=
  kind = 68 ∧ c.conn.extendedErrorPending = false ∧ DescribesTooMany c body ∨
    ExecutorPanics c env kind body

variable {bound : ℕ} {c : Connection} {body sql stream : Bytes} {env : Environment} {kind : UInt8}

omit [TextFunctions] in
/-- The statement that a message runs. -/
inductive Runs (c : Connection) (env : Environment) (kind : UInt8) (body : Bytes) :
    Bytes → List (Option Bytes) → Prop
  | query (isQuery : kind = 81) (granted : env.retryAfter = none) :
      Runs c env kind body (Utf8.lossy (body.takeWhile (· ≠ 0))) []
  | execute {portal : Portal} (isExecute : kind = 69)
    (running : c.conn.extendedErrorPending = false)
      (granted : env.retryAfter = none) (runs : ExecutesPortal c body portal) :
      Runs c env kind body portal.sql portal.params

omit [TextFunctions] in
theorem Runs.unique {params params' : List (Option Bytes)} {sql' : Bytes}
    (first : Runs c env kind body sql params)
    (second : Runs c env kind body sql' params') : sql = sql' ∧ params = params' := by
  cases first with
  | query isQuery =>
    cases second with
    | query => exact ⟨rfl, rfl⟩
    | execute isExecute => exact absurd (isQuery.symm.trans isExecute) (by decide)
  | execute isExecute _ _ runs =>
    cases second with
    | query isQuery => exact absurd (isQuery.symm.trans isExecute) (by decide)
    | execute _ _ _ runs' =>
      obtain ⟨name, rest, rfl, clean, -, -, found, -⟩ := runs
      obtain ⟨name', rest', same, clean', -, -, found', -⟩ := runs'
      obtain ⟨rfl, rfl⟩ := Bytes.append_cons_inj clean clean' same
      cases found.symm.trans found'
      exact ⟨rfl, rfl⟩

section

omit [TextFunctions] [Utf8]

/-- Parse, Bind, Describe, Execute and Close. -/
def extendedKinds : List UInt8 := [80, 66, 68, 69, 67]

def Leaves (w : WireState) (answer : Answer) : Prop :=
  answer.1.manager = w.manager ∧ answer.1.conn.txn = w.block.txn

def Flags (answer : Answer) : Prop :=
  ∀ code message, .error code message ∈ answer.2 → answer.1.conn.extendedErrorPending = true

/-- The answer of the extended protocol to a message that runs nothing. -/
def Quiet (c : Connection) (answer : Answer) : Prop := Leaves c.wire answer ∧ Flags answer

theorem safe_extended {x : Checked ProtocolError Answer}
    (safe : c.conn.extendedErrorPending = false → Safe bound x (Quiet c)) :
    Safe bound (c.extended x) (Quiet c) := by
  refine .ite (fun _ => .pure ⟨⟨rfl, rfl⟩, nofun⟩) fun pending => ?_
  exact .recover (safe (Bool.eq_false_iff.mpr pending)) fun _ => ⟨⟨rfl, rfl⟩, fun _ _ _ => rfl⟩

theorem safe_orReject {α : Type} (err : ProtocolError) (found : Option α) :
    Safe bound (orReject err found) fun a => found = some a := by
  cases found with
  | some a => exact .pure rfl
  | none => exact .reject err

end

theorem safe_handleParse (c : Connection) (env : Environment) (body : Bytes) :
    Safe maxPacketBytes (handleParse c env body) (Quiet c) := by
  refine safe_extended fun _ => ?_
  cases env.retryAfter with
  | some retryAfter => exact .pure ⟨⟨rfl, rfl⟩, fun _ _ _ => rfl⟩
  | none =>
    refine .bind (safe_takeCstr _ _ _) ?_
    rintro ⟨name, rest⟩ -
    refine .bind (safe_takeCstr _ _ _) ?_
    rintro ⟨sql, rest⟩ -
    refine .ite (fun _ => .reject _) fun long => .bind (safe_takeNumber (by omega)) ?_
    rintro _ rfl
    refine .ite (fun _ => .reject _) fun full => ?_
    have count : beNat (rest.take 2) < 256 ^ 2 := by
      have low := beNat_lt (rest.take 2)
      rwa [length_take, min_eq_left (by omega)] at low
    have inside : beNat (rest.take 2) * 4 ≤ (rest.drop 2).length := by
      rw [length_drop]
      omega
    refine .bind (.allocate ?_) fun _ _ => .bind (safe_takeOids inside) fun oids _ => ?_
    · rw [maxPacketBytes]
      omega
    · exact .ite (fun _ => .reject _) fun _ => .ite (fun _ => .reject _) fun _ =>
        .pure ⟨⟨rfl, rfl⟩, by simp [Flags]⟩

omit [TextFunctions] in
theorem safe_handleBind (c : Connection) (large : maxPacketBytes ≤ bound)
    (small : body.length ≤ bound) : Safe bound (handleBind c body) (Quiet c) := by
  refine safe_extended fun _ => .bind (safe_takeCstr _ _ _) ?_
  rintro ⟨portalName, rest⟩ ⟨rfl, -, -⟩
  refine .bind (safe_takeCstr _ _ _) ?_
  rintro ⟨stmtName, rest⟩ ⟨rfl, -, -⟩
  refine .bind (safe_orReject _ _) fun stmt _ => ?_
  have short : rest.length ≤ bound := by
    simp only [length_append, length_cons] at small
    omega
  refine .bind (safe_readBindList large _ _ short) ?_
  rintro ⟨formatCodes, rest₁⟩ shorter₁
  refine .bind (safe_readBindList large _ _ (shorter₁.trans short)) ?_
  rintro ⟨rawValues, rest₂⟩ shorter₂
  refine .bind (safe_readBindList large _ _ (shorter₂.trans (shorter₁.trans short))) ?_
  rintro ⟨resultFormats, rest₃⟩ -
  refine .ite (fun _ => .reject _) fun _ => .ite (fun _ => .reject _) fun _ =>
    .ite (fun _ => .reject _) fun _ => ?_
  exact .ite (fun _ => .pure ⟨⟨rfl, rfl⟩, fun _ _ _ => rfl⟩) fun _ =>
    .pure ⟨⟨rfl, rfl⟩, by simp [Flags]⟩

omit [Utf8] in
theorem safe_parameterDescription (stmt : PreparedStatement)
    (few : countStatementParams stmt.sql < 2 ^ 15) :
    Safe maxPacketBytes (parameterDescription stmt) fun frame => ∃ oids,
      frame = .parameterDescription oids := by
  have fits : 1 + 4 + (2 + 4 * countStatementParams stmt.sql) ≤ maxPacketBytes := by
    rw [maxPacketBytes]
    omega
  refine .bind (.allocate (by omega)) fun _ _ => ?_
  rw [if_pos few]
  exact .bind (.allocate (by omega)) fun _ _ => .bind (.allocate fits) fun _ _ => .pure ⟨_, rfl⟩

omit [Utf8] in
theorem error_ne_rowFrame {sql : Bytes} {code message : String} :
    .error code message ≠ rowFrame sql := by
  rw [rowFrame]
  split <;> nofun

theorem safe_handleDescribe (few : c.conn.extendedErrorPending = false → ¬DescribesTooMany c body) :
    Safe maxPacketBytes (handleDescribe c body) (Quiet c) := by
  refine safe_extended fun running => .ite (fun _ => .reject _) fun long => ?_
  obtain ⟨kind, tail, rfl⟩ := exists_cons_of_length_pos (show 0 < body.length by omega)
  refine .bind (.pure rfl) ?_
  rintro _ rfl
  refine .bind (.sliceFrom (by simp)) ?_
  rintro _ rfl
  refine .bind (safe_takeCstr _ _ _) ?_
  rintro ⟨name, rest⟩ ⟨split, clean, valid⟩
  refine .ite (fun statement => ?_) fun _ => .ite (fun _ => ?_) fun _ => .reject _
  · refine .bind (safe_orReject _ _) fun stmt found => ?_
    have few : ¬2 ^ 15 ≤ countStatementParams stmt.sql := by
      intro many
      refine few running ⟨name, rest, stmt, ?_, clean, valid, found, many⟩
      rw [statement, ← split]
    have described := safe_parameterDescription stmt (Nat.not_le.mp few)
    generalize parameterDescription stmt = description at described ⊢
    refine described.bind ?_
    rintro _ ⟨oids, rfl⟩
    exact .pure ⟨⟨rfl, rfl⟩, by simp [Flags, error_ne_rowFrame]⟩
  · exact .bind (safe_orReject _ _) fun portal _ =>
      .pure ⟨⟨rfl, rfl⟩, by simp [Flags, error_ne_rowFrame]⟩

omit [TextFunctions] in
theorem safe_handleClose (c : Connection) (body : Bytes) :
    Safe maxPacketBytes (handleClose c body) (Quiet c) := by
  refine safe_extended fun running => .ite (fun _ => .reject _) fun long => ?_
  refine .bind (.index (by omega)) fun kind _ => .bind (.sliceFrom (by omega)) fun tail _ => ?_
  refine .bind (safe_takeCstr _ _ _) fun found _ => ?_
  refine .ite (fun _ => ?_) fun _ => .ite (fun _ => .pure ⟨⟨rfl, rfl⟩, by simp [Flags]⟩) fun _ =>
    .reject _
  exact .ite (fun _ => .pure ⟨⟨rfl, rfl⟩, by simp [Flags]⟩) fun _ =>
    .pure ⟨⟨rfl, rfl⟩, by simp [Flags]⟩

variable [External] [SqlExecutor]

omit [Utf8] in
theorem runText_eq {params : List (Option Bytes)}
    (calm : ¬(env.executorPanics = true ∧ reachesExecutor c.conn.toTxnBlock sql params = true)) :
    runText c env sql params = pure ((executeStatementWithParams c.wire sql params env.here).1,
      c.withWire (executeStatementWithParams c.wire sql params env.here).2) := by
  rw [← Bool.and_eq_true] at calm
  exact if_neg calm

/-- What a message leaves is what its statement leaves, and an error in the extended protocol is
flagged. -/
structure Answered (c : Connection) (env : Environment) (kind : UInt8) (body : Bytes)
    (answer : Answer) : Prop where
  runs : ∀ sql params, Runs c env kind body sql params →
    Leaves (executeStatementWithParams c.wire sql params env.here).2 answer
  idle : (∀ sql params, ¬Runs c env kind body sql params) → Leaves c.wire answer
  flags : kind ∈ extendedKinds → Flags answer

theorem Quiet.answered {answer : Answer} (quiet : Quiet c answer)
    (idle : ∀ sql params, ¬Runs c env kind body sql params) : Answered c env kind body answer :=
  ⟨fun sql params runs => absurd runs (idle sql params), fun _ => quiet.1, fun _ => quiet.2⟩

omit [External] [TextFunctions] [SqlExecutor] [Utf8] in
theorem quiet_streamRows (c : Connection) (portalName : Bytes) (portal : Portal) (maxRows : ℕ)
    (suspended : SuspendedRows) : Quiet c (streamRows c portalName portal maxRows suspended) := by
  unfold streamRows
  dsimp only
  split_ifs <;> exact ⟨⟨rfl, rfl⟩, by simp [Flags, -map_take]⟩

/-- An Execute message goes on with the rows of its portal, or runs the statement. -/
theorem handleExecute_eq {name rest : Bytes} {portal : Portal}
    (running : c.conn.extendedErrorPending = false)
    (clean : 0 ∉ name) (valid : Utf8.invalid name = none) (long : 4 ≤ rest.length)
    (found : c.conn.portals.get? name = some portal) :
    let fresh := { portal with suspendedRows := none }
    let c' : Connection := ⟨c.manager, { c.conn with portals := c.conn.portals.insert name fresh }⟩
    handleExecute c env (name ++ 0 :: rest) =
      recover (match portal.suspendedRows, env.retryAfter with
        | some suspended, _ => pure (streamRows c' name fresh (beNat (rest.take 4)) suspended)
        | none, some retryAfter => reject ("53300", rateLimited retryAfter)
        | none, none => do
          let (outcome, c) ← runText c' env portal.sql portal.params
          match outcome with
          | .rows columns rows tag => return streamRows c name fresh (beNat (rest.take 4)) ⟨columns,
          rows, tag, 0⟩
          | .error code message => return c.protocolError code message
          | other => return (c, simpleFrames other)) fun err => c.protocolError err.1 err.2 := by
  rw [handleExecute, takeCstr_of_eq clean valid, pure_bind]
  dsimp only
  rewrite [if_neg (Nat.not_lt.mpr long), takeNumber_eq long, pure_bind, found, orReject, pure_bind,
  Connection.extended,
    if_neg (Bool.eq_false_iff.mp running)]
  rfl

theorem safe_handleExecute (calm : ¬ExecutorPanics c env 69 body) :
    Safe maxPacketBytes (handleExecute c env body) (Answered c env 69 body) := by
  by_cases runs : ∃ sql params, Runs c env 69 body sql params
  · obtain ⟨sql, params, runs⟩ := runs
    cases id runs with
    | query isQuery => exact absurd isQuery (by decide)
    | @execute portal isExecute running granted executes =>
      obtain ⟨name, rest, rfl, clean, valid, long, found, fresh⟩ := id executes
      rw [handleExecute_eq running clean valid long found, fresh, granted]
      rw [runText_eq, pure_bind]
      · have answered {answer : Answer}
          (leaves : Leaves (executeStatementWithParams c.wire portal.sql portal.params env.here).2
          answer)
            (flags : Flags answer) : Answered c env 69 (name ++ 0 :: rest) answer := by
          refine ⟨fun sql params runs' => ?_, fun idle => absurd runs (idle _ _), fun _ => flags⟩
          obtain ⟨rfl, rfl⟩ := runs.unique runs'
          exact leaves
        change Safe _
            (recover (match (executeStatementWithParams c.wire portal.sql portal.params env.here).1
            with
          | .rows columns rows tag => _
          | .error code message => _
          | other => _) _) _
        cases (executeStatementWithParams c.wire portal.sql portal.params env.here).1 with
        | rows columns rows tag =>
          exact .pure (answered (quiet_streamRows ..).1 (quiet_streamRows ..).2)
        | error code message => exact .pure (answered ⟨rfl, rfl⟩ fun _ _ _ => rfl)
        | complete tag | warning code message tag =>
          exact .pure (answered ⟨rfl, rfl⟩ (by simp [Flags, simpleFrames]))
      · exact fun panics => calm ⟨panics.1, granted,
          .inr ⟨rfl, running, portal, executes, panics.2⟩⟩
  · have idle (sql : Bytes) (params : List (Option Bytes)) : ¬Runs c env 69 body sql params :=
      fun here => runs ⟨sql, params, here⟩
    refine (safe_extended fun running => .bind (safe_takeCstr _ _ _) ?_).imp le_rfl
      fun answer quiet => quiet.answered idle
    rintro ⟨name, rest⟩ ⟨split, clean, valid⟩
    refine .ite (fun _ => .reject _) fun long => .bind (safe_takeNumber (by omega)) fun maxRows _ =>
      ?_
    refine .bind (safe_orReject _ _) fun portal found => ?_
    cases suspended : portal.suspendedRows with
    | some rows => exact .pure (quiet_streamRows ..)
    | none =>
      cases granted : env.retryAfter with
      | some retryAfter => exact .reject _
      | none =>
        have executes : ExecutesPortal c body portal :=
          ⟨name, rest, split, clean, valid, Nat.not_lt.mp long, found, suspended⟩
        exact (idle _ _ (.execute rfl running granted executes)).elim

theorem safe_handleMessage {kind : UInt8} (large : maxPacketBytes ≤ bound)
    (small : body.length ≤ bound)
    (calm : ¬Crashes c env kind body) :
    Safe bound (handleMessage c env kind body) (Answered c env kind body) := by
  obtain ⟨few, calm⟩ := not_or.mp calm
  have idle {kind : UInt8} (other : kind ≠ 81) (other' : kind ≠ 69) (sql : Bytes)
    (params : List (Option Bytes)) :
      ¬Runs c env kind body sql params := by
    rintro (isQuery | isExecute)
    · exact other ‹_›
    · exact other' ‹_›
  have quiet {kind : UInt8} (other : kind ≠ 81) (other' : kind ≠ 69) (answer : Answer)
    (quiet : Quiet c answer) :
      Answered c env kind body answer := quiet.answered (idle other other')
  refine .ite (fun query => ?_) fun other => .ite (fun parse => ?_) fun _ => .ite (fun bind => ?_)
      fun _ =>
    .ite (fun describe => ?_) fun _ => .ite (fun execute => ?_) fun other' => .ite (fun close => ?_)
        fun _ =>
    .ite (fun _ => .pure (quiet other other' _ ⟨⟨rfl, rfl⟩, nofun⟩)) fun _ =>
    .ite (fun _ =>
      .pure (quiet other other' _ ⟨⟨rfl, rfl⟩, by simp [Flags, Connection.readyForQuery]⟩)) fun _ =>
      ?unknown
  · subst query
    rw [handleQuery]
    cases granted : env.retryAfter with
    | some retryAfter =>
      refine .pure ⟨fun sql params runs => ?_, fun _ => ⟨rfl, rfl⟩, fun simple =>
        absurd simple (by decide)⟩
      cases runs with
      | query _ granted' => cases granted.symm.trans granted'
      | execute isExecute => exact absurd isExecute (by decide)
    | none =>
      have runs : Runs c env 81 body _ [] := .query rfl granted
      dsimp only
      rw [runText_eq]
      · refine .pure ⟨fun sql params runs' => ?_, fun idle => absurd runs (idle _ _), fun simple =>
          absurd simple (by decide)⟩
        obtain ⟨rfl, rfl⟩ := runs.unique runs'
        exact ⟨rfl, rfl⟩
      · exact fun panics => calm ⟨panics.1, granted, .inl ⟨rfl, panics.2⟩⟩
  · subst parse
    exact (safe_handleParse c env body).imp large (quiet (by decide) (by decide))
  · subst bind
    exact (safe_handleBind c large small).imp le_rfl (quiet (by decide) (by decide))
  · subst describe
    exact (safe_handleDescribe fun running many => few ⟨rfl, running, many⟩).imp large
      (quiet (by decide) (by decide))
  · subst execute
    exact (safe_handleExecute calm).imp large fun _ => id
  · subst close
    exact (safe_handleClose c body).imp large (quiet (by decide) (by decide))
  · refine .pure ⟨fun sql params runs => absurd runs (idle other other' sql params), fun _ =>
      ⟨rfl, rfl⟩, fun listed => ?_⟩
    simp_all [extendedKinds]

variable (running : c.conn.extendedErrorPending = false)

include running

omit [TextFunctions] [Utf8] [External] [SqlExecutor] in
theorem extended_crash : c.extended crash = crash := by
  rw [Connection.extended, if_neg (Bool.eq_false_iff.mp running)]
  rfl

omit [External] [SqlExecutor] in
theorem handleDescribe_panics (many : DescribesTooMany c body) : handleDescribe c body = crash := by
  obtain ⟨name, rest, stmt, rfl, clean, valid, found, many⟩ := many
  have kind : index (ε := ProtocolError) (83 :: (name ++ 0 :: rest)) 0 = pure 83 := rfl
  have tail : sliceFrom (ε := ProtocolError) (83 :: (name ++ 0 :: rest)) 1 = pure
      (name ++ 0 :: rest) := by
    rfl
  have described : parameterDescription stmt = crash := by
    rw [parameterDescription, if_neg (Nat.not_lt.mpr many)]
    rfl
  rw [handleDescribe, if_neg (by simp), kind, pure_bind, tail, pure_bind,
    takeCstr_of_eq clean valid, pure_bind]
  dsimp only
  rw [if_pos rfl, found, orReject, pure_bind, described, crash_bind, extended_crash running]

omit [Utf8] running in
theorem runText_panics {block : TxnBlock}
    {params : List (Option Bytes)} (same : c.conn.toTxnBlock = block)
    (panics : env.executorPanics = true)
    (reaches : reachesExecutor block sql params = true) : runText c env sql params = crash := by
  rw [runText, if_pos (by rw [panics, same, reaches, Bool.and_self])]

theorem handleExecute_panics {portal : Portal}
    (granted : env.retryAfter = none) (runs : ExecutesPortal c body portal)
    (panics : env.executorPanics = true)
    (reaches : reachesExecutor c.conn.toTxnBlock portal.sql portal.params = true) :
    handleExecute c env body = crash := by
  obtain ⟨name, rest, rfl, clean, valid, long, found, fresh⟩ := runs
  rw [handleExecute_eq running clean valid long found, fresh, granted]
  rw [runText_panics ?_ panics reaches]
  all_goals rfl

omit running

theorem handleMessage_panics {kind : UInt8}
    (crashes : Crashes c env kind body) : handleMessage c env kind body = crash := by
  obtain ⟨rfl, running, many⟩ | ⟨panics, granted,
    ⟨rfl, reaches⟩ | ⟨rfl, running, portal, runs, reaches⟩⟩ := crashes
  · exact handleDescribe_panics running many
  · have crashed : runText ⟨c.manager, { c.conn with extendedErrorPending := false }⟩ env
        (Utf8.lossy (body.takeWhile (· ≠ 0))) [] = crash := runText_panics rfl panics reaches
    change handleQuery c env _ = crash
    rw [handleQuery, granted]
    dsimp only
    rw [crashed, crash_bind]
  · exact handleExecute_panics running granted runs panics reaches

def serve (c : Connection) (stream : Bytes) : List Environment → Checked ProtocolError Turn
  | [] => pure (.next c stream)
  | env :: envs => do
      match ← serveMessage c stream env with
      | .next c stream => serve c stream envs
      | .returned c => return .returned c

end

section

open Reference

namespace Sample

@[reducible] def asciiUtf8 : Utf8 :=
  ⟨fun text => if text.all (· < 128) then none else some "invalid utf-8 sequence", id⟩

def message (kind : Char) (body : Bytes) : Bytes :=
  let len := body.length + 4
  kind.toNat.toUInt8 :: [(len / 2 ^ 24).toUInt8, (len / 2 ^ 16).toUInt8, (len / 2 ^ 8).toUInt8,
  len.toUInt8] ++ body

def calm : Environment := ⟨now, none, none, false⟩

end Sample

end

end OmniKV.Wire
