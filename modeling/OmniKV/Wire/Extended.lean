import OmniKV.Wire.Release

/-!
# The extended protocol

After an error the messages of the extended protocol are skipped up to the next Sync. But a query of
the simple protocol is executed all the same, and a message of an unknown kind is answered.
-/

namespace OmniKV.Wire

open List Sql Parse Checked Sample

section

variable [External] [TextFunctions] [SqlExecutor] [Utf8]

/-- A message with what happens around it. A Terminate is not handled but ends the connection. -/
structure Message where
  env : Environment
  kind : UInt8
  body : Bytes
  stays : kind ≠ 88

def reply (c : Connection) (m : Message) : Checked ProtocolError Answer :=
  handleMessage c m.env m.kind m.body

def replies (c : Connection) : List Message → Checked ProtocolError Answer
  | [] => pure (c, [])
  | m :: rest => do
      let (c, frames) ← reply c m
      let (c, more) ← replies c rest
      return (c, frames ++ more)

/-- The messages that wait for a Sync: those of the extended protocol, and Flush. -/
def Message.Waits (m : Message) : Prop := m.kind ∈ 72 :: extendedKinds

variable {c : Connection} {m : Message} {messages : List Message}

theorem reply_of_waits (pending : c.conn.extendedErrorPending = true) (waits : m.Waits) :
    reply c m = pure (c, []) := by
  obtain ⟨env, kind, body, stays⟩ := m
  have skips (x : Checked ProtocolError Answer) : c.extended x = pure (c, []) := if_pos pending
  simp only [Message.Waits, extendedKinds, mem_cons, not_mem_nil, or_false] at waits
  obtain rfl | rfl | rfl | rfl | rfl | rfl := waits
  · rfl
  all_goals exact skips _

/-- Every other message is answered with a frame. -/
theorem reply_of_not_waits (waits : ¬m.Waits) :
    Returns (reply c m) fun answer => answer.2 ≠ [] := by
  obtain ⟨env, kind, body, stays⟩ := m
  simp only [Message.Waits, extendedKinds, mem_cons, not_mem_nil, or_false, not_or] at waits
  obtain ⟨flush, parse, bind, describe, execute, close⟩ := waits
  rw [reply, handleMessage, if_neg parse, if_neg bind, if_neg describe, if_neg execute,
    if_neg close, if_neg flush]
  refine .ite (fun _ => ?_) fun _ => .ite (fun _ => .pure (by simp)) fun _ => .pure (by simp)
  rw [handleQuery]
  cases env.retryAfter with
  | some retryAfter => exact .pure (by simp)
  | none => exact .always fun ran => .pure (by simp)

theorem replies_eq_iff (pending : c.conn.extendedErrorPending = true) :
    replies c messages = pure (c, []) ↔ ∀ m ∈ messages, m.Waits := by
  induction messages with
  | nil => exact iff_of_true rfl nofun
  | cons m messages ih =>
    rw [forall_mem_cons, ← ih]
    by_cases waits : m.Waits
    · have same : replies c (m :: messages) = replies c messages := by
        rw [replies, reply_of_waits pending waits, pure_bind]
        exact bind_pure (replies c messages)
      rw [same, and_iff_right waits]
    · refine iff_of_false (fun silent => ?_) fun both => waits both.1
      have answered : Returns (replies c (m :: messages)) fun answer => answer.2 ≠ [] :=
        (reply_of_not_waits waits).bind fun answer some => .always fun rest =>
          .pure (by simp [some])
      exact answered silent rfl

/-- After an error messages are consumed without an answer or effect if and only if each is of the
extended protocol or a Flush. Sync is answered with one frame. -/
theorem skips_until_sync_iff {c₀ : Connection} {frames : List Frame} {n : ℕ} {code text : String}
    (extended : m.kind ∈ extendedKinds) (answered : reply c₀ m = some (.ok (c, frames), n))
    (failed : .error code text ∈ frames) (sync : Message) (isSync : sync.kind = 83) :
    (replies c messages = pure (c, []) ∧
      reply c sync = pure (⟨c.manager, { c.conn with extendedErrorPending := false }⟩,
      [c.readyForQuery])) ↔ ∀ m ∈ messages, m.Waits := by
  have answered := answered_handleMessage _ _ _ _ answered
  have pending : c.conn.extendedErrorPending = true := answered.flags extended code text failed
  rw [replies_eq_iff pending]
  refine and_iff_left ?_
  rw [reply, isSync]
  rfl

def Message.Executes (m : Message) (name : Bytes) (maxRows : ℕ) : Prop :=
  m.kind = 69 ∧ ∃ rest, m.body = name ++ 0 :: rest ∧ 0 ∉ name ∧ Utf8.invalid name = none ∧
    4 ≤ rest.length ∧ maxRows = beNat (rest.take 4)

/-- An Execute message and its answer, with the database and the transaction before and after it. -/
structure Fetch where
  maxRows : ℕ
  here : Circumstances
  before : WireState
  after : WireState
  frames : List Frame

/-- The Execute messages for a portal, among messages that keep it and raise no error. -/
inductive Fetches (name : Bytes) : Connection → List Fetch → Prop
  | done (c : Connection) : Fetches name c []
  | other {c : Connection} {m : Message} {answer : Answer} {n : ℕ} {fetches : List Fetch}
      (answered : reply c m = some (.ok answer, n)) (others : ∀ maxRows, ¬m.Executes name maxRows)
      (calm : answer.1.conn.extendedErrorPending = false)
      (kept : answer.1.conn.portals.get? name = c.conn.portals.get? name)
      (rest : Fetches name answer.1 fetches) : Fetches name c fetches
  | execute {c : Connection} {m : Message} {maxRows n : ℕ} {answer : Answer} {fetches : List Fetch}
      (executes : m.Executes name maxRows) (answered : reply c m = some (.ok answer, n))
      (calm : answer.1.conn.extendedErrorPending = false) (rest : Fetches name answer.1 fetches) :
      Fetches name c (⟨maxRows, m.env.here, c.wire, answer.1.wire, answer.2⟩ :: fetches)

/-- The round leaves what one run of the statement makes of the database and the transaction. -/
def Fetch.Runs (portal : Portal) (outcome : StepOutcome) (fetch : Fetch) : Prop :=
  executeStatementWithParams fetch.before portal.sql portal.params fetch.here =
    (outcome, fetch.after)

omit [External] [TextFunctions] [SqlExecutor] [Utf8]

/-- The round leaves the database and the transaction as they were. -/
def Fetch.Idle (fetch : Fetch) : Prop := fetch.after = fetch.before

/-- The rows are sent in order, up to the round that completes the portal, and only the first round
has an effect. -/
inductive Streams (tag : String) : (Fetch → Prop) → List (List Cell) → List Fetch → Prop
  | start (effect : Fetch → Prop) (rows : List (List Cell)) : Streams tag effect rows []
  | suspended {effect : Fetch → Prop} {chunk rows : List (List Cell)} {fetch : Fetch}
    {fetches : List Fetch}
      (first : effect fetch) (bounded : fetch.maxRows ≠ 0) (full : chunk.length = fetch.maxRows)
      (more : rows ≠ []) (sent : fetch.frames = chunk.map .dataRow ++ [.portalSuspended])
      (rest : Streams tag Fetch.Idle rows fetches) :
      Streams tag effect (chunk ++ rows) (fetch :: fetches)
  | completed {effect : Fetch → Prop} {rows : List (List Cell)} {fetch : Fetch}
    (first : effect fetch)
      (sent : fetch.frames = rows.map .dataRow ++ [.commandComplete tag]) (fetches : List Fetch) :
      Streams tag effect rows (fetch :: fetches)

variable {name : Bytes} {portal : Portal} {fetches : List Fetch}

theorem streams_streamRows {effect : Fetch → Prop} (suspended : SuspendedRows) {fetch : Fetch}
    (inside : suspended.streamed ≤ suspended.rows.length) (first : effect fetch)
    (sent : fetch.frames = (streamRows c name portal fetch.maxRows suspended).2)
    (rest : ∀ streamed < suspended.rows.length,
      (streamRows c name portal fetch.maxRows suspended).1.conn.portals.get? name =
        some { portal with suspendedRows := some { suspended with streamed := streamed } } →
      Streams suspended.tag Fetch.Idle (suspended.rows.drop streamed) fetches) :
    Streams suspended.tag effect (suspended.rows.drop suspended.streamed) (fetch :: fetches) := by
  obtain ⟨columns, rows, tag, streamed⟩ := suspended
  unfold streamRows at sent rest
  simp only [min_eq_left inside] at sent rest
  by_cases more : fetch.maxRows ≠ 0 ∧ streamed + fetch.maxRows < rows.length
  · rw [if_neg more.1, min_eq_left more.2.le, if_pos more.2, Nat.add_sub_cancel_left] at sent
    rw [if_neg more.1, min_eq_left more.2.le, if_pos more.2] at rest
    have full : ((rows.drop streamed).take fetch.maxRows).length = fetch.maxRows := by
      rw [length_take, length_drop]
      omega
    have streams := Streams.suspended first more.1 full (by simpa using more.2) sent
      (rest _ more.2 (by simp [SortedMap.get?_insert]))
    rwa [← drop_drop, take_append_drop] at streams
  · have all : (if fetch.maxRows = 0 then rows.length else
      min (streamed + fetch.maxRows) rows.length) =
        rows.length := by
      split <;> omega
    rw [all, if_neg (lt_irrefl _), ← length_drop, take_length] at sent
    exact .completed first sent fetches

theorem wire_streamRows (c : Connection) (name : Bytes) (portal : Portal) (maxRows : ℕ)
    (suspended : SuspendedRows) : (streamRows c name portal maxRows suspended).1.wire = c.wire := by
  unfold streamRows
  dsimp only
  split_ifs <;> rfl

variable [External] [TextFunctions] [SqlExecutor] [Utf8]

/-- An Execute of a suspended portal goes on with its rows. -/
theorem reply_of_suspended {suspended : SuspendedRows} {maxRows : ℕ}
    (executes : m.Executes name maxRows) (running : c.conn.extendedErrorPending = false)
    (found : c.conn.portals.get? name = some { portal with suspendedRows := some suspended }) :
    let fresh := { portal with suspendedRows := none }
    reply c m = pure
      (streamRows ⟨c.manager, { c.conn with portals := c.conn.portals.insert name fresh }⟩
      name fresh maxRows suspended) := by
  obtain ⟨env, kind, body, stays⟩ := m
  obtain ⟨rfl, rest, rfl, clean, valid, long, rfl⟩ := executes
  exact handleExecute_eq running clean valid long found

theorem streams_of_suspended {suspended : SuspendedRows} (fetched : Fetches name c fetches)
    (running : c.conn.extendedErrorPending = false) (inside : suspended.streamed ≤
    suspended.rows.length)
    (found : c.conn.portals.get? name = some { portal with suspendedRows := some suspended }) :
    Streams suspended.tag Fetch.Idle (suspended.rows.drop suspended.streamed) fetches := by
  induction fetched generalizing suspended with
  | done => exact .start ..
  | other answered others calm kept rest ih => exact ih calm inside (kept.trans found)
  | @execute c m maxRows n answer fetches executes answered calm rest ih =>
    obtain rfl := Returns.pure (Q := (· = streamRows ..)) rfl
      ((reply_of_suspended executes running found).symm.trans answered)
    exact streams_streamRows suspended inside (wire_streamRows ..) rfl
      fun streamed below found' => ih calm below.le found'

/-- However many rows its Execute messages ask for, a portal runs its statement once and sends the
rows of this run in order, so many as were asked for in each round but the last. -/
theorem portal_streams_run {columns : List (Bytes × ℕ)} {rows : List (List Cell)} {tag : String}
    (running : c.conn.extendedErrorPending = false) (bound : c.conn.portals.get? name = some portal)
    (fresh : portal.suspendedRows = none) (fetched : Fetches name c fetches)
    (succeeds : ∀ fetch ∈ fetches.head?,
      (executeStatementWithParams fetch.before portal.sql portal.params fetch.here).1 =
        .rows columns rows tag) :
    Streams tag (Fetch.Runs portal (.rows columns rows tag)) rows fetches := by
  induction fetched with
  | done => exact .start ..
  | other answered others calm kept rest ih => exact ih calm (kept.trans bound) succeeds
  | @execute c m maxRows n answer fetches executes answered calm rest ih =>
    obtain ⟨env, kind, body, stays⟩ := m
    obtain ⟨rfl, rest', rfl, clean, valid, long, rfl⟩ := executes
    have ran := succeeds _ rfl
    have eq := (handleExecute_eq running clean valid long bound).symm.trans answered
    rw [fresh] at eq
    cases granted : env.retryAfter with
    | some retryAfter =>
      rw [granted] at eq
      obtain rfl := Returns.pure (Q := (· = Connection.protocolError ..)) rfl eq
      cases calm
    | none =>
      rw [granted] at eq
      dsimp only [runText] at eq
      split_ifs at eq
      · cases eq
      · rw [pure_bind] at eq
        dsimp only [Connection.wire] at ran eq
        rw [ran] at eq
        obtain rfl := Returns.pure (Q := (· = streamRows ..)) rfl eq
        refine streams_streamRows ⟨columns, rows, tag, 0⟩ (Nat.zero_le _) (Prod.ext ran ?_) rfl
          fun streamed below found' => streams_of_suspended rest calm below.le found'
        dsimp only
        rw [wire_streamRows]
        rfl

end

section

open Reference

/-- An Execute of no portal, and a query of the simple protocol. -/
def Sample.missing : Message := ⟨Sample.calm, 69, [0, 0, 0, 0, 0], by decide⟩

def Sample.begins : Message := ⟨Sample.calm, 81, .ofString "BEGIN", by decide⟩

def Sample.flush : Message := ⟨Sample.calm, 72, [], by decide⟩

/-- After the error a transaction begins before the Sync. -/
theorem query_executed_before_sync : letI := asciiText
    letI := emptyExecutor
    letI := asciiUtf8
    ∃ db c n c' frames n', Engine.openDb .empty = .ok db ∧
      reply ⟨.new db [] "30s", .new⟩ missing =
        some (.ok (c, [.error "34000" "portal \"\" does not exist"]), n) ∧
      c.conn.txn = none ∧ replies c [flush, begins] = some (.ok (c', frames), n') ∧
      c'.conn.txn.isSome ∧ frames = [.commandComplete "BEGIN", .readyForQuery 'T'] := by
  let _ := asciiText
  let _ := emptyExecutor
  let _ := asciiUtf8
  exact ⟨_, _, _, _, _, _, rfl, rfl, rfl, rfl, rfl, rfl⟩

theorem flush_skipped_before_sync : letI := asciiText
    letI := emptyExecutor
    letI := asciiUtf8
    ∃ db c, Engine.openDb .empty = .ok db ∧
      reply ⟨.new db [] "30s", .new⟩ missing =
        some (.ok (c, [.error "34000" "portal \"\" does not exist"]), 0) ∧
      replies c [flush, missing] = pure (c, []) := by
  let _ := asciiText
  let _ := emptyExecutor
  let _ := asciiUtf8
  have outcome : ∃ db c, Engine.openDb .empty = .ok db ∧ reply ⟨.new db [] "30s", .new⟩ missing =
      some (.ok (c, [.error "34000" "portal \"\" does not exist"]), 0) := ⟨_, _, rfl, rfl⟩
  obtain ⟨db, c, start, answered⟩ := outcome
  refine ⟨db, c, start, answered, ?_⟩
  refine ((skips_until_sync_iff (by decide) answered mem_cons_self ⟨Sample.calm, 83, [], by decide⟩
    rfl).mpr ?_).1
  exact forall_mem_cons.mpr ⟨mem_cons_self, by simp [Message.Waits, missing, extendedKinds]⟩

def Sample.ids : List (List Cell) := [[some [49]], [some [50]]]

@[reducible] def Sample.twoRows : SqlExecutor := constantExecutor (.ok (.rows [.ofString "id"] ids))

/-- An Execute for one row. -/
def Sample.next : Message := ⟨Sample.calm, 69, [0, 0, 0, 0, 1], by decide⟩

/-- A portal for the rows of a table. -/
def Sample.portal : Portal := ⟨.ofString "SELECT id FROM t", [], [], none⟩

def Sample.bound (db : Engine) : Connection :=
  ⟨.new db [] "30s", { ConnectionState.new with portals := .insert .empty [] portal }⟩

theorem Sample.run_bound (db : Engine) : letI := asciiText
    letI := twoRows
    executeStatementWithParams (bound db).wire (.ofString "SELECT id FROM t") [] Sample.calm.here =
      (.rows [(.ofString "id", 25)] ids "SELECT 2", (bound db).wire) := by
  let _ := asciiText
  have outcome : ∃ stmt, parseSql (.ofString "SELECT id FROM t") = .ok stmt ∧
      ∃ bound, bindStatementParams stmt [] = .ok bound ∧
      ∃ limited, enforcePgwireStatementLimits bound = .ok limited := by
    decide +kernel
  obtain ⟨stmt, parsed, stmt', binds, stmt'', limited⟩ := outcome
  have dispatched := @executeStatementCore_eq (bound db).wire _ _ _ _ parsed
    (by decide +kernel) (parseSql_strip (by decide +kernel)) rfl twoRows Sample.calm.here
  rw [if_neg (by decide +kernel)] at dispatched
  simp only [runBound, binds, runLimited, limited] at dispatched
  exact dispatched

/-- The first round sends a row. -/
theorem Sample.first_round (db : Engine) : letI := asciiText
    letI := twoRows
    letI := asciiUtf8
    reply (bound db) next = pure (streamRows (bound db) [] portal 1
      ⟨[(.ofString "id", 25)], ids, "SELECT 2", 0⟩) := by
  let _ := asciiText
  let _ := twoRows
  let _ := asciiUtf8
  have found : (bound db).conn.portals.get? [] = some portal := rfl
  have ran : runText (bound db) Sample.calm portal.sql portal.params = pure (_, _) :=
    congrArg (fun x => pure (x.1, (bound db).withWire x.2)) (run_bound db)
  show handleExecute (bound db) Sample.calm ([] ++ 0 :: [0, 0, 0, 1]) = _
  rw [handleExecute_eq rfl not_mem_nil rfl (by decide) found]
  show recover (runText (bound db) Sample.calm portal.sql portal.params >>= _) _ = _
  rw [ran]
  rfl

theorem Sample.reply_begins (c : Connection) (idle : c.conn.txn = none) : letI := asciiText
    letI := twoRows
    letI := asciiUtf8
    ∃ answer, reply c begins = pure answer ∧ answer.1.conn.extendedErrorPending = false ∧
      answer.1.conn.portals = c.conn.portals ∧ answer.1.conn.txn.isSome := by
  let _ := asciiText
  let _ := twoRows
  let _ := asciiUtf8
  obtain ⟨m, ⟨txn, failed⟩, named, portals, pending⟩ := c
  cases idle
  exact ⟨_, rfl, rfl, rfl, rfl⟩

/-- A row in each round, and a transaction that begins between the two. -/
theorem portal_streams_two_rounds : letI := asciiText
    letI := twoRows
    letI := asciiUtf8
    ∃ db first second, Engine.openDb .empty = .ok db ∧ Fetches [] (bound db) [first, second] ∧
      first.maxRows = 1 ∧ first.frames = [.dataRow [some [49]], .portalSuspended] ∧
      first.after.block.txn = none ∧ second.before.block.txn.isSome ∧
      second.frames = [.dataRow [some [50]], .commandComplete "SELECT 2"] ∧
      Streams "SELECT 2" (Fetch.Runs portal (.rows [(.ofString "id", 25)] ids "SELECT 2"))
        ids [first, second] := by
  let _ := asciiText
  let _ := twoRows
  let _ := asciiUtf8
  have executes : Sample.next.Executes [] 1 := ⟨rfl, [0, 0, 0, 1], rfl, not_mem_nil, rfl,
    by decide, by decide⟩
  obtain ⟨db, start⟩ : ∃ db, Engine.openDb .empty = .ok db := ⟨_, rfl⟩
  let first := streamRows (bound db) [] portal 1
    ⟨[(.ofString "id", 25)], ids, "SELECT 2", 0⟩
  obtain ⟨other, between, calm, kept, begun⟩ := reply_begins first.1 rfl
  have found : other.1.conn.portals.get? [] = some { portal with
      suspendedRows := some ⟨[(.ofString "id", 25)], ids, "SELECT 2", 1⟩ } := by
    rw [kept]
    rfl
  have fetched : Fetches [] (bound db) _ := .execute executes (first_round db) rfl (.other between
    (fun _ executes => absurd executes.1 (by decide)) calm (by rw [kept])
    (.execute executes (reply_of_suspended executes calm found) calm (.done _)))
  refine ⟨db, _, _, start, fetched, rfl, rfl, rfl, begun, rfl, ?_⟩
  refine portal_streams_run rfl (show _ = some portal from rfl) rfl fetched ?_
  rintro fetch ⟨⟩
  exact congrArg Prod.fst (run_bound db)

end

end OmniKV.Wire
