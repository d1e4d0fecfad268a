import OmniKV.Transaction.SnapshotCounts
import OmniKV.Wire.FailedState
import OmniKV.Wire.Panics

/-!
# Connections and their transactions

A connection aborts its open transaction when the stream ends between two messages, or with
Terminate. Every other way for its handler to return leaves it to the manager, and so does a COMMIT
that fails in the storage layer.
-/

namespace OmniKV.Wire

open Sql Parse KvQuery Checked Relation Engine Sample

/-- The manager forgets a transaction, and one reader less is registered for its snapshot. -/
structure Released (m m' : TransactionManager) (txn : Transaction) : Prop where
  inactive : m'.activeTxns.get? txn.id = none
  unregistered : ∀ seq, m'.db.registered seq = m.db.registered seq - if seq = txn.readSeq then
  1 else 0

def Freed (m m' : TransactionManager) (txn : Transaction) : Prop :=
  ∃ released, Released m released txn ∧ (m' = released ∨ m' = released.begin.2)

theorem released_cleanupTxn (m : TransactionManager) (txn : Transaction) :
    Released m (m.cleanupTxn txn) txn where
  inactive := by
    exact (SortedMap.get?_filter_ne _ _ _).trans (if_pos rfl)
  unregistered := registered_unregisterSnapshot m.db txn.readSeq

theorem freed_chained {m released : TransactionManager} {txn : Transaction}
    (done : Released m released txn)
    (chain : Bool) : Freed m (WireState.chained chain ⟨released, .idle⟩).manager txn := by
  cases chain with
  | false => exact ⟨released, done, .inl rfl⟩
  | true => exact ⟨released, done, .inr rfl⟩

section

variable [External]

/-- A COMMIT that passes the conflict check and then fails in the storage layer. -/
def LosesCommit (w : WireState) (here : Circumstances) : Prop :=
  ∃ txn, w.block.txn = some txn ∧ w.block.txnFailed = false ∧ here.expired = false ∧
    txn.writeSet.entries ≠ [] ∧
    SsiHistory.scanConflicts txn w.manager.history = none ∧
    Server.Unstorable w.manager.db txn here.now here.fault

theorem activeSnapshots_commitBatchLocalLocked (e : Engine) (batch : WriteBatch)
    (fault : Option CommitFault) :
    (e.commitBatchLocalLocked batch fault).2.activeSnapshots = e.activeSnapshots := by
  unfold commitBatchLocalLocked commitBatchLocal
  split_ifs
  · rfl
  · cases fault <;> rfl

theorem released_commit {m : TransactionManager} {txn : Transaction} {now : UInt64} {expired : Bool}
    {fault : Option CommitFault} (active : txn.state = .active)
    (stored : expired = false → txn.writeSet.entries ≠ [] →
    SsiHistory.scanConflicts txn m.history = none →
      ¬Server.Unstorable m.db txn now fault) :
      Released m (m.commit txn now expired fault).2.2 txn := by
  rw [TransactionManager.commit, if_neg (not_not.mpr active)]
  split_ifs with late unwritten
  · exact released_cleanupTxn m txn
  · exact released_cleanupTxn m txn
  cases free : SsiHistory.scanConflicts txn m.history with
  | some conflict => exact released_cleanupTxn m txn
  | none =>
    have storable := stored (Bool.eq_false_iff.mpr late) unwritten free
    obtain ⟨built, accepted⟩ := not_or.mp storable
    cases building : txn.buildWriteBatch now with
    | error err => exact absurd ⟨err, building⟩ built
    | ok batch =>
      rw [← Server.error_of_commitBatchLocalLocked m.db batch] at accepted
      have readers := activeSnapshots_commitBatchLocalLocked m.db batch fault
      dsimp only
      cases done : m.db.commitBatchLocalLocked batch fault with
      | mk result db =>
        rw [done] at accepted readers
        cases result with
        | error err => exact absurd ⟨err, rfl⟩ accepted
        | ok seq =>
          refine ⟨(released_cleanupTxn m txn).inactive, fun seq => ?_⟩
          rw [← registered_congr readers]
          exact registered_unregisterSnapshot db txn.readSeq seq

variable {w : WireState}

/-- A COMMIT or ROLLBACK releases the open transaction, unless the storage layer refuses it. -/
theorem freed_of_end [TextFunctions] [SqlExecutor] {txn : Transaction}
    (opened : w.block.txn = some txn)
    (active : txn.state = .active) {sql : Bytes} (ends : (commandOf (strip sql)).isEnd = true)
    {here : Circumstances}
    (stored : ∀ chain, commandOf (strip sql) = .commit chain → ¬LosesCommit w here)
    (params : List (Option Bytes)) :
    Freed w.manager (executeStatementWithParams w sql params here).2.manager txn := by
  rw [executeStatementWithParams]
  cases command : commandOf (strip sql) with
  | empty | set | begin | statement _ =>
    rw [command] at ends
    cases ends
  | rollback chain =>
    dsimp only
    rw [executeRollback, opened]
    exact freed_chained (released_cleanupTxn w.manager txn) chain
  | commit chain =>
    dsimp only
    rw [executeCommit, opened]
    dsimp only
    split_ifs with failed
    · exact freed_chained (released_cleanupTxn w.manager txn) chain
    · have done : Released w.manager (w.manager.commit txn here.now here.expired here.fault).2.2
          txn := by
        refine released_commit active fun inTime written free refused => ?_
        exact stored chain command ⟨txn, opened, Bool.eq_false_iff.mpr failed, inTime, written,
          free, refused⟩
      generalize w.manager.commit txn here.now here.expired here.fault = committed at done ⊢
      obtain ⟨result, after, m⟩ := committed
      cases result with
      | ok seq => exact freed_chained done chain
      | error err => exact ⟨m, done, .inl rfl⟩

/-- The state of the open transaction. -/
def TxnBlock.state (block : TxnBlock) : Option TxnState := block.txn.map Transaction.state

section

variable (w) (here : Circumstances)

theorem state_runLimited [SqlExecutor] (stmt : SqlStatement) :
    (runLimited w stmt here).2.block.state = w.block.state := by
  unfold runLimited
  split
  · rfl
  · unfold runStatement
    dsimp only
    split
    · exact Option.map_map ..
    · rfl

theorem state_answerKvWrite (batch : WriteBatch) (tag failure : String) :
    (answerKvWrite w batch tag failure here).2.block.state = w.block.state := by
  have staged : (stageKvWrite w batch here).2.block.state = w.block.state := by
    obtain ⟨m, txn, txnFailed⟩ := w
    cases txn <;> rfl
  unfold answerKvWrite
  generalize stageKvWrite w batch here = answer at staged ⊢
  obtain ⟨result, w'⟩ := answer
  cases result <;> exact staged

theorem state_executeKvSet (key value : Bytes) (tag failure : String) :
    (executeKvSet w key value tag failure here).2.block.state = w.block.state := by
  unfold executeKvSet
  split
  · rfl
  · exact state_answerKvWrite ..

theorem state_executeParsedKvQuery (query : KvQuery.Query) :
    (executeParsedKvQuery w query here).2.block.state = w.block.state := by
  unfold executeParsedKvQuery
  generalize buildScanRange query.conditions = range
  obtain ⟨start, stop⟩ := range
  have scanned : (overlayKvScan w start stop here).2.block.state = w.block.state :=
    Option.map_map ..
  cases query.action with
  | selectAll =>
    dsimp only
    split <;> exact scanned
  | selectCount => exact scanned
  | insert key value | update key value => exact state_executeKvSet ..
  | delete =>
    dsimp only
    split_ifs
    · exact scanned
    · exact (state_answerKvWrite ..).trans scanned

theorem state_executeNonTransactionalStatement [TextFunctions] [SqlExecutor]
    (text normalized : Bytes) (params : List (Option Bytes)) :
    (executeNonTransactionalStatement w text normalized params here).2.block.state =
      w.block.state := by
  unfold executeNonTransactionalStatement
  split_ifs
  · rfl
  · rfl
  · split
    · split
      · rfl
      · exact state_runLimited ..
    · unfold executeLegacyStatement
      split_ifs
      · rfl
      · split
        · exact state_executeParsedKvQuery ..
        · rfl

end

variable [TextFunctions] [SqlExecutor]

section

omit [External] [TextFunctions] [SqlExecutor]

/-- An open transaction is active. -/
def TxnBlock.Active (block : TxnBlock) : Prop := ∀ txn, block.txn = some txn → txn.state = .active

theorem TxnBlock.Active.of_state {block block' : TxnBlock} (active : block.Active)
    (same : block'.state = block.state) : block'.Active := by
  intro txn opened
  have found : block.state = some txn.state := by
    rw [← same, TxnBlock.state, opened]
    rfl
  obtain ⟨before, opened, state⟩ := Option.map_eq_some_iff.mp found
  exact state ▸ active before opened

theorem TxnBlock.Active.chained (chain : Bool) (m : TransactionManager) :
    (WireState.chained chain ⟨m, .idle⟩).block.Active := by
  cases chain with
  | false => nofun
  | true =>
    rintro _ ⟨⟩
    rfl

end

theorem active_executeStatementWithParams (active : w.block.Active) (sql : Bytes)
    (params : List (Option Bytes)) (here : Circumstances) :
    (executeStatementWithParams w sql params here).2.block.Active := by
  rw [executeStatementWithParams]
  cases commandOf (strip sql) with
  | empty | set => exact active
  | begin =>
    rw [executeBegin]
    split_ifs
    · exact active
    · exact .chained true w.manager
  | commit chain =>
    dsimp only
    unfold executeCommit
    split
    · split_ifs
      · exact .chained chain _
      · split
        · exact .chained chain _
        · exact .chained false _
    · split_ifs <;> exact active
  | rollback chain =>
    dsimp only
    unfold executeRollback
    split
    · exact .chained chain _
    · split_ifs <;> exact active
  | statement normalized => exact active.of_state (state_executeNonTransactionalStatement ..)

section

omit [External] [TextFunctions] [SqlExecutor]

def Command.leavesOpen (opened : Bool) : Command → Bool
  | .begin => true
  | .commit chain => chain && opened
  | .rollback chain => chain && opened
  | .empty => opened
  | .set => opened
  | .statement _ => opened

theorem txn_chained {chain : Bool} (single : chain = false) (m : TransactionManager) :
    (WireState.chained chain ⟨m, .idle⟩).block.txn = none := by
  rw [single]
  rfl

end

theorem txn_executeStatementWithParams {sql : Bytes}
    (closes : (commandOf (strip sql)).leavesOpen w.block.txn.isSome = false)
    (params : List (Option Bytes))
    (here : Circumstances) : (executeStatementWithParams w sql params here).2.block.txn = none := by
  rw [executeStatementWithParams]
  have outside (closed : w.block.txn.isSome = false) : w.block.txn = none := by simpa using closed
  cases command : commandOf (strip sql) with
  | begin =>
    rw [command] at closes
    cases closes
  | empty | set =>
    rw [command] at closes
    exact outside closes
  | commit chain =>
    rw [command] at closes
    dsimp only
    unfold executeCommit
    split
    · rename_i txn opened
      have single : chain = false := by simpa [Command.leavesOpen, opened] using closes
      split_ifs
      · exact txn_chained single _
      · split
        · exact txn_chained single _
        · rfl
    · split_ifs <;> assumption
  | rollback chain =>
    rw [command] at closes
    dsimp only
    unfold executeRollback
    split
    · rename_i txn opened
      exact txn_chained (by simpa [Command.leavesOpen, opened] using closes) _
    · split_ifs <;> assumption
  | statement normalized =>
    rw [command] at closes
    have closed : w.block.state = none := by rw [TxnBlock.state, outside closes]; rfl
    rw [← state_executeNonTransactionalStatement w here (strip sql) normalized params] at closed
    exact Option.map_eq_none_iff.mp closed

section

variable [Utf8] {c : Connection} {env : Environment} {body stream : Bytes} {kind : UInt8}
  {answer : Answer}

theorem answered_handleMessage (c : Connection) (env : Environment) (kind : UInt8) (body : Bytes) :
    Returns (handleMessage c env kind body) (Answered c env kind body) := by
  by_cases crashes : Crashes c env kind body
  · rw [handleMessage_panics crashes]
    exact .crash
  · exact (safe_handleMessage (le_max_left _ body.length) (le_max_right ..) crashes).returns

section

omit [External] [TextFunctions] [SqlExecutor] [Utf8]

/-- A connection with the bytes that its client still sends, or one whose handler has returned. -/
inductive Link
  | live (c : Connection) (stream : Bytes)
  | closed (c : Connection)

/-- A round of the message loop, or what other connections do to the manager. -/
inductive LinkEvent
  | message (env : Environment)
  | others (manager : TransactionManager)

end

namespace Link

section

omit [External] [TextFunctions] [SqlExecutor] [Utf8]

def manager : Link → TransactionManager
  | .live c _ => c.manager
  | .closed c => c.manager

def IsClosed : Link → Prop
  | .live _ _ => False
  | .closed _ => True

def ofTurn : Turn → Link
  | .next c stream => .live c stream
  | .returned c => .closed c

/-- A handler that panics leaves the connection as it is. -/
def ofServed (c : Connection) : Checked ProtocolError Turn → Link
  | some (.ok turn, _) => .ofTurn turn
  | _ => .closed c

end

def next : Link → LinkEvent → Option Link
  | .live c stream, .message env => some (.ofServed c (serveMessage c stream env))
  | .closed _, .message _ => none
  | .live c stream, .others manager => some (.live { c with manager := manager } stream)
  | .closed c, .others manager => some (.closed { c with manager := manager })

end Link

omit [External] [TextFunctions] [SqlExecutor] [Utf8] in
def NextMessage (stream : Bytes) (kind : UInt8) (body : Bytes) : Prop :=
  ∃ rest stream', stream = kind :: rest ∧ frameOf rest = some (body, stream')

omit [External] [SqlExecutor] in
/-- No transaction is open behind a message, whatever the storage layer does. -/
def ClosesAll (c : Connection) (env : Environment) (kind : UInt8) (body : Bytes) : Prop :=
  ((∀ sql params, ¬Runs c env kind body sql params) → c.conn.txn = none) ∧
    ∀ sql params, Runs c env kind body sql params →
    (commandOf (strip sql)).leavesOpen c.conn.txn.isSome = false

omit [SqlExecutor] in
/-- An open transaction meets no unreadable frame, panic, or failing socket, and the storage layer
does not refuse a COMMIT. -/
def Link.Careful : Link → LinkEvent → Prop
  | .live c stream, .message env =>
    (c.conn.txn.isSome → stream = [] ∨ ∃ kind body, NextMessage stream kind body ∧
      ¬Crashes c env kind body) ∧
      ∀ kind body, NextMessage stream kind body → (env.writable = none ∨ kind = 88 ∨
      ClosesAll c env kind body) ∧
        ∀ sql params chain, Runs c env kind body sql params →
        commandOf (strip sql) = .commit chain →
          ¬LosesCommit c.wire env.here
  | _, _ => True

omit [External] [SqlExecutor] in
def EndsTransaction (c : Connection) (stream : Bytes) (env : Environment) : Prop :=
  ∃ kind body sql params, NextMessage stream kind body ∧ Runs c env kind body sql params ∧
    (commandOf (strip sql)).isEnd = true

section

omit [External] [TextFunctions] [SqlExecutor] [Utf8]

theorem NextMessage.unique {body' : Bytes} {kind' : UInt8} (first : NextMessage stream kind body)
    (second : NextMessage stream kind' body') : kind = kind' ∧ body = body' := by
  obtain ⟨rest, stream', rfl, framed⟩ := first
  obtain ⟨rest', stream'', same, framed'⟩ := second
  cases same
  rw [framed] at framed'
  cases framed'
  exact ⟨rfl, rfl⟩

theorem extended_cases (c : Connection) (x : Checked ProtocolError Answer) :
    c.extended x = crash ∨ ∃ answer n, c.extended x = some (.ok answer, n) := by
  rw [Connection.extended]
  split_ifs
  · exact .inr ⟨_, _, rfl⟩
  · obtain _ | ⟨err | answer, n⟩ := x
    · exact .inl rfl
    · exact .inr ⟨_, _, rfl⟩
    · exact .inr ⟨_, _, rfl⟩

end

theorem handleMessage_cases (c : Connection) (env : Environment) (kind : UInt8) (body : Bytes) :
    handleMessage c env kind body = crash ∨ ∃ answer n, handleMessage c env kind body =
      some (.ok answer, n) := by
  rw [handleMessage]
  split_ifs
  · rw [handleQuery]
    split
    · exact .inr ⟨_, _, rfl⟩
    · dsimp only [runText]
      split_ifs
      · exact .inl rfl
      · exact .inr ⟨_, _, rfl⟩
  all_goals first | exact extended_cases c _ | exact .inr ⟨_, _, rfl⟩

/-- The ways in which a round of the loop ends. -/
inductive Round (c : Connection) (stream : Bytes) (env : Environment) : Link → Prop
  | ended (empty : stream = []) : Round c stream env (.closed c.release)
  | unreadable (bytes : stream ≠ []) (none : ∀ kind body, ¬NextMessage stream kind body) :
    Round c stream env (.closed c)
  | terminated {body : Bytes} (read : NextMessage stream 88 body) :
    Round c stream env (.closed c.release)
  | panicked {kind : UInt8} {body : Bytes} (read : NextMessage stream kind body)
    (crashes : Crashes c env kind body) :
      Round c stream env (.closed c)
  | answered {kind : UInt8} {body stream' : Bytes} {answer : Answer} {n : ℕ}
    (read : NextMessage stream kind body)
      (other : kind ≠ 88) (handled : handleMessage c env kind body = some (.ok answer, n)) :
      Round c stream env (.ofTurn (respond env stream' answer))

omit [External] [TextFunctions] [SqlExecutor] [Utf8] in
theorem ofServed_bind {α : Type} {x : Checked ProtocolError α} {f : α → Checked ProtocolError Turn}
    {a : α} {n : ℕ}
    (ran : x = some (.ok a, n)) (c : Connection) :
    Link.ofServed c (x >>= f) = Link.ofServed c (f a) := by
  subst ran
  change Link.ofServed c (Option.map _ (f a)) = Link.ofServed c (f a)
  match f a with
  | none => rfl
  | some (.ok turn, m) => rfl
  | some (.error err, m) => rfl

theorem round_serveMessage (c : Connection) (stream : Bytes) (env : Environment) :
    Round c stream env (.ofServed c (serveMessage c stream env)) := by
  cases stream with
  | nil => exact .ended rfl
  | cons kind rest =>
    obtain ⟨n, -, read⟩ := readMessageBody_eq rest
    rw [serveMessage, ofServed_bind read]
    cases framed : frameOf rest with
    | none =>
      refine .unreadable nofun ?_
      rintro _ body ⟨rest', stream', same, framed'⟩
      cases same
      rw [framed] at framed'
      cases framed'
    | some frame =>
      obtain ⟨body, stream'⟩ := frame
      have next : NextMessage (kind :: rest) kind body := ⟨rest, stream', rfl, framed⟩
      by_cases terminate : kind = 88
      · subst terminate
        exact .terminated next
      dsimp only
      rw [if_neg terminate]
      obtain crashed | ⟨answer, m, handled⟩ := handleMessage_cases c env kind body
      · have crashes : Crashes c env kind body := by
          by_contra calm
          have safe := safe_handleMessage le_rfl (length_of_frameOf framed).1 calm
          exact Safe.not_crash (crashed ▸ safe)
        rw [crashed]
        exact .panicked next crashes
      · rw [ofServed_bind handled]
        exact .answered next terminate handled

section

omit [External] [TextFunctions] [SqlExecutor] [Utf8]

/-- An open transaction is active, and none is open when the handler has returned. -/
def Link.Clean : Link → Prop
  | .live c _ => c.conn.Active
  | .closed c => c.conn.txn = none

theorem txn_release (c : Connection) : c.release.conn.txn = none := by
  unfold Connection.release
  split
  · rfl
  · assumption

theorem freed_release {txn : Transaction} (opened : c.conn.txn = some txn) :
    Freed c.manager c.release.manager txn := by
  rw [Connection.release, opened]
  exact ⟨_, released_cleanupTxn c.manager txn, .inl rfl⟩

theorem isEnd_of_leavesOpen {command : Command} (closes : command.leavesOpen true = false) :
    command.isEnd = true := by
  cases command with
  | commit chain | rollback chain => rfl
  | empty | set | begin | statement _ => cases closes

theorem manager_respond (env : Environment) (stream : Bytes) (answer : Answer) :
    (Link.ofTurn (respond env stream answer)).manager = answer.1.manager := by
  unfold respond
  split_ifs <;> rfl

theorem clean_respond (active : answer.1.conn.Active)
    (closed : env.writable ≠ none → answer.1.conn.txn = none) (stream : Bytes) :
    (Link.ofTurn (respond env stream answer)).Clean := by
  unfold respond
  split_ifs with fits
  · exact active
  · refine closed fun none => fits ?_
    rw [none]
    rfl

theorem writable_of_isClosed (closed : (Link.ofTurn (respond env stream answer)).IsClosed) :
    env.writable ≠ none := by
  intro none
  rw [respond, none] at closed
  exact closed

theorem Leaves.active {w : WireState} (leaves : Leaves w answer) (active : w.block.Active) :
    answer.1.conn.Active := fun txn opened => active txn (leaves.2.symm.trans opened)

end

theorem clean_round {link : Link} (active : c.conn.Active)
    (careful : Link.Careful (.live c stream) (.message env)) (round : Round c stream env link) :
    link.Clean := by
  obtain ⟨met, careful⟩ := careful
  cases round with
  | ended empty | terminated read => exact txn_release c
  | unreadable bytes none =>
    by_contra opened
    obtain empty | ⟨kind, body, read, -⟩ := met (Option.isSome_iff_ne_none.mpr opened)
    · exact bytes empty
    · exact none kind body read
  | panicked read crashes =>
    by_contra opened
    obtain empty | ⟨kind, body, read', calm⟩ := met (Option.isSome_iff_ne_none.mpr opened)
    · obtain ⟨rest, stream', same, -⟩ := read
      rw [empty] at same
      cases same
    · obtain ⟨rfl, rfl⟩ := read.unique read'
      exact calm crashes
  | @answered kind body _ answer _ read other handled =>
    have closes (failing : env.writable ≠ none) : ClosesAll c env kind body :=
      ((careful kind body read).1.resolve_left failing).resolve_left other
    by_cases runs : ∃ sql params, Runs c env kind body sql params
    · obtain ⟨sql, params, runs⟩ := runs
      have leaves := (answered_handleMessage _ _ _ _ handled).runs _ _ runs
      refine clean_respond (leaves.active (active_executeStatementWithParams active sql params
        env.here)) ?_ _
      intro failing
      exact leaves.2.trans (txn_executeStatementWithParams ((closes failing).2 sql params runs)
        params env.here)
    · have idle : ∀ sql params, ¬Runs c env kind body sql params := fun sql params ran =>
        runs ⟨sql, params, ran⟩
      have leaves := (answered_handleMessage _ _ _ _ handled).idle idle
      exact clean_respond (leaves.active active) (fun failing =>
        leaves.2.trans ((closes failing).1 idle)) _

/-- A careful round that ends the open transaction, or the connection, releases the transaction. -/
theorem freed_round {link : Link} {txn : Transaction}
    (active : c.conn.Active) (careful : Link.Careful (.live c stream) (.message env))
    (round : Round c stream env link)
    (opened : c.conn.txn = some txn) (ends : EndsTransaction c stream env ∨ link.IsClosed) :
    Freed c.manager link.manager txn := by
  have clean := clean_round active careful round
  obtain ⟨-, careful⟩ := careful
  cases round with
  | ended empty | terminated read => exact freed_release opened
  | unreadable bytes none | panicked read crashes => exact absurd (opened.symm.trans clean) nofun
  | @answered kind body _ answer _ read other handled =>
    have run : ∃ sql params, Runs c env kind body sql params ∧
        (commandOf (strip sql)).isEnd = true := by
      obtain ⟨kind', body', sql, params, read', runs, ending⟩ | closed := ends
      · obtain ⟨rfl, rfl⟩ := read.unique read'
        exact ⟨sql, params, runs, ending⟩
      · obtain ⟨idle, closes⟩ :=
          ((careful kind body read).1.resolve_left (writable_of_isClosed closed)).resolve_left other
        have runs : ∃ sql params, Runs c env kind body sql params := by
          by_contra none
          exact absurd (opened.symm.trans (idle fun sql params ran => none ⟨sql, params, ran⟩))
            nofun
        obtain ⟨sql, params, runs⟩ := runs
        have closes := closes sql params runs
        rw [opened] at closes
        exact ⟨sql, params, runs, isEnd_of_leavesOpen closes⟩
    obtain ⟨sql, params, runs, ending⟩ := run
    rw [manager_respond, ((answered_handleMessage _ _ _ _ handled).runs _ _ runs).1]
    exact freed_of_end opened (active txn opened) ending
      (fun chain commits => (careful kind body read).2 sql params chain runs commits) params

omit [External] [SqlExecutor] in
theorem careful_of_message
    (read : NextMessage stream kind body) (calm : ¬Crashes c env kind body)
    (sound : env.writable = none)
    (other : ∀ sql params chain, Runs c env kind body sql params →
    commandOf (strip sql) ≠ .commit chain) : Link.Careful (.live c stream) (.message env) := by
  refine ⟨fun _ => .inr ⟨kind, body, read, calm⟩, ?_⟩
  intro kind' body' read'
  obtain ⟨rfl, rfl⟩ := read.unique read'
  exact ⟨.inl sound, fun sql params chain runs commits =>
    absurd commits (other sql params chain runs)⟩

/-- In a run of careful rounds an open transaction is released by the round that answers COMMIT or
ROLLBACK, or ends the handler. -/
theorem connection_releases_transaction {m : TransactionManager} {stream : Bytes} {link : Link}
    (run : ReflTransGen (Run.SafeStep Link.Careful Link.next) (.live ⟨m, .new⟩ stream) link) :
    (∀ c, link = .closed c → c.conn.txn = none) ∧
    ∀ c stream env link' txn, link = .live c stream → link.Careful (.message env) →
      link.next (.message env) = some link' → c.conn.txn = some txn →
      EndsTransaction c stream env ∨ link'.IsClosed → Freed c.manager link'.manager txn := by
  have clean : link.Clean := by
    refine Run.invariant run nofun ?_
    intro link link' event clean careful step
    match link, event with
    | .live c stream, .message env =>
      exact Option.some.inj step ▸ clean_round clean careful (round_serveMessage c stream env)
    | .live c stream, .others manager => exact Option.some.inj step ▸ clean
    | .closed c, .others manager => exact Option.some.inj step ▸ clean
  refine ⟨?_, ?_⟩
  · rintro c rfl
    exact clean
  · rintro c stream env link' txn rfl careful step opened ends
    cases step
    exact freed_round clean careful (round_serveMessage c stream env) opened ends

end

end

section

open Reference

namespace Sample

/-- A transaction begins, and the client leaves in the middle of its next message. -/
def cutOff : Bytes := message 'Q' (Bytes.ofString "BEGIN" ++ [0]) ++ [81, 0, 0]

/-- A transaction begins, and the client says goodbye. -/
def goodbye : Bytes := message 'Q' (Bytes.ofString "BEGIN" ++ [0]) ++ message 'X' []

end Sample

/-- The handler has returned, and the manager keeps the transaction and its snapshot. -/
theorem cut_off_message_leaks :
    letI := asciiText
    letI := emptyExecutor
    letI := asciiUtf8
    ∃ db c txn, openDb .empty = .ok db ∧ [LinkEvent.message Sample.calm,
      .message Sample.calm].foldlM Link.next
        (.live ⟨.new db [] "30s", .new⟩ cutOff) = some (.closed c) ∧
      c.conn.txn = some txn ∧ c.manager.activeTxns.get? txn.id = some txn.readSeq ∧
      c.manager.db.registered txn.readSeq = 1 := ⟨_, _, _, rfl, rfl, rfl, by decide +kernel⟩

/-- A connection that ends with Terminate, in the middle of a transaction. -/
theorem goodbye_releases : letI := asciiText
    letI := emptyExecutor
    letI := asciiUtf8
    ∃ db c stream txn link, openDb .empty = .ok db ∧
      ReflTransGen (Run.SafeStep Link.Careful Link.next) (.live ⟨.new db [] "30s", .new⟩ goodbye)
        (.live c stream) ∧
      c.conn.txn = some txn ∧ Link.next (.live c stream) (.message Sample.calm) = some link ∧
      link.IsClosed ∧ Freed c.manager link.manager txn := by
  let _ := asciiText
  let _ := emptyExecutor
  let _ := asciiUtf8
  have outcome : ∃ db, openDb .empty = .ok db ∧
      ∃ link, Link.next (.live ⟨.new db [] "30s", .new⟩ goodbye) (.message Sample.calm) =
      some link ∧
        (match link with
        | .live c stream => c.conn.txn.isSome && decide (stream = message 'X' [])
        | .closed _ => false) = true := by
    decide +kernel
  obtain ⟨db, start, ⟨c, stream⟩ | c, ran, outcome⟩ := outcome
  on_goal 2 => cases outcome
  obtain ⟨opened, rest⟩ := Bool.and_eq_true_iff.mp outcome
  obtain ⟨txn, opened⟩ := Option.isSome_iff_exists.mp opened
  obtain rfl := of_decide_eq_true rest
  have calm : ∀ c kind body, kind ≠ 68 → ¬Crashes c Sample.calm kind body := by
    rintro c kind body other (⟨same, -⟩ | ⟨panics, -⟩)
    · exact other same
    · cases panics
  have begins : Link.Careful (.live ⟨.new db [] "30s", .new⟩ goodbye) (.message Sample.calm) := by
    refine careful_of_message ⟨_, message 'X' [], rfl, rfl⟩ (calm _ _ _ (by decide)) rfl ?_
    intro sql params chain runs
    cases runs with
    | query =>
      have begins : commandOf (strip (Bytes.ofString "BEGIN")) = .begin := rfl
      exact begins ▸ nofun
    | execute isExecute => exact absurd isExecute (by decide)
  have leaves : Link.Careful (.live c (message 'X' [])) (.message Sample.calm) := by
    refine careful_of_message ⟨_, [], rfl, rfl⟩ (calm _ _ _ (by decide)) rfl ?_
    intro sql params chain runs
    cases runs with
    | query isQuery => exact absurd isQuery (by decide)
    | execute isExecute => exact absurd isExecute (by decide)
  have run : ReflTransGen (Run.SafeStep Link.Careful Link.next) _ _ := .single ⟨_, begins, ran⟩
  refine ⟨db, c, _, txn, .closed c.release, start, run, opened, rfl, trivial, ?_⟩
  exact (connection_releases_transaction run).2 c _ Sample.calm _ txn rfl leaves rfl opened
    (.inr trivial)

end

end OmniKV.Wire
