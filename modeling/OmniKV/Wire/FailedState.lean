import OmniKV.Wire.Dispatch

/-!
# The failed state of a transaction block

A session should be in the failed state exactly when there is an Error among the outcomes since its
transaction began. Each layer of the dispatcher sets the flag by itself; the refusals of the legacy
grammar do not.
-/

namespace OmniKV.Wire

open Sql Parse KvQuery Relation Sample

def StepOutcome.isError : StepOutcome → Bool
  | .error _ _ => true
  | _ => false

/-- The commands that end a transaction block. -/
def Command.isEnd : Command → Bool
  | .commit _ => true
  | .rollback _ => true
  | _ => false

/-- A session with the outcomes since the open transaction began. -/
structure Observed extends WireState where
  since : List StepOutcome

inductive SessionEvent
  | statement (sql : Bytes) (here : Circumstances)
  | others (manager : TransactionManager)

section

variable [External]

/-- A statement fails an open transaction if and only if it is answered with an Error. -/
structure Tracks (w : WireState) (answer : StepOutcome × WireState) : Prop where
  isSome : answer.2.block.txn.isSome = w.block.txn.isSome
  failed : answer.2.block.txnFailed = (w.block.txnFailed || w.block.txn.isSome && answer.1.isError)

section

omit [External]

variable {w w' : WireState} {outcome : StepOutcome}

section

variable (isSome : w'.block.txn.isSome = w.block.txn.isSome) (failed : w'.block.txnFailed =
  w.block.txnFailed)

include isSome failed

theorem Tracks.kept (fine : w.block.txn.isSome → outcome.isError = false) :
    Tracks w (outcome, w') := by
  refine ⟨isSome, ?_⟩
  cases inside : w.block.txn.isSome with
  | false => rw [failed, Bool.false_and, Bool.or_false]
  | true => rw [failed, fine inside, Bool.and_false, Bool.or_false]

theorem Tracks.after {answer : StepOutcome × WireState} (tracks : Tracks w' answer) :
    Tracks w answer :=
  ⟨tracks.isSome.trans isSome, by rw [tracks.failed, isSome, failed]⟩

end

theorem Tracks.fail (same : w'.block = w.block) (code message : String) :
    Tracks w (.error code message, w'.fail) := by
  refine ⟨by rw [WireState.fail, TxnBlock.fail, same], ?_⟩
  rw [WireState.fail, TxnBlock.fail, same]
  simp [StepOutcome.isError]

theorem isError_outcomeOf (result : ExecResult) : (outcomeOf result).isError = false := by
  cases result <;> rfl

end

theorem tracks_runLimited [SqlExecutor] (w : WireState) (stmt : SqlStatement)
    (here : Circumstances) : Tracks w (runLimited w stmt here) := by
  unfold runLimited
  split
  · exact .fail rfl _ _
  · unfold runStatement
    dsimp only
    split
    · refine .kept ?_ rfl fun _ => isError_outcomeOf _
      exact Option.isSome_map ..
    · refine .fail ?_ _ _
      rfl

theorem tracks_answerKvWrite (w : WireState) (batch : WriteBatch) (tag failure : String)
    (here : Circumstances) : Tracks w (answerKvWrite w batch tag failure here) := by
  obtain ⟨m, txn, txnFailed⟩ := w
  cases txn with
  | some txn => exact .kept rfl rfl fun _ => rfl
  | none =>
    have same : (stageKvWrite ⟨m, none, txnFailed⟩ batch here).2.block = ⟨none, txnFailed⟩ := rfl
    unfold answerKvWrite
    generalize stageKvWrite ⟨m, none, txnFailed⟩ batch here = staged at same ⊢
    obtain ⟨result, w⟩ := staged
    cases result <;> exact .kept (by rw [same]) (by rw [same]) nofun

variable {w : WireState} {sql : Bytes}

theorem tracks_executeKvSet {value : Bytes} (fits : w.block.txn.isSome →
    ¬maxValueSize < value.length) (key : Bytes) (tag failure : String) (here : Circumstances) :
    Tracks w (executeKvSet w key value tag failure here) := by
  rw [executeKvSet, WriteBatch.set, WriteBatch.setWithExpiry, dif_neg (by decide)]
  split_ifs with large
  · exact .kept rfl rfl fun inside => absurd large (fits inside)
  · exact tracks_answerKvWrite w _ tag failure here

theorem tracks_executeParsedKvQuery {query : KvQuery.Query}
    (fits : w.block.txn.isSome → ¬Oversized query) (here : Circumstances) :
    Tracks w (executeParsedKvQuery w query here) := by
  unfold executeParsedKvQuery
  unfold Oversized at fits
  generalize buildScanRange query.conditions = range
  obtain ⟨start, stop⟩ := range
  have isSome : (overlayKvScan w start stop here).2.block.txn.isSome = w.block.txn.isSome :=
    Option.isSome_map ..
  have failed : (overlayKvScan w start stop here).2.block.txnFailed = w.block.txnFailed := rfl
  cases action : query.action with
  | selectAll =>
    simp only [action, ← boundedPgwireQueryLimit_eq_error] at fits ⊢
    split
    · rename_i message refused
      exact .kept isSome failed fun inside => absurd ⟨message, refused⟩ (fits inside)
    · exact .kept isSome failed fun _ => rfl
  | selectCount => exact .kept isSome failed fun _ => rfl
  | insert key value | update key value =>
    simp only [action] at fits
    exact tracks_executeKvSet fits key _ _ here
  | delete =>
    dsimp only
    split_ifs
    · exact .kept isSome failed fun _ => rfl
    · exact .after isSome failed (tracks_answerKvWrite ..)

variable [TextFunctions]

/-- The texts that the SQL grammar rejects and the legacy grammar reads as a query that is refused.
-/
def Unflagged (sql : Bytes) : Prop :=
  (∃ err, parseSql (strip sql) = .error err) ∧
    ∃ query, parseQuery (strip sql) = .ok query ∧ Oversized query

variable [SqlExecutor]

theorem tracks_executeNonTransactionalStatement {normalized : Bytes}
    (flagged : w.block.txn.isSome → w.block.txnFailed = false → ¬Unflagged sql)
    (here : Circumstances) :
    Tracks w (executeNonTransactionalStatement w (strip sql) normalized [] here) := by
  rw [executeNonTransactionalStatement]
  split_ifs with failed shortcut
  · exact ⟨rfl, by rw [failed, Bool.true_or]⟩
  · exact .kept rfl rfl fun _ => rfl
  · split
    · split
      · exact .fail rfl _ _
      · exact tracks_runLimited w _ here
    · rename_i err rejected
      unfold executeLegacyStatement
      simp only [List.isEmpty_nil, Bool.not_true, Bool.false_eq_true, if_false]
      split
      · rename_i query read
        refine tracks_executeParsedKvQuery (fun inside large => ?_) here
        exact flagged inside (Bool.eq_false_iff.mpr failed) ⟨⟨err, rejected⟩, query, read, large⟩
      · exact .fail rfl _ _

omit [External] [TextFunctions] [SqlExecutor] in
theorem txnFailed_chained (chain : Bool) (m : TransactionManager) :
    (WireState.chained chain ⟨m, .idle⟩).block.txnFailed = false := by
  cases chain <;> rfl

variable (fine : w.block.txn.isNone → w.block.txnFailed = false)

include fine

omit [TextFunctions] [SqlExecutor] in
theorem txnFailed_executeCommit (chain : Bool)
    (here : Circumstances) : (executeCommit w chain here).2.block.txnFailed = false := by
  unfold executeCommit
  split
  · split_ifs
    · exact txnFailed_chained chain _
    · split
      · exact txnFailed_chained chain _
      · rfl
  · rename_i none
    split_ifs <;> exact fine (by rw [none]; rfl)

omit [External] [TextFunctions] [SqlExecutor] in
theorem txnFailed_executeRollback (chain : Bool) :
    (executeRollback w chain).2.block.txnFailed = false := by
  unfold executeRollback
  split
  · exact txnFailed_chained chain _
  · rename_i none
    split_ifs <;> exact fine (by rw [none]; rfl)

/-- A statement outside of a transaction, or one that ends it, leaves no flag. -/
theorem txnFailed_of_fresh (fresh : w.block.txn.isNone || (commandOf (strip sql)).isEnd)
    (here : Circumstances) : (executeStatementCore w sql here).2.block.txnFailed = false := by
  have outside (stays : (commandOf (strip sql)).isEnd = false) : w.block.txn.isNone := by
    rwa [stays, Bool.or_false] at fresh
  rw [executeStatementCore, executeStatementWithParams]
  cases command : commandOf (strip sql) with
  | commit chain => exact txnFailed_executeCommit fine chain here
  | rollback chain => exact txnFailed_executeRollback fine chain
  | empty | set => exact fine (outside (by rw [command]; rfl))
  | begin =>
    have none : w.block.txn.isNone := outside (by rw [command]; rfl)
    rw [executeBegin, if_neg (by simpa using none)]
    rfl
  | statement normalized =>
    have none : w.block.txn.isNone := outside (by rw [command]; rfl)
    have closed : w.block.txn.isSome = false := by simpa using none
    have tracks : Tracks w (executeNonTransactionalStatement w (strip sql) normalized [] here) :=
      tracks_executeNonTransactionalStatement (by simp [closed]) here
    rw [tracks.failed, fine none, closed, Bool.false_and, Bool.or_false]

omit fine

theorem tracks_of_inside (inside : w.block.txn.isSome)
    (stays : (commandOf (strip sql)).isEnd = false) (flagged : w.block.txnFailed = false →
    ¬Unflagged sql) (here : Circumstances) : Tracks w (executeStatementCore w sql here) := by
  rw [executeStatementCore, executeStatementWithParams]
  cases command : commandOf (strip sql) with
  | commit chain | rollback chain =>
    rw [command] at stays
    cases stays
  | empty | set => exact .kept rfl rfl fun _ => rfl
  | begin =>
    rw [executeBegin, if_pos inside]
    exact .kept rfl rfl fun _ => rfl
  | statement normalized => exact tracks_executeNonTransactionalStatement (fun _ => flagged) here

namespace Observed

omit [External] [TextFunctions] [SqlExecutor] in
def initial (m : TransactionManager) : Observed := ⟨⟨m, .idle⟩, []⟩

def next (s : Observed) : SessionEvent → Option Observed
  | .statement sql here =>
    let (outcome, w) := executeStatementCore s.toWireState sql here
    -- A transaction that is open now has begun with this statement.
    let fresh := s.block.txn.isNone || (commandOf (strip sql)).isEnd
    some ⟨w, if fresh then [] else s.since ++ [outcome]⟩
  | .others manager => some { s with manager := manager }

omit [External] [SqlExecutor] in
/-- No statement in an open transaction that has not failed is refused without failing it. -/
def Careful (s : Observed) : SessionEvent → Prop
  | .statement sql _ => ¬(s.block.txn.isSome ∧ s.block.txnFailed = false ∧ Unflagged sql)
  | .others _ => True

omit [External] [TextFunctions] [SqlExecutor] in
/-- The flag says whether a transaction is open and an Error has occurred since it began. -/
def Exact (s : Observed) : Prop :=
  s.block.txnFailed = (s.block.txn.isSome && s.since.any StepOutcome.isError)

variable {s s' : Observed}

section

omit [External] [TextFunctions] [SqlExecutor]

/-- After a statement in an open transaction. -/
theorem Exact.append (exact : s.Exact) {answer : StepOutcome × WireState}
    (tracks : Tracks s.toWireState answer) : Exact ⟨answer.2, s.since ++ [answer.1]⟩ := by
  have flag : s.block.txnFailed = _ := exact
  rw [Exact, tracks.failed, tracks.isSome, flag, List.any_append, List.any_cons, List.any_nil,
    Bool.or_false]
  exact (Bool.and_or_distrib_left ..).symm

/-- At the beginning of a transaction, and outside of one. -/
theorem exact_nil {w : WireState} (fresh : w.block.txnFailed = false) : Exact ⟨w, []⟩ := by
  rw [Exact, fresh, List.any_nil, Bool.and_false]

end

theorem Exact.next {event : SessionEvent} (exact : s.Exact) (careful : s.Careful event)
    (step : s.next event = some s') : s'.Exact := by
  cases event with
  | others manager => exact Option.some.inj step ▸ exact
  | statement sql here =>
    cases step
    have fine : s.block.txn.isNone → s.block.txnFailed = false := by
      intro none
      have closed : s.block.txn.isSome = false := by simpa using none
      rw [exact, closed, Bool.false_and]
    by_cases fresh : (s.block.txn.isNone || (commandOf (strip sql)).isEnd) = true
    · simp only [fresh]
      exact exact_nil (txnFailed_of_fresh fine fresh here)
    · obtain ⟨inside, stays⟩ := Bool.or_eq_false_iff.mp (Bool.eq_false_iff.mpr fresh)
      simp only [fresh]
      have inside : s.block.txn.isSome := by simpa using inside
      refine exact.append (tracks_of_inside inside stays (fun unset unflagged => ?_) here)
      exact careful ⟨inside, unset, unflagged⟩

omit [External] [TextFunctions] [SqlExecutor] in
theorem readyStatus_eq_iff (block : TxnBlock) :
    block.readyStatus = 'E' ↔ block.txnFailed = true := by
  rw [TxnBlock.readyStatus]
  split_ifs with failed
  · exact iff_of_true rfl failed
  · exact iff_of_false (by decide) failed
  · exact iff_of_false (by decide) failed

/-- What a statement does in the failed state, unless it ends the transaction, is settled by its
text. -/
theorem exists_outcome_of_failed {block : TxnBlock} (inside : block.txn.isSome)
    (failed : block.txnFailed = true)
    {sql : Bytes} (stays : (commandOf (strip sql)).isEnd = false) :
    ∃ outcome, ∀ m here, executeStatementCore ⟨m, block⟩ sql here = (outcome, ⟨m, block⟩) := by
  unfold executeStatementCore executeStatementWithParams
  cases command : commandOf (strip sql) with
  | commit chain | rollback chain =>
    rw [command] at stays
    cases stays
  | empty | set => exact ⟨_, fun _ _ => rfl⟩
  | begin => exact ⟨_, fun _ _ => if_pos inside⟩
  | statement normalized => exact ⟨_, fun _ _ => if_pos failed⟩

/-- In a run of careful statements a session is in the failed state exactly if a transaction is open
and an Error has occurred since it began. Then only the end of the transaction has an effect, and
COMMIT stores nothing. -/
theorem failed_state_exact {m : TransactionManager}
    (run : ReflTransGen (Run.SafeStep Careful next) (initial m) s) :
    (s.block.readyStatus = 'E' ↔ s.block.txn.isSome ∧ ∃ outcome ∈ s.since, outcome.isError) ∧
    (s.block.readyStatus = 'E' → ∀ sql, ((commandOf (strip sql)).isEnd = false →
        ∃ outcome, ∀ m here, executeStatementCore ⟨m, s.block⟩ sql here = (outcome, ⟨m, s.block⟩)) ∧
      ∀ chain, commandOf (strip sql) = .commit chain → ∀ m here,
        (executeStatementCore ⟨m, s.block⟩ sql here).1 = .complete "ROLLBACK" ∧
        Engine.SameData m.db (executeStatementCore ⟨m, s.block⟩ sql here).2.manager.db ∧
        ∀ txn ∈ (executeStatementCore ⟨m, s.block⟩ sql here).2.block.txn,
        txn.writeSet.entries = []) := by
  have exact : s.Exact := Run.invariant run rfl fun exact careful step => exact.next careful step
  have flag : s.block.readyStatus = 'E' ↔ s.block.txn.isSome ∧ ∃ outcome ∈ s.since,
      outcome.isError := by
    rw [readyStatus_eq_iff, exact, Bool.and_eq_true, List.any_eq_true]
  refine ⟨flag, fun failed sql => ?_⟩
  have inside := (flag.mp failed).1
  rw [readyStatus_eq_iff] at failed
  refine ⟨exists_outcome_of_failed inside failed, fun chain command m here => ?_⟩
  obtain ⟨txn, opened⟩ := Option.isSome_iff_exists.mp inside
  have answered : executeStatementCore ⟨m, s.block⟩ sql here =
      (.complete "ROLLBACK", .chained chain ⟨(m.abort txn).2, .idle⟩) := by
    rw [executeStatementCore, executeStatementWithParams, command]
    dsimp only
    rw [executeCommit, opened]
    dsimp only
    rw [if_pos failed]
  rw [answered]
  have released : Engine.SameData m.db (m.abort txn).2.db :=
    Engine.sameData_unregisterSnapshot m.db txn.readSeq
  cases chain with
  | false => exact ⟨rfl, released, by rintro _ ⟨⟩⟩
  | true =>
    refine ⟨rfl, released.trans ⟨rfl, rfl, rfl, rfl, rfl⟩, ?_⟩
    rintro begun ⟨⟩
    rfl

end Observed

end

section

open Reference

/-- A SELECT of too many rows is answered with an Error, and the transaction goes on. -/
theorem refused_select_not_flagged : letI := asciiText
    letI := emptyExecutor
    ∃ db s, Engine.openDb .empty = .ok db ∧
      ReflTransGen (Run.Step Observed.next) (.initial (.new db [] "30s")) s ∧ s.block.txn.isSome ∧
      (∃ outcome ∈ s.since, outcome.isError) ∧ s.block.readyStatus = 'T' := by
  let _ := asciiText
  let _ := emptyExecutor
  exact ⟨_, _, rfl, Run.step_get [.statement (.ofString "BEGIN") now,
    .statement (.ofString "SELECT * LIMIT 20000") now] (by decide +kernel), by decide +kernel,
      by decide +kernel, by decide +kernel⟩

/-- A query of a table that does not exist fails the transaction. -/
theorem missing_table_flagged : letI := asciiText
    letI := emptyExecutor
    ∃ db s, Engine.openDb .empty = .ok db ∧
      ReflTransGen (Run.SafeStep Observed.Careful Observed.next) (.initial (.new db [] "30s")) s ∧
      s.block.readyStatus = 'E' := by
  let _ := asciiText
  let _ := emptyExecutor
  let query := Bytes.ofString "SELECT id FROM t"
  have outcome : ∃ db, Engine.openDb .empty = .ok db ∧
      ∃ s₁, Observed.next (.initial (.new db [] "30s")) (.statement (.ofString "BEGIN") now) =
      some s₁ ∧
        ∃ s, Observed.next s₁ (.statement query now) = some s ∧
          s.block.txn.isSome ∧ s.since.any StepOutcome.isError := by
    decide +kernel
  obtain ⟨db, start, s₁, first, s, second, inside, failed⟩ := outcome
  have accepted : ∃ stmt, parseSql (strip query) = .ok stmt := by decide +kernel
  have careful : s₁.Careful (.statement query now) := by
    rintro ⟨-, -, ⟨err, rejected⟩, -⟩
    obtain ⟨stmt, accepted⟩ := accepted
    cases rejected.symm.trans accepted
  have outside : (Observed.initial (.new db [] "30s")).Careful
      (.statement (.ofString "BEGIN") now) :=
    fun inside => Bool.false_ne_true inside.1
  have run : ReflTransGen (Run.SafeStep Observed.Careful Observed.next)
      (.initial (.new db [] "30s")) s :=
    .tail (.single ⟨_, outside, first⟩) ⟨_, careful, second⟩
  exact ⟨db, s, start, run, (Observed.failed_state_exact run).1.mpr ⟨inside,
    List.any_eq_true.mp failed⟩⟩

end

end OmniKV.Wire
