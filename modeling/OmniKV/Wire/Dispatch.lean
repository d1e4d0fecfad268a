import OmniKV.Wire.Session

/-!
# What a statement means on the wire

A text that the SQL grammar accepts is run with the SQL executor, unless it looks like one of the
shortcuts. A text that the SQL grammar rejects is read with the legacy grammar.
-/

namespace OmniKV.Wire

open Sql Parse KvQuery List
open Bytes (ofString)
open Engine

section

variable [TextFunctions]

theorem parseSql_strip {sql : Bytes} (once : tokenize (strip (strip sql)) = tokenize (strip sql)) :
    parseSql (strip sql) = parseSql sql := by
  rw [parseSql, parseSql, once]

/-- The commands of transaction blocks, and `SET`. -/
def Command.isControl : Command → Bool
  | .empty => false
  | .statement _ => false
  | _ => true

def shortcutText (sql : Bytes) : Bytes := (stripChain (normalize (strip sql))).1

theorem commandOf_of_accepted {sql : Bytes} {stmt : SqlStatement}
    (accepted : parseSql sql = .ok stmt)
    (free : (commandOf (strip sql)).isControl = false) :
    commandOf (strip sql) = .statement (shortcutText sql) := by
  have nonempty : strip sql ≠ [] := by
    intro empty
    rw [parseSql, empty] at accepted
    cases accepted
  rw [commandOf] at free ⊢
  rw [shortcutText]
  generalize stripChain (normalize (strip sql)) = cleaned at free ⊢
  dsimp only at free ⊢
  rw [if_neg nonempty] at free ⊢
  split_ifs at free ⊢
  all_goals first | rfl | cases free

end

variable (w : WireState)

section

variable [External]

@[reducible] def constantExecutor (result : Except String ExecResult) : SqlExecutor :=
  ⟨fun _ _ => .done ⟨result, [], [], .new⟩⟩

theorem runLimited_failing (stmt : SqlStatement) (here : Circumstances) :
    ∃ code message, (@runLimited _ (constantExecutor (.error "")) w stmt here).1 =
      .error code message := by
  unfold runLimited
  split
  · exact ⟨_, _, rfl⟩
  · exact ⟨_, _, rfl⟩

theorem runLimited_succeeding (stmt : SqlStatement) (here : Circumstances) (message : String) :
    (@runLimited _ (constantExecutor (.ok (.ok ""))) w stmt here).1 ≠ .error "08P01" message := by
  unfold runLimited
  split
  · exact fun same => absurd (StepOutcome.error.inj same).1 (by decide)
  · exact nofun

variable [TextFunctions]

/-- An accepted statement that is no shortcut is bound to no parameters and run. -/
def runBound [SqlExecutor] (w : WireState) (stmt : SqlStatement) (here : Circumstances) :
    StepOutcome × WireState :=
  match bindStatementParams stmt [] with
  | .error message => (.error "08P01" message, w.fail)
  | .ok stmt => runLimited w stmt here

variable {sql : Bytes} {stmt : SqlStatement} (accepted : parseSql sql = .ok stmt)
  (free : (commandOf (strip sql)).isControl = false)
  (trimmed : parseSql (strip sql) = parseSql sql) {w} (ready : w.block.txnFailed = false)

include accepted free trimmed ready

theorem executeStatementCore_eq [SqlExecutor] (here : Circumstances) :
    executeStatementCore w sql here =
      if isShortcut (shortcutText sql) then (versionRows, w) else runBound w stmt here := by
  rw [executeStatementCore, executeStatementWithParams, commandOf_of_accepted accepted free]
  dsimp only
  rw [executeNonTransactionalStatement, ready, trimmed, accepted]
  rfl

/-- An accepted statement means on the wire what it means to the executor if and only if it is no
shortcut and has no placeholders. -/
theorem wire_runs_accepted_statement :
    (∀ (_ : SqlExecutor) here, executeStatementCore w sql here = runLimited w stmt here) ↔
      isShortcut (shortcutText sql) = false ∧ bindStatementParams stmt [] = .ok stmt := by
  have dispatched [SqlExecutor] (here : Circumstances) :=
    executeStatementCore_eq accepted free trimmed ready here
  constructor
  · intro runs
    have plain : isShortcut (shortcutText sql) = false := by
      rw [Bool.eq_false_iff]
      intro shortcut
      have answered := congrArg Prod.fst (runs (constantExecutor (.error "")) ⟨0, false, none⟩)
      obtain ⟨code, message, failed⟩ := runLimited_failing w stmt ⟨0, false, none⟩
      rw [@dispatched (constantExecutor _), if_pos shortcut, failed] at answered
      cases answered
    refine ⟨plain, ?_⟩
    have answered := congrArg Prod.fst (runs (constantExecutor (.ok (.ok ""))) ⟨0, false, none⟩)
    rw [@dispatched (constantExecutor _), plain, if_neg Bool.false_ne_true] at answered
    unfold runBound at answered
    cases bound : bindStatementParams stmt [] with
    | error message =>
      rw [bound] at answered
      exact absurd answered.symm (runLimited_succeeding w stmt _ message)
    | ok stmt' => rw [bindStatementParams_nil bound]
  · rintro ⟨plain, bound⟩ _ here
    rw [dispatched, plain, if_neg Bool.false_ne_true, runBound, bound]

end

section

open Reference

namespace Sample

def queryOf : SqlStatement → Option (Sql.Query 1)
  | .select [.named column] (.table table) none [] none [] _ none =>
    some ⟨[.named column], table, none⟩
  | _ => none

@[reducible] def emptyExecutor [TextFunctions] : SqlExecutor :=
  ⟨fun _ stmt =>
    match (queryOf stmt).map fun query => runQuery 1 query ⟨.empty, .empty, none⟩ with
    | some (.ok result _) => .done ⟨.ok result, [], [], .new⟩
    | some (.error message _) => .done ⟨.error message, [], [], .new⟩
    | none => .done ⟨.error "Unsupported", [], [], .new⟩⟩

def connection (db : Engine) : WireState := ⟨.new db [] "30s", .idle⟩

def now : Circumstances := ⟨0, false, none⟩

end Sample

open Sample

/-- A query of a column `version` is answered with the version of the server. -/
theorem version_query_answered_by_shortcut :
    letI := asciiText
    letI := emptyExecutor
    let sql := ofString "SELECT version FROM t"
    ∃ db stmt, openDb .empty = .ok db ∧ parseSql sql = .ok stmt ∧
      (commandOf (strip sql)).isControl = false ∧ parseSql (strip sql) = parseSql sql ∧
      bindStatementParams stmt [] = .ok stmt ∧
      (executeStatementCore (connection db) sql now).1 = versionRows ∧
      (runLimited (connection db) stmt now).1 =
        .error "42P01" "Exec error: Table 't' does not exist" := by
  let _ := asciiText
  let _ := emptyExecutor
  let sql := ofString "SELECT version FROM t"
  have outcome : ∃ db, openDb .empty = .ok db ∧ ∃ stmt, parseSql sql = .ok stmt ∧
      (∃ bound, bindStatementParams stmt [] = .ok bound) ∧
      (executeStatementCore (connection db) sql now).1 = versionRows ∧
      (runLimited (connection db) stmt now).1 =
        .error "42P01" "Exec error: Table 't' does not exist" := by
    decide +kernel
  obtain ⟨db, start, stmt, parsed, ⟨bound, binds⟩, shortcut, executed⟩ := outcome
  obtain rfl := bindStatementParams_nil binds
  exact ⟨db, _, start, parsed, by decide +kernel, parseSql_strip (by decide +kernel), binds,
    shortcut, executed⟩

/-- A query of another column is run by the executor. -/
theorem column_query_answered_by_executor :
    letI := asciiText
    letI := emptyExecutor
    let sql := ofString "SELECT id FROM t"
    ∃ db stmt, openDb .empty = .ok db ∧ parseSql sql = .ok stmt ∧
      executeStatementCore (connection db) sql now = runLimited (connection db)
      stmt now := by
  let _ := asciiText
  let _ := emptyExecutor
  let sql := ofString "SELECT id FROM t"
  have outcome : ∃ db, openDb .empty = .ok db ∧ ∃ stmt, parseSql sql = .ok stmt ∧
      ∃ bound, bindStatementParams stmt [] = .ok bound := by
    decide +kernel
  obtain ⟨db, start, stmt, accepted, bound, binds⟩ := outcome
  obtain rfl := bindStatementParams_nil binds
  refine ⟨db, _, start, accepted, ?_⟩
  exact (wire_runs_accepted_statement accepted (by decide +kernel)
    (parseSql_strip (by decide +kernel)) rfl).mpr ⟨by decide +kernel, binds⟩ _ now

end

section

variable [TextFunctions]

/-- Upper case changes each word of a text by itself. -/
def UpperKeepsWords : Prop :=
  ∀ text, words (TextFunctions.upper text) = (words text).map TextFunctions.upper

/-- A SELECT of the legacy grammar with nothing left over. -/
def LegacyForm (words : List Bytes) : Prop := ∃ query, parseSelectForm words = .ok (query, [])

/-- The words of an INSERT, DELETE or UPDATE with a table, or of a SELECT that is not legacy. -/
def SqlShaped (words : List Bytes) : Prop :=
  nextWord words "INSERT" ∧ nextWord words.tail "INTO" ∨ nextWord words "DELETE" ∧
    nextWord words.tail "FROM" ∨
    nextWord words "UPDATE" ∧ ¬nextWord words.tail "SET" ∨ nextWord words "SELECT" ∧
    ¬LegacyForm words

theorem nextWord_unique {words : List Bytes} {a b : String} (first : nextWord words a)
    (second : nextWord words b) : ofString a = ofString b := by
  cases words with
  | nil => cases first
  | cons word rest =>
    have first : TextFunctions.upper word = .ofString a := of_decide_eq_true first
    have second : TextFunctions.upper word = .ofString b := of_decide_eq_true second
    exact first.symm.trans second

def statementWords : List String := ["INSERT", "DELETE", "UPDATE", "SELECT"]

theorem SqlShaped.first {words : List Bytes} (shaped : SqlShaped words) :
    ∃ word ∈ statementWords, nextWord words word := by
  obtain ⟨first, _⟩ | ⟨first, _⟩ | ⟨first, _⟩ | ⟨first, _⟩ := shaped
  all_goals exact ⟨_, by decide, first⟩

theorem exists_normalize (keeps : UpperKeepsWords) {text : Bytes} {word : String}
    (first : nextWord (words text) word) :
    ∃ rest, normalize text = ofString word ++ rest ∧ (rest = [] ∨ rest.head? = some 32) := by
  rw [normalize, keeps]
  cases split : words text with
  | nil =>
    rw [split] at first
    cases first
  | cons head tail =>
    rw [split] at first
    have upper : TextFunctions.upper head = .ofString word := of_decide_eq_true first
    rw [map_cons, upper, join]
    cases tail with
    | nil => exact ⟨[], by simp, .inl rfl⟩
    | cons next tail =>
      refine ⟨32 :: join ((next :: tail).map TextFunctions.upper), ?_, .inr rfl⟩
      rfl

omit [TextFunctions] in
theorem stripChain_statement {word : String} (listed : word ∈ statementWords) {rest : Bytes}
    (border : rest = [] ∨ rest.head? = some 32) :
    stripChain (ofString word ++ rest) = (ofString word ++ rest, false) := by
  have solid : ∀ word ∈ statementWords, ∀ b ∈ ofString word, decide (b ≠ 32) = true := by
    decide +kernel
  have other : ∀ word ∈ statementWords, ["COMMIT", "END", "ROLLBACK", "ABORT"].any
      (isToken (.ofString word) ·) = false := by
    decide
  have stop : rest.takeWhile (· ≠ 32) = [] := by
    obtain rfl | border := border
    · rfl
    · obtain ⟨tail, rfl⟩ := head?_eq_some_iff.mp border
      rfl
  have head : (ofString word ++ rest).takeWhile (· ≠ 32) = ofString word := by
    rw [takeWhile_append_of_pos (solid word listed), stop, append_nil]
  rw [stripChain, head, other word listed]
  rfl

omit [TextFunctions] in
theorem isToken_statement {word : String} {rest : Bytes} {names : List String}
    (apart : ∀ name ∈ names, ¬ofString word <+: ofString name) :
    names.any (isToken (ofString word ++ rest) ·) = false := by
  rw [any_eq_false]
  intro name member same
  exact apart name member ⟨rest, of_decide_eq_true same⟩

theorem commandOf_of_shaped (keeps : UpperKeepsWords) {sql : Bytes}
    (shaped : SqlShaped (words (strip sql))) :
    commandOf (strip sql) = .statement (shortcutText sql) := by
  obtain ⟨word, listed, first⟩ := shaped.first
  have nonempty : strip sql ≠ [] := by
    intro empty
    rw [empty] at first
    cases first
  obtain ⟨rest, normalized, border⟩ := exists_normalize keeps first
  have cleaned := stripChain_statement listed border
  have apart (names : List String)
      (apart : ∀ word ∈ statementWords, ∀ name ∈ names, ¬ofString word <+: ofString name) :
      names.any (isToken (ofString word ++ rest) ·) = false := isToken_statement (apart word listed)
  have set : startsWith (ofString word ++ rest) "SET " = false := by
    have apart : ∀ word ∈ statementWords, ¬ofString "SET " <+: ofString word ∧
        ¬ofString word <+: ofString "SET " := by decide
    rw [Bool.eq_false_iff]
    intro begins
    obtain h | h := prefix_or_prefix_of_prefix (List.isPrefixOf_iff_prefix.mp begins)
      (prefix_append _ rest)
    · exact (apart word listed).1 h
    · exact (apart word listed).2 h
  have single : isToken (ofString word ++ rest) "SET" = false := by
    simpa using apart ["SET"] (by decide)
  rw [shortcutText, commandOf, normalized, cleaned]
  dsimp only
  rw [if_neg nonempty, single, set, apart _ (by decide), apart _ (by decide), apart _ (by decide)]
  rfl

theorem action_of_parseSelect {words : List Bytes} {query : KvQuery.Query}
    (parsed : parseSelect words = .ok query) :
    query.action = .selectAll ∨ query.action = .selectCount := by
  obtain ⟨form, formed, rfl⟩ := Except.map_eq_ok parsed
  obtain ⟨target, -, formed⟩ := Except.bind_eq_ok formed
  obtain ⟨action, read, formed⟩ := Except.bind_eq_ok formed
  obtain ⟨conditions, -, formed⟩ := Except.bind_eq_ok formed
  obtain ⟨order, -, formed⟩ := Except.bind_eq_ok formed
  obtain ⟨limit, -, formed⟩ := Except.bind_eq_ok formed
  cases formed
  rw [parseTarget] at read
  split_ifs at read
  · exact .inl (Except.ok.inj read).symm
  · exact .inr (Except.ok.inj read).symm

/-- The legacy grammar knows no table in a DELETE. -/
theorem parseDelete_of_from {words : List Bytes} (second : nextWord words.tail "FROM")
    (query : KvQuery.Query) : parseDelete words ≠ .ok query := by
  intro parsed
  obtain ⟨rest, expected, -⟩ := Except.bind_eq_ok parsed
  rw [expectWord] at expected
  split_ifs at expected with other
  exact absurd (nextWord_unique second other) (by decide)

theorem parseUpdate_of_table {words : List Bytes} (second : ¬nextWord words.tail "SET")
    (query : KvQuery.Query) : parseUpdate words ≠ .ok query := by
  intro parsed
  rw [parseUpdate, drop_one, Bool.eq_false_iff.mpr second, Bool.false_and, Bool.false_and,
    Bool.not_false, if_pos rfl] at parsed
  split_ifs at parsed

/-- What the legacy grammar makes of the texts of statements. -/
theorem action_of_parseQuery {text : Bytes} {query : KvQuery.Query}
    (shaped : SqlShaped (words text)) (parsed : parseQuery text = .ok query) :
    (∃ key value, query.action = .insert key value) ∨ query.action = .selectAll ∨
      query.action = .selectCount := by
  rw [parseQuery] at parsed
  generalize words text = tokens at shaped parsed
  cases tokens with
  | nil => cases parsed
  | cons word rest =>
    have clash {a b : String} (first : nextWord (word :: rest) a) (second : isWord word b)
        (apart : ofString a ≠ ofString b) : False := apart (nextWord_unique first second)
    dsimp only at parsed
    split_ifs at parsed with select delete insert update
    · exact .inr (action_of_parseSelect parsed)
    · obtain ⟨first, _⟩ | ⟨_, second⟩ | ⟨first, _⟩ | ⟨first, _⟩ := shaped
      · exact (clash first delete (by decide)).elim
      · exact absurd parsed (parseDelete_of_from second query)
      · exact (clash first delete (by decide)).elim
      · exact absurd first select
    · match rest, parsed with
      | key :: value :: rest, parsed =>
        exact .inl ⟨key, _, congrArg KvQuery.Query.action (Except.ok.inj parsed).symm⟩
    · obtain ⟨first, _⟩ | ⟨first, _⟩ | ⟨_, second⟩ | ⟨first, _⟩ := shaped
      · exact absurd first insert
      · exact absurd first delete
      · exact absurd parsed (parseUpdate_of_table second query)
      · exact absurd first select

end

section

variable [External]

/-- An Error outcome that leaves what is stored and the writes of the transaction as they were. -/
structure NoEffect (w : WireState) (answer : StepOutcome × WireState) : Prop where
  failed : ∃ code message, answer.1 = .error code message
  roots : answer.2.manager.db.roots = w.manager.db.roots
  writes : answer.2.block.txn.map Transaction.writeSet = w.block.txn.map Transaction.writeSet

/-- A batch that is committed at once is refused. -/
def Unwritable (here : Circumstances) : Prop :=
  w.block.txn = none ∧ (w.manager.db.l0WriteStallThreshold ≤ w.manager.db.roots.sstables.length ∨
    here.fault.isSome)

/-- A legacy query that asks for too many rows, or sets a value that is too large. -/
def Oversized (query : KvQuery.Query) : Prop :=
  match query.action with
  | .selectAll => ∃ limit, query.limit = some limit ∧ maxResultRows < limit
  | .insert _ value => maxValueSize < value.length
  | .update _ value => maxValueSize < value.length
  | _ => False

/-- A SELECT or an INSERT of the legacy grammar that is answered with an error. -/
def Refused (here : Circumstances) (query : KvQuery.Query) : Prop :=
  Oversized query ∨ (∃ key value, query.action = .insert key value) ∧ Unwritable w here

theorem roots_commitBatchLocalLocked {e : Engine} {batch : WriteBatch} {fault : Option CommitFault}
    {err : OmniError} (failed : (e.commitBatchLocalLocked batch fault).1 = .error err) :
    (e.commitBatchLocalLocked batch fault).2.roots = e.roots := by
  unfold commitBatchLocalLocked at failed ⊢
  generalize e.commitBatchLocal batch = stored at failed ⊢
  cases stored with
  | error err => rfl
  | ok done =>
    cases fault with
    | none => cases failed
    | some fault => rfl

omit [External] in
theorem not_noEffect {w : WireState} {answer : StepOutcome × WireState}
    (other : ∀ code message, answer.1 ≠ .error code message) : ¬NoEffect w answer := by
  rintro ⟨⟨code, message, same⟩, -, -⟩
  exact other code message same

omit [External] in
theorem boundedPgwireQueryLimit_eq_error {limit : Option ℕ} :
    (∃ message, boundedPgwireQueryLimit limit = .error message) ↔ ∃ n, limit = some n ∧
      maxResultRows < n := by
  cases limit with
  | none => exact iff_of_false nofun nofun
  | some n =>
    rw [boundedPgwireQueryLimit]
    split_ifs with large
    · exact iff_of_true ⟨_, rfl⟩ ⟨n, rfl, large⟩
    · refine iff_of_false nofun ?_
      rintro ⟨_, ⟨⟩, more⟩
      exact large more

theorem noEffect_executeKvSet (key value : Bytes) (tag failure : String) (here : Circumstances) :
    NoEffect w (executeKvSet w key value tag failure here) ↔ maxValueSize < value.length ∨
      Unwritable w here := by
  have room : ¬WriteBatch.new.opCount ≥ maxBatchSize := by decide
  by_cases large : value.length > maxValueSize
  · rw [executeKvSet, WriteBatch.set, WriteBatch.setWithExpiry, dif_neg room, dif_pos large]
    exact iff_of_true ⟨⟨_, _, rfl⟩, rfl, rfl⟩ (.inl large)
  obtain ⟨batch, built⟩ : ∃ batch, WriteBatch.new.set key value = .ok batch := by
    rw [WriteBatch.set, WriteBatch.setWithExpiry, dif_neg room, dif_neg large]
    exact ⟨_, rfl⟩
  rw [or_iff_right large, executeKvSet, built, Unwritable]
  obtain ⟨m, txn, txnFailed⟩ := w
  cases txn with
  | some txn => exact iff_of_false (not_noEffect (by rintro _ _ ⟨⟩)) (by simp)
  | none =>
    rw [and_iff_right rfl, ← Server.error_of_commitBatchLocalLocked m.db batch]
    have kept (err : OmniError) (failed : (m.db.commitBatchLocalLocked batch here.fault).1 =
        .error err) :=
      roots_commitBatchLocalLocked failed
    dsimp only [answerKvWrite, stageKvWrite, TransactionManager.commitDirectly]
    cases done : m.db.commitBatchLocalLocked batch here.fault with
    | mk seq db =>
      rw [done] at kept
      cases seq with
      | ok seq => exact iff_of_false (not_noEffect (by rintro _ _ ⟨⟩)) (by simp)
      | error err => exact iff_of_true ⟨⟨_, _, rfl⟩, kept err rfl, rfl⟩ ⟨err, rfl⟩

theorem roots_overlayKvScan (start stop : Bytes) (here : Circumstances) :
    (overlayKvScan w start stop here).2.manager.db.roots = w.manager.db.roots :=
  (sameData_scanLoop here.now _ w.manager.db).roots

theorem writes_overlayKvScan (start stop : Bytes) (here : Circumstances) :
    (overlayKvScan w start stop here).2.block.txn.map Transaction.writeSet = w.block.txn.map
      Transaction.writeSet :=
  Option.map_map ..

theorem noEffect_executeParsedKvQuery {w : WireState} {here : Circumstances} {query : KvQuery.Query}
    (read : (∃ key value, query.action = .insert key value) ∨ query.action = .selectAll ∨
    query.action = .selectCount) :
    NoEffect w (executeParsedKvQuery w query here) ↔ Refused w here query := by
  unfold executeParsedKvQuery Refused Oversized
  generalize buildScanRange query.conditions = range
  obtain ⟨start, stop⟩ := range
  have roots := roots_overlayKvScan w start stop here
  have writes := writes_overlayKvScan w start stop here
  obtain ⟨key, value, action⟩ | action | action := read
  · simp only [action]
    rw [noEffect_executeKvSet, and_iff_right ⟨key, value, rfl⟩]
  · simp only [action, reduceCtorEq, exists_false, false_and, or_false]
    generalize overlayKvScan w start stop here = scanned at roots writes
    rw [← boundedPgwireQueryLimit_eq_error]
    cases boundedPgwireQueryLimit query.limit with
    | error message => exact iff_of_true ⟨⟨_, _, rfl⟩, roots, writes⟩ ⟨message, rfl⟩
    | ok limit => exact iff_of_false (not_noEffect nofun) nofun
  · simp only [action, reduceCtorEq, exists_false, false_and, or_false, iff_false]
    exact not_noEffect nofun

variable [TextFunctions] [SqlExecutor]

/-- A rejected statement has no effect if and only if it comes after an error in the transaction
block, or is no shortcut and the legacy grammar rejects or refuses it too. -/
theorem rejected_statement_has_no_effect (keeps : UpperKeepsWords) {sql : Bytes} {err : String}
    (shaped : SqlShaped (words (strip sql))) (rejected : parseSql sql = .error err)
    (trimmed : parseSql (strip sql) = parseSql sql)
    (w : WireState) (here : Circumstances) : NoEffect w (executeStatementCore w sql here) ↔
      w.block.txnFailed = true ∨ isShortcut (shortcutText sql) = false ∧
        ∀ query, parseQuery (strip sql) = .ok query → Refused w here query := by
  rw [executeStatementCore, executeStatementWithParams, commandOf_of_shaped keeps shaped]
  dsimp only
  rw [executeNonTransactionalStatement, trimmed, rejected]
  split_ifs with failed shortcut
  · exact iff_of_true ⟨⟨_, _, rfl⟩, rfl, rfl⟩ (.inl failed)
  · refine iff_of_false (fun none => ?_) ?_
    · obtain ⟨code, message, same⟩ := none.failed
      cases same
    · rintro (failed' | ⟨plain, _⟩)
      · exact failed failed'
      · rw [shortcut] at plain
        cases plain
  · rw [or_iff_right failed, and_iff_right (Bool.eq_false_iff.mpr shortcut), executeLegacyStatement]
    cases parsed : parseQuery (strip sql) with
    | error message => exact iff_of_true ⟨⟨_, _, rfl⟩, rfl, rfl⟩ nofun
    | ok query =>
      have same : NoEffect w (executeParsedKvQuery w query here) ↔ Refused w here query :=
        noEffect_executeParsedKvQuery (action_of_parseQuery shaped parsed)
      exact same.trans ⟨fun refused _ eq => Except.ok.inj eq ▸ refused,
        fun refused => refused query rfl⟩

end

section

open Reference Sample

theorem upperKeepsWords_asciiText : @UpperKeepsWords asciiText := words_asciiUpper

def Sample.misspelt : Bytes := .ofString "INSERT INTO t VALUE (1)"

/-- An INSERT that is misspelt sets the key `INTO`. -/
theorem misspelt_insert_sets_key : letI := asciiText
    letI := emptyExecutor
    ∃ db err, openDb .empty = .ok db ∧ SqlShaped (words (strip misspelt)) ∧
      parseSql (strip misspelt) = parseSql misspelt ∧
      parseSql misspelt = .error err ∧
      ∃ w, executeStatementCore (connection db) misspelt now =
        (.complete "INSERT 0 1", w) ∧
        w.manager.db.visible (.ofString "INTO") 0 = .ok (some (.ofString "t VALUE (1)")) := by
  let _ := asciiText
  let _ := emptyExecutor
  have outcome : ∃ db, openDb .empty = .ok db ∧
      (executeStatementCore (connection db) misspelt now).1 =
      .complete "INSERT 0 1" ∧
      (executeStatementCore (connection db) misspelt now).2.manager.db.visible
        (.ofString "INTO") 0 = .ok (some (.ofString "t VALUE (1)")) := by
    decide +kernel
  obtain ⟨db, start, complete, stored⟩ := outcome
  have shaped : SqlShaped (words (strip misspelt)) := .inl (by decide +kernel)
  obtain ⟨err, rejected⟩ : ∃ err, parseSql misspelt = .error err := by decide +kernel
  exact ⟨db, err, start, shaped, parseSql_strip (by decide +kernel), rejected, _,
    Prod.ext complete rfl, stored⟩

/-- An UPDATE that sets nothing has no effect. -/
theorem incomplete_update_has_no_effect :
    letI := asciiText
    letI := emptyExecutor
    let sql := ofString "UPDATE t WHERE id = 1"
    ∃ db, openDb .empty = .ok db ∧
      NoEffect (connection db) (executeStatementCore (connection db) sql
      now) := by
  let _ := asciiText
  let _ := emptyExecutor
  let sql := ofString "UPDATE t WHERE id = 1"
  obtain ⟨db, start⟩ : ∃ db, openDb .empty = .ok db := by decide +kernel
  have shaped : SqlShaped (words (strip sql)) := .inr (.inr (.inl (by decide +kernel)))
  obtain ⟨err, rejected⟩ : ∃ err, parseSql sql = .error err := by decide +kernel
  obtain ⟨message, unread⟩ : ∃ message, parseQuery (strip sql) = .error message := by decide +kernel
  refine ⟨db, start, ?_⟩
  refine (rejected_statement_has_no_effect upperKeepsWords_asciiText shaped rejected
    (parseSql_strip (by decide +kernel)) _ _).mpr
    (.inr ⟨by decide +kernel, fun query read => ?_⟩)
  cases read

end

end OmniKV.Wire
