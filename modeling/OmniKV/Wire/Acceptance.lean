import OmniKV.Wire.Dispatch
import OmniKV.Wire.Protocol

/-!
# Texts that Parse accepts

Parse and Execute each decide by themselves what a text is. Parse compares the whole normalized text
with `SET` and the shortcuts, Execute the one without `AND [NO] CHAIN`; and Parse asks whether the
normalized text is empty, Execute whether the trimmed one is.
-/

namespace OmniKV.Wire

open Sql Parse KvQuery List

section

variable [TextFunctions]

theorem normalize_strip (keeps : UpperKeepsWords) {sql : Bytes} :
    normalize (strip sql) = [] ↔ strip sql = [] := by
  rw [normalize]
  constructor
  · intro empty
    by_contra nonempty
    refine join_words_ne_nil ?_ empty
    rw [keeps]
    exact mt map_eq_nil_iff.mp (words_strip nonempty)
  · intro empty
    rw [keeps, empty]
    rfl

end

section

/-- No command that ends a transaction begins with an `S`. -/
theorem stripChain_eq {text : Bytes} (begins : text.head? = some 83) :
    stripChain text = (text, false) := by
  obtain ⟨rest, rfl⟩ := head?_eq_some_iff.mp begins
  rw [stripChain, if_neg]
  have other : ∀ word ∈ ["COMMIT", "END", "ROLLBACK", "ABORT"], (Bytes.ofString word).head? ≠
    some 83 := by decide
  intro ends
  obtain ⟨word, member, same⟩ := any_eq_true.mp ends
  have same : (83 :: rest).takeWhile (· ≠ 32) = Bytes.ofString word := of_decide_eq_true same
  refine other word member ?_
  rw [← same]
  rfl

theorem stripChain_le (text : Bytes) : (stripChain text).1 <+: text := by
  rw [stripChain]
  split_ifs
  · split
    all_goals first | exact ⟨_, isSuffixOf?_eq_some_iff_append_eq.mp
      ‹_ = some _›⟩ | exact prefix_rfl
  · exact prefix_rfl

/-- `SET` and the shortcuts are found in a text with and without `AND [NO] CHAIN`. -/
theorem starts_stripChain {single longer : String} (first : (Bytes.ofString single).head? = some 83)
    (second : (Bytes.ofString longer).head? = some 83) (text : Bytes) :
    (isToken (stripChain text).1 single || startsWith (stripChain text).1 longer) =
      (isToken text single || startsWith text longer) := by
  have begins (text : Bytes) (starts : (isToken text single || startsWith text longer) = true) :
      text.head? = some 83 := by
    obtain same | starts := (Bool.or_eq_true _ _).mp starts
    · rw [of_decide_eq_true same, first]
    · obtain ⟨rest, rfl⟩ := isPrefixOf_iff_prefix.mp starts
      rw [head?_append, second]
      rfl
  by_cases here : text.head? = some 83
  · rw [stripChain_eq here]
  · rw [Bool.eq_false_iff.mpr fun starts => here (begins text starts), Bool.eq_false_iff]
    intro starts
    obtain ⟨rest, stripped⟩ := head?_eq_some_iff.mp (begins _ starts)
    obtain ⟨tail, rfl⟩ := stripped ▸ stripChain_le text
    exact here rfl

variable [TextFunctions]

theorem statementIsAcceptedByCore_eq (keeps : UpperKeepsWords) (sql : Bytes) :
    statementIsAcceptedByCore (strip sql) = match commandOf (strip sql) with
      | .statement text =>
        isShortcut text || (parseSql (strip sql)).toOption.isSome ||
        (parseQuery (strip sql)).toOption.isSome
      | _ => true := by
  have empty : (normalize (strip sql)).isEmpty = decide (strip sql = []) := by
    rw [Bool.eq_iff_iff, List.isEmpty_iff, normalize_strip keeps, decide_eq_true_iff]
  have shortcut : isShortcut (normalize (strip sql)) = isShortcut
      (stripChain (normalize (strip sql))).1 :=
    (starts_stripChain rfl rfl _).symm
  rw [statementIsAcceptedByCore, commandOf, shortcut, ← starts_stripChain rfl rfl]
  generalize stripChain (normalize (strip sql)) = stripped
  -- The commands of Parse are those of Execute, one after the other.
  simp only [any_cons, any_nil, Bool.or_false]
  split_ifs
  all_goals grind

end

/-- An answer with SQLSTATE 42601. -/
@[simp] def SyntaxError : StepOutcome → Prop
  | .error code _ => code = "42601"
  | _ => False

section

variable [External]

section

variable (w : WireState) (here : Circumstances)

theorem not_syntaxError_executeCommit (chain : Bool) :
    ¬SyntaxError (executeCommit w chain here).1 := by
  unfold executeCommit
  split
  · split_ifs
    · simp
    · split <;> simp
  · split_ifs <;> simp

theorem not_syntaxError_executeKvSet (key value : Bytes) (tag failure : String) :
    ¬SyntaxError (executeKvSet w key value tag failure here).1 := by
  unfold executeKvSet answerKvWrite
  split
  · simp
  · split <;> simp

theorem not_syntaxError_executeParsedKvQuery (query : KvQuery.Query) :
    ¬SyntaxError (executeParsedKvQuery w query here).1 := by
  unfold executeParsedKvQuery
  dsimp only
  split
  · split <;> simp
  · simp
  · exact not_syntaxError_executeKvSet w here _ _ _ _
  · exact not_syntaxError_executeKvSet w here _ _ _ _
  · split_ifs
    · simp
    · unfold answerKvWrite
      split <;> simp

theorem not_syntaxError_runLimited [SqlExecutor] (stmt : SqlStatement) :
    ¬SyntaxError (runLimited w stmt here).1 := by
  unfold runLimited
  split
  · simp
  · unfold runStatement
    dsimp only
    split
    · unfold outcomeOf
      split <;> simp
    · rw [SyntaxError, sqlstateForExecError]
      split_ifs <;> decide

end

variable [TextFunctions] [SqlExecutor]

/-- Parse accepts a text if and only if Execute has no syntax error, outside failed transactions. -/
theorem accepted_iff_not_syntaxError (keeps : UpperKeepsWords) (sql : Bytes) {w : WireState}
    (ready : w.block.txnFailed = false) (here : Circumstances) :
    statementIsAcceptedByCore (strip sql) = true ↔ ¬SyntaxError
      (executeStatementCore w sql here).1 := by
  rw [statementIsAcceptedByCore_eq keeps, executeStatementCore, executeStatementWithParams]
  cases commandOf (strip sql) with
  | empty | set => simp
  | begin =>
    dsimp only [executeBegin]
    split_ifs <;> simp
  | commit chain => exact iff_of_true rfl (not_syntaxError_executeCommit w here chain)
  | rollback chain =>
    dsimp only [executeRollback]
    split
    · simp
    · split_ifs <;> simp
  | statement text =>
    dsimp only
    rw [executeNonTransactionalStatement, ready, if_neg Bool.false_ne_true]
    split_ifs with shortcut
    · simp [shortcut, versionRows]
    · cases parseSql (strip sql) with
      | ok stmt =>
        dsimp only
        split
        · simp [Except.toOption]
        · exact iff_of_true (by simp [Except.toOption]) (not_syntaxError_runLimited w here _)
      | error message =>
        dsimp only [executeLegacyStatement]
        cases parseQuery (strip sql) with
        | ok query =>
          exact iff_of_true (by simp [Except.toOption])
            (not_syntaxError_executeParsedKvQuery w here query)
        | error message => simp [Except.toOption, shortcut]

end

section

open Reference

/-- A text that neither grammar reads is rejected by Parse. -/
theorem unreadable_text_not_accepted :
    letI := asciiText
    letI := Sample.emptyExecutor
    let sql := Bytes.ofString "BEGIN AND CHAIN;"
    ∃ db, Engine.openDb .empty = .ok db ∧
      SyntaxError (executeStatementCore (Sample.connection db) sql Sample.now).1 ∧
      statementIsAcceptedByCore (strip sql) = false := by
  let _ := asciiText
  let _ := Sample.emptyExecutor
  let sql := Bytes.ofString "BEGIN AND CHAIN;"
  obtain ⟨db, start⟩ : ∃ db, Engine.openDb .empty = .ok db := by decide +kernel
  have rejected : statementIsAcceptedByCore (strip sql) = false := by decide +kernel
  have agrees := accepted_iff_not_syntaxError upperKeepsWords_asciiText sql
    (w := Sample.connection db) rfl Sample.now
  rw [rejected] at agrees
  exact ⟨db, start, not_not.mp fun fine => Bool.false_ne_true (agrees.mpr fine), rejected⟩

end

end OmniKV.Wire
