import OmniKV.Query.Reads

/-!
# Reads inside a transaction and after it

Every statement of a transaction runs on an executor that begins with the write set as its staged
writes. A scan inside takes all staged keys behind the prefix of the table, one of committed rows
ends at `\x7F`; and a lookup inside does not go on to staged keys that continue the key.
-/

namespace OmniKV.Sql

open List SortedMap
open EStateM (Agree)
open Sample Session

variable [TextFunctions] {σ : Type}

/-- The writes of a transaction by key; a deleted key has no value. -/
abbrev WriteSet := SortedMap Bytes (Option SqlStored)

section

omit [TextFunctions]

def addWrite (batch : TypedBatch SqlStored) (entry : Bytes × Option SqlStored) :
    Except OmniError (TypedBatch SqlStored) :=
  match entry.2 with
  | some value => batch.set entry.1 value
  | none => batch.delete entry.1

/-- `SqlExecutor::with_transaction` leaves out the writes that do not fit. -/
def seedBatch (writes : WriteSet) : TypedBatch SqlStored :=
  writes.entries.foldl (fun batch entry => (addWrite batch entry).toOption.getD batch) .new

/-- `TransactionManager::build_write_batch` -/
def buildWriteBatch (writes : WriteSet) : Except OmniError (TypedBatch SqlStored) :=
  writes.entries.foldlM addWrite .new

end

variable (db : TypedStore SqlStored)

/-- The executor of a statement inside a transaction. -/
def Session.inTransaction (writes : WriteSet) : Session :=
  ⟨db, loadAll db, some (seedBatch writes)⟩

omit [TextFunctions] in
/-- `merge_staged_writes_into_txn` -/
def mergeStagedWrites (writes : WriteSet) (batch : TypedBatch SqlStored) : WriteSet :=
  batch.deletes.foldl (fun writes key => writes.insert key none)
    (batch.sets.foldl (fun writes entry => writes.insert entry.1 (some entry.2)) writes)

structure OpenTransaction where
  db : TypedStore SqlStored
  writes : WriteSet
  failed : Bool

namespace OpenTransaction

def begin : OpenTransaction := ⟨db, .empty, false⟩

/-- A statement inside the transaction. After an error nothing more is executed. -/
def step {n : ℕ} (t : OpenTransaction) (stmt : Statement (Query n)) : OpenTransaction :=
  if t.failed then t
  else
    match execute (runQuery n) stmt (.inTransaction t.db t.writes) with
    | .ok _ s => ⟨s.db, mergeStagedWrites t.writes (s.pending.getD .new), false⟩
    | .error _ s => ⟨s.db, t.writes, true⟩

def run {n : ℕ} (t : OpenTransaction) (stmts : List (Statement (Query n))) : OpenTransaction :=
  stmts.foldl step t

inductive Answer
  | committed (db : TypedStore SqlStored)
  | rolledBack
  | refused (err : OmniError)
deriving DecidableEq

omit [TextFunctions] in
def commit (t : OpenTransaction) : Answer :=
  if t.failed then .rolledBack
  else if t.writes.entries.isEmpty then .committed t.db
  else
    match buildWriteBatch t.writes with
    | .ok batch => .committed (t.db.commit batch)
    | .error err => .refused err

omit [TextFunctions] in
/-- ROLLBACK: the write set is dropped, the database is as the statements left it. -/
def rollback (t : OpenTransaction) : TypedStore SqlStored := t.db

end OpenTransaction

open OpenTransaction

variable {batch : TypedBatch SqlStored} {writes : WriteSet}

omit [TextFunctions] in
theorem addWrite_eq_ok {batch' : TypedBatch SqlStored} {entry : Bytes × Option SqlStored}
    (done : addWrite batch entry = .ok batch') :
    batch'.sets = batch.sets ++ (entry.2.map (entry.1, ·)).toList ∧
      batch'.deletes = batch.deletes ++ (if entry.2.isNone then [entry.1] else []) := by
  obtain ⟨key, value⟩ := entry
  cases value with
  | none =>
    obtain ⟨sets, deletes⟩ := TypedBatch.delete_eq_ok done
    exact ⟨by simpa using sets, deletes⟩
  | some value =>
    obtain ⟨sets, deletes⟩ := TypedBatch.set_eq_ok done
    exact ⟨sets, by simpa using deletes⟩

omit [TextFunctions] in
/-- If the batch of COMMIT can be built, an executor begins with the whole write set. -/
theorem seedBatch_of_buildWriteBatch (built : buildWriteBatch writes = .ok batch) :
    seedBatch writes = batch := by
  suffices general : ∀ (l : List (Bytes × Option SqlStored)) (start : TypedBatch SqlStored),
      l.foldlM addWrite start = .ok batch →
        l.foldl (fun batch entry => (addWrite batch entry).toOption.getD batch) start = batch from
    general writes.entries .new built
  intro l
  induction l with
  | nil => exact fun start done => Except.ok.inj done
  | cons entry l ih =>
    intro start done
    obtain ⟨next, first, rest⟩ := Except.bind_eq_ok done
    rw [foldl_cons, first]
    exact ih next rest

/-- A write set of definitions and rows. -/
def LawfulWrites (writes : WriteSet) : Prop :=
  ∀ key value, writes.get? key = some (some value) → Lawful key value

theorem LawfulWrites.seedBatch (lawful : LawfulWrites writes) : LawfulBatch (seedBatch writes) := by
  refine List.foldlRecOn (motive := LawfulBatch) writes.entries _ .new
    fun batch safe entry member => ?_
  cases added : addWrite batch entry with
  | error err => exact safe
  | ok batch' =>
    intro key value inside
    change (key, value) ∈ batch'.sets at inside
    rw [(addWrite_eq_ok added).1, mem_append] at inside
    obtain old | new := inside
    · exact safe key value old
    · obtain ⟨v, here, same⟩ := Option.map_eq_some_iff.mp (Option.mem_toList.mp new)
      obtain ⟨rfl, rfl⟩ := Prod.mk.inj same
      exact lawful entry.1 v (get?_eq_some_iff.mpr (here ▸ member))

theorem LawfulWrites.merge (lawful : LawfulWrites writes)
    (safe : LawfulBatch batch) : LawfulWrites (mergeStagedWrites writes batch) := by
  refine List.foldlRecOn (motive := LawfulWrites) batch.deletes _ ?_ fun writes lawful key _ => ?_
  · refine List.foldlRecOn (motive := LawfulWrites) batch.sets _ lawful
      fun writes lawful entry member => ?_
    intro key value found
    rw [get?_insert] at found
    split_ifs at found with here
    · cases found
      exact here ▸ safe entry.1 entry.2 member
    · exact lawful key value found
  · intro k value found
    rw [get?_insert] at found
    split_ifs at found with here
    · cases found
    · exact lawful k value found

/-- Inside a transaction the database stays as it is, and lawful writes are staged. -/
def StagesOver (s : Session) : Prop :=
  s.db = db ∧ ∃ pending, s.pending = some pending ∧ LawfulBatch pending

theorem StagesOver.closed : Closed (StagesOver db) where
  caching start _ := start
  uncaching start _ := start
  committing start auto _ _ := by
    obtain ⟨-, pending, open_, -⟩ := start
    cases auto.symm.trans open_
  staging start open_ _ more := by
    obtain ⟨rfl, pending, found, lawful⟩ := start
    cases found.symm.trans open_
    exact ⟨rfl, _, rfl, fun key value member => (more key value member).elim (lawful key value) id⟩

namespace OpenTransaction

variable {t : OpenTransaction}

theorem step_keeps (lawful : LawfulWrites t.writes) {n : ℕ} (stmt : Statement (Query n)) :
    (t.step stmt).db = t.db ∧ LawfulWrites (t.step stmt).writes := by
  rw [step]
  split_ifs
  · exact ⟨rfl, lawful⟩
  · have start : StagesOver t.db (.inTransaction t.db t.writes) := ⟨rfl, _, rfl, lawful.seedBatch⟩
    have kept := (preserves_execute (StagesOver.closed t.db)
      (preserves_runQuery (StagesOver.closed t.db) n) stmt).state start
    cases ran : execute (runQuery n) stmt (.inTransaction t.db t.writes) with
    | ok result s =>
      rw [ran] at kept
      obtain ⟨same, pending, open_, safe⟩ := kept
      change s.pending = some pending at open_
      refine ⟨same, ?_⟩
      change LawfulWrites (mergeStagedWrites t.writes (s.pending.getD .new))
      rw [open_]
      exact lawful.merge safe
    | error err s =>
      rw [ran] at kept
      exact ⟨kept.1, lawful⟩

/-- Whatever its statements are and however they end, a transaction leaves the database alone. -/
theorem run_keeps (lawful : LawfulWrites t.writes) {n : ℕ} (stmts : List (Statement (Query n))) :
    (t.run stmts).db = t.db ∧ LawfulWrites (t.run stmts).writes := by
  induction stmts generalizing t with
  | nil => exact ⟨rfl, lawful⟩
  | cons stmt stmts ih =>
    obtain ⟨same, lawful'⟩ := step_keeps lawful stmt
    obtain ⟨same', lawful''⟩ := ih lawful'
    exact ⟨same'.trans same, lawful''⟩

end OpenTransaction

section

variable {s : Session} {table : TableDef} {name : Bytes}

namespace Session

/-- The session that sees what this one sees in its database. -/
def committed (s : Session) : Session := ⟨s.view, .empty, none⟩

theorem Sound.committed (sound : s.Sound) : s.committed.Sound := by
  intro key value found inside
  obtain seen | nothing := found
  · obtain stored | staged := view_cases seen
    · exact sound (.inl stored.1) inside
    · exact sound (.inr staged) inside
  · cases nothing

/-- The staged rows of a table have keys that a scan of the committed rows covers. -/
def RowsSettled (s : Session) (table : TableDef) : Prop :=
  ∀ suffix value, s.pendingOverlay.get? (table.rowPrefix ++ suffix) = some (some value) →
    suffix ≠ [] ∧ suffix ≤ scanStop ∧ table.rowFormat = .typed

/-- No row under a key that continues the key of a lookup has the primary key in demand. -/
def LookupSettled (s : Session) (table : TableDef) (name : Bytes) (expr : WhereExpr σ) : Prop :=
  ∀ column value, pkComparison table name expr = some (column, value) →
    ∀ rest stored, rest ≠ [] → rest ≤ scanStop →
      s.db.get? (table.keyOf value.asString ++ rest) = some stored ∨
        s.pendingOverlay.get? (table.keyOf value.asString ++ rest) = some (some stored) →
      evalTri (σ := σ) (rowOf table.rowFormat stored) (bareTypes table)
      (.comparison column .eq value) ≠ some true

omit [TextFunctions] in
/-- A scan inside the transaction and one after it come across the same entries. -/
theorem RowsSettled.perm_tableEntries (settled : s.RowsSettled table) :
    (s.tableEntries table).Perm (s.committed.storedEntries table) := by
  refine (perm_ext_iff_of_nodup (s.nodup_tableEntries table)
    (s.committed.nodup_storedEntries table)).mpr ?_
  rintro ⟨key, value⟩
  rw [tableEntries, mem_append, mem_storedEntries, mem_stagedEntries, mem_storedEntries]
  change _ ↔ _ ∧ s.view.get? key = some value ∧ none = none
  constructor
  · rintro (⟨inside, found, hidden⟩ | ⟨⟨rest, rfl, -⟩, found⟩)
    · refine ⟨inside, ?_, rfl⟩
      rw [get?_view, hidden, Option.getD_none, found]
    · refine ⟨⟨rest, rfl, (settled rest value found).2.1⟩, ?_, rfl⟩
      rw [get?_view, found, Option.getD_some]
  · rintro ⟨⟨rest, rfl, below⟩, seen, -⟩
    obtain ⟨found, hidden⟩ | found := view_cases seen
    · exact .inl ⟨⟨rest, rfl, below⟩, found, hidden⟩
    · exact .inr ⟨⟨rest, rfl, (settled rest value found).1⟩, found⟩

end Session

/-- Predicates that differ in the order of the values in their lists. -/
inductive Alike : WhereExpr σ → WhereExpr σ → Prop
  | refl (expr : WhereExpr σ) : Alike expr expr
  | inList (column : Bytes) {values values' : List SqlValue} :
      values.Perm values' → Alike (.inList column values) (.inList column values')
  | and {a a' b b' : WhereExpr σ} : Alike a a' → Alike b b' → Alike (.and a b) (.and a' b')
  | or {a a' b b' : WhereExpr σ} : Alike a a' → Alike b b' → Alike (.or a b) (.or a' b')
  | not {a a' : WhereExpr σ} : Alike a a' → Alike (.not a) (.not a')

namespace Alike

variable {expr expr' : WhereExpr σ} (alike : Alike expr expr')

include alike

theorem evalTri (row : Row) (types : ColumnTypeMap) :
    Sql.evalTri row types expr = Sql.evalTri row types expr' := by
  induction alike with
  | refl => rfl
  | @inList column values values' perm =>
    rw [Sql.evalTri]
    congr 1
    funext rowVal
    rw [perm.any_eq, perm.any_eq]
  | and _ _ first second | or _ _ first second => rw [Sql.evalTri, Sql.evalTri, first, second]
  | not _ ih => rw [Sql.evalTri, Sql.evalTri, ih]

omit [TextFunctions] in
theorem extractWhereColumns : Sql.extractWhereColumns expr = Sql.extractWhereColumns expr' := by
  induction alike with
  | refl | inList => rfl
  | and _ _ first second | or _ _ first second =>
    rw [Sql.extractWhereColumns, Sql.extractWhereColumns, first, second]
  | not _ ih => rw [Sql.extractWhereColumns, Sql.extractWhereColumns, ih]

omit [TextFunctions] in
theorem pkComparison : Sql.pkComparison table name expr = Sql.pkComparison table name expr' := by
  induction alike with
  | refl | inList | or | not => rfl
  | and _ _ first second => rw [Sql.pkComparison, Sql.pkComparison, first, second]

end Alike

variable {whereClause : Option (WhereExpr σ)} {run : σ → Exec ExecResult}

theorem retain_of_alike {whereClause' : Option (WhereExpr σ)}
    (alike : Option.Rel Alike whereClause whereClause') (types : ColumnTypeMap) (rows : List Row) :
    retain types whereClause rows = retain types whereClause' rows := by
  cases alike with
  | none => rfl
  | some alike =>
    refine filter_congr fun row _ => ?_
    rw [evalWhereTyped, evalWhereTyped, alike.evalTri]

theorem Perm.retain {types : ColumnTypeMap} {rows rows' : List Row} (perm : rows.Perm rows')
    (whereClause : Option (WhereExpr σ)) :
    (Sql.retain types whereClause rows).Perm (Sql.retain types whereClause rows') := by
  cases whereClause with
  | none => exact perm
  | some expr => exact perm.filter _

theorem seqScan_agree (sound : s.Sound) (settled : s.RowsSettled table) :
    ∃ rows rows', s.seqScan table = .ok rows ∧ s.committed.seqScan table = .ok rows' ∧
      rows.Perm rows' := by
  have decoded : (s.stagedEntries table).map (fun entry => rowOf .typed entry.2) =
      (s.stagedEntries table).map fun entry => rowOf table.rowFormat entry.2 := by
    refine map_congr_left ?_
    rintro ⟨key, value⟩ member
    obtain ⟨⟨rest, rfl, -⟩, staged⟩ := mem_stagedEntries.mp member
    rw [(settled rest value staged).2.2]
  refine ⟨_, _, sound.seqScan table, sound.committed.seqScan table, ?_⟩
  rw [decoded, ← map_append, show s.committed.stagedEntries table = [] from rfl, map_nil,
    append_nil]
  exact settled.perm_tableEntries.map _

section

variable {whereClause : Option (WhereExpr σ)} (lookups : ∀ expr, whereClause = some expr →
  s.LookupSettled table name expr)

include lookups

theorem retain_continued {expr : WhereExpr σ} (given : whereClause = some expr) {column : Bytes}
    {value : SqlValue}
    (demand : pkComparison table name expr = some (column, value)) {rows : List Row}
    (continued : ∀ row ∈ rows, ∃ rest stored, rest ≠ [] ∧ rest ≤ scanStop ∧
      (s.db.get? (table.keyOf value.asString ++ rest) = some stored ∨
        s.pendingOverlay.get? (table.keyOf value.asString ++ rest) = some (some stored)) ∧
      row = rowOf table.rowFormat stored) : retain (bareTypes table) whereClause rows = [] := by
  rw [given, retain, filter_eq_nil_iff]
  intro row member selected
  obtain ⟨rest, stored, more, bound, found, rfl⟩ := continued row member
  refine lookups expr given column value demand rest stored more bound found
    (evalTri_pkComparison demand ?_)
  rw [evalWhereTyped] at selected
  cases truth : evalTri (rowOf table.rowFormat stored) (bareTypes table) expr with
  | none => simp [truth] at selected
  | some b => simpa [truth] using selected

/-- Lookups inside the transaction and after it return the same rows, of those in demand. -/
theorem pkLookup_agree (sound : s.Sound) (settled : s.RowsSettled table) {expr : WhereExpr σ}
    (given : whereClause = some expr) {column : Bytes} {value : SqlValue}
    (demand : pkComparison table name expr = some (column, value)) :
    ∃ rows rows', s.pkLookup table (table.canonicalizePkKey value.asString) = .ok rows ∧
      s.committed.pkLookup table (table.canonicalizePkKey value.asString) = .ok rows' ∧
      retain (bareTypes table) whereClause rows = retain (bareTypes table) whereClause rows' := by
  have gone (absent : s.view.get? (table.keyOf value.asString) = none) :
      ∃ rows', s.committed.pkLookup table (table.canonicalizePkKey value.asString) = .ok rows' ∧
        retain (bareTypes table) whereClause rows' = [] := by
    obtain ⟨rows', read, continued⟩ := pkLookup_of_absent sound.committed rfl
      (show s.committed.db.get? (table.rowPrefix ++ table.canonicalizePkKey value.asString) = none
      from absent)
    refine ⟨rows', read, retain_continued lookups given demand fun row member => ?_⟩
    obtain ⟨rest, stored, more, bound, seen, same⟩ := continued row member
    refine ⟨rest, stored, more, bound, ?_, same⟩
    exact (view_cases seen).imp And.left id
  cases staged : s.pendingOverlay.get? (table.keyOf value.asString) with
  | none =>
    have seen :
        s.view.get? (table.keyOf value.asString) = s.db.get? (table.keyOf value.asString) := by
      rw [get?_view, staged, Option.getD_none]
    cases found : s.db.get? (table.keyOf value.asString) with
    | some stored =>
      exact ⟨_, _, pkLookup_of_stored sound staged found,
        pkLookup_of_stored sound.committed rfl (seen.trans found), rfl⟩
    | none =>
      obtain ⟨rows, read, continued⟩ := pkLookup_of_absent sound staged found
      obtain ⟨rows', read', nothing⟩ := gone (seen.trans found)
      refine ⟨rows, rows', read, read', ?_⟩
      rw [nothing]
      refine retain_continued lookups given demand fun row member => ?_
      obtain ⟨rest, stored, more, bound, inside, same⟩ := continued row member
      exact ⟨rest, stored, more, bound, .inl inside, same⟩
  | some write =>
    have seen : s.view.get? (table.keyOf value.asString) = write := by
      rw [get?_view, staged, Option.getD_some]
    cases write with
    | none =>
      obtain ⟨rows', read', nothing⟩ := gone seen
      refine ⟨[], rows', ?_, read', ?_⟩
      · rw [pkLookup, show table.rowPrefix ++ table.canonicalizePkKey value.asString =
          table.keyOf value.asString from rfl, staged]
      · rw [nothing, given]
        rfl
    | some stored =>
      refine ⟨_, _, pkLookup_of_staged sound staged, pkLookup_of_stored sound.committed rfl seen,
        ?_⟩
      rw [(settled _ stored staged).2.2]

/-- What a plan reads inside the transaction and after it differs in rows that are not selected. -/
theorem planRows_agree (sound : s.Sound) (settled : s.RowsSettled table) {lookup : Option Bytes}
    (plan : lookup = none ∨
      lookup = (whereClause.bind (pkComparison table name)).map fun demand => demand.2.asString) :
    ∃ rows rows', planRows (σ := σ) s table lookup = .ok rows ∧
      planRows (σ := σ) s.committed table lookup = .ok rows' ∧
      (retain (bareTypes table) whereClause rows).Perm
      (retain (bareTypes table) whereClause rows') := by
  obtain ⟨scanned, scanned', read, read', perm⟩ := seqScan_agree sound settled
  cases given : lookup with
  | none => exact ⟨scanned, scanned', read, read', Perm.retain perm whereClause⟩
  | some keyValue =>
    rw [given] at plan
    obtain ⟨⟨column, value⟩, demand, rfl⟩ :=
      Option.map_eq_some_iff.mp (plan.resolve_left nofun).symm
    obtain ⟨expr, here, demand⟩ := Option.bind_eq_some_iff.mp demand
    rw [planRows, planRows]
    by_cases legacy : legacyPkNeedsScan table = true
    · rw [if_pos legacy, if_pos legacy, read, read']
      exact ⟨_, _, rfl, rfl, Perm.retain (perm.filter _) whereClause⟩
    · rw [if_neg legacy, if_neg legacy]
      obtain ⟨rows, rows', first, second, same⟩ := pkLookup_agree lookups sound settled here demand
      exact ⟨rows, rows', first, second, .of_eq same⟩

end

/-- The same rows, in some order. -/
def SameRows (result result' : ExecResult) : Prop :=
  ∃ columns rows rows', result = .rows columns rows ∧ result' = .rows columns rows' ∧
    rows.Perm rows'

variable (folded : ∀ text : Bytes, lower (lower text) = lower text)

include folded

theorem selectFrom_agree (sound : s.Sound)
    (settled : s.RowsSettled table) {cache cache' : SortedMap Bytes TableDef}
    (known : s.Known cache)
    (known' : s.committed.Known cache') (cached : (s.withCache cache).getTable name = some table)
    (cached' : (s.committed.withCache cache').getTable name = some table)
    {whereClause' : Option (WhereExpr σ)} (alike : Option.Rel Alike whereClause whereClause')
    (lookups : ∀ expr, whereClause = some expr → s.LookupSettled table name expr)
    (columns : List SelectColumn) :
    (∃ result result', selectFrom (s.withCache cache) columns name whereClause = .ok result ∧
      selectFrom (s.committed.withCache cache') columns name whereClause' = .ok result' ∧
      SameRows result result') ∨
    ∃ err err', selectFrom (s.withCache cache) columns name whereClause = .error err ∧
      selectFrom (s.committed.withCache cache') columns name whereClause' = .error err' := by
  have same : whereColumns whereClause' = whereColumns whereClause := by
    cases alike with
    | none => rfl
    | some alike => exact alike.extractWhereColumns.symm
  have planned : plannedLookup table name whereClause' = plannedLookup table name whereClause := by
    cases alike with
    | none => rfl
    | some alike => rw [plannedLookup, plannedLookup, Option.bind_some, Option.bind_some,
      alike.pkComparison]
  obtain ⟨rows, rows', read, read', perm⟩ := planRows_agree lookups sound settled
    (plannedLookup_cases table name whereClause)
  rw [retain_of_alike alike _ rows'] at perm
  rw [selectFrom_eq folded sound known cached, selectFrom_eq folded sound.committed known' cached',
    same, planned, read, read']
  cases (whereColumns whereClause).forM (checkColumnReference name table.columnNames) with
  | error err => exact .inr ⟨err, err, rfl, rfl⟩
  | ok =>
    cases validateOutputColumns name table columns with
    | error err => exact .inr ⟨err, err, rfl, rfl⟩
    | ok => exact .inl ⟨_, _, rfl, rfl, _, _, _, rfl, rfl, perm.map _⟩

omit folded in
/-- The predicates that two runs make of one have the same lists, in some order. -/
theorem agree_resolveSubqueries {P : Session → Session → Prop} {expr : WhereExpr σ}
    (nested : ∀ query ∈ subqueries expr, Agree P (run query) (run query) SameRows) :
    Agree P (resolveSubqueries run expr) (resolveSubqueries run expr) fun resolved resolved' =>
      Alike resolved resolved' ∧ ∀ table name, pkComparison table name resolved =
      pkComparison table name expr := by
  induction expr with
  | inSubquery column query =>
    refine Agree.bind (nested query (mem_singleton.mpr rfl)) fun result result' same => ?_
    obtain ⟨columns, rows, rows', rfl, rfl, perm⟩ := same
    exact .pure ⟨.inList column ((perm.filterMap _).map _), fun _ _ => rfl⟩
  | and a b first second =>
    refine Agree.bind (first fun q member => nested q (mem_append_left _ member)) fun _ _ left => ?_
    refine Agree.bind (second fun q member => nested q (mem_append_right _ member)) fun _ _ right =>
      ?_
    exact .pure ⟨.and left.1 right.1, fun table name => by
      rw [pkComparison, pkComparison, left.2, right.2]⟩
  | or a b first second =>
    refine Agree.bind (first fun q member => nested q (mem_append_left _ member)) fun _ _ left => ?_
    refine Agree.bind (second fun q member => nested q (mem_append_right _ member)) fun _ _ right =>
      ?_
    exact .pure ⟨.or left.1 right.1, fun _ _ => rfl⟩
  | not inner ih =>
    refine Agree.bind (ih nested) fun _ _ related => ?_
    exact .pure ⟨.not related.1, fun _ _ => rfl⟩
  | comparison | isNull | isNotNull | inList => exact .pure ⟨.refl _, fun _ _ => rfl⟩

omit folded in
theorem agree_resolveWhere {P : Session → Session → Prop}
    (nested : ∀ expr, whereClause = some expr → ∀ query ∈ subqueries expr,
    Agree P (run query) (run query) SameRows) :
    Agree P (resolveWhere run whereClause) (resolveWhere run whereClause) fun resolved resolved' =>
      Option.Rel Alike resolved resolved' ∧ ∀ table name,
        resolved.bind (pkComparison table name) = whereClause.bind (pkComparison table name) := by
  cases whereClause with
  | none => exact .pure ⟨.none, fun _ _ => rfl⟩
  | some expr =>
    refine Agree.bind (agree_resolveSubqueries (nested expr rfl)) fun _ _ related => ?_
    exact .pure ⟨.some related.1, related.2⟩

def Settled (s : Session) : (n : ℕ) → Query n → Prop
  | 0, query => nomatch query
  | n + 1, query =>
    (∀ table, s.definitionOf query.table = some table → s.RowsSettled table ∧
      ∀ expr, query.whereClause = some expr → s.LookupSettled table query.table expr) ∧
    ∀ expr, query.whereClause = some expr → ∀ sub ∈ subqueries expr, Settled s n sub

theorem agree_selectCached (sound : s.Sound) (query : Select σ) (rows : s.RowsSettled table)
    (lookups : ∀ expr, query.whereClause = some expr → s.LookupSettled table query.table expr)
    (seen : s.view.get? (catalogKey table.name) = some (.table table))
    (same : lower table.name = lower query.table) {cache cache' : SortedMap Bytes TableDef}
    (nested : ∀ expr, query.whereClause = some expr → ∀ sub ∈ subqueries expr,
      Agree (fun s₁ s₂ => s.Follows (cache.insert (lower table.name) table) s₁ ∧
        s.committed.Follows (cache'.insert (lower table.name) table) s₂) (run sub)
          (run sub) SameRows) :
    Agree (fun s₁ s₂ => s.Follows (cache.insert (lower table.name) table) s₁ ∧
        s.committed.Follows (cache'.insert (lower table.name) table) s₂)
      (do
        let whereClause ← resolveWhere run query.whereClause
        let s ← get
        ofExcept (selectFrom s query.columns query.table whereClause))
      (do
        let whereClause ← resolveWhere run query.whereClause
        let s ← get
        ofExcept (selectFrom s query.columns query.table whereClause)) SameRows := by
  refine Agree.bind (agree_resolveWhere nested) fun resolved resolved' related => ?_
  rintro _ _ ⟨⟨cache₃, rfl, known, stays⟩, cache₃', rfl, known', stays'⟩
  have own {cache : SortedMap Bytes TableDef} :
      (cache.insert (lower table.name) table).get? (lower table.name) = some table := by
    rw [get?_insert, if_pos rfl]
  have cached : (s.withCache cache₃).getTable query.table = some table := by
    rw [getTable, ← same]
    exact stays _ _ seen own
  have cached' : (s.committed.withCache cache₃').getTable query.table = some table := by
    rw [getTable, ← same]
    exact stays' _ _ seen own
  have demands : ∀ expr, resolved = some expr → s.LookupSettled table query.table expr := by
    rintro expr rfl column value demand
    have before := related.2 table query.table
    rw [Option.bind_some, demand] at before
    obtain ⟨original, given, demand⟩ := Option.bind_eq_some_iff.mp before.symm
    exact lookups original given column value demand
  rw [EStateM.get_bind, EStateM.get_bind]
  rcases selectFrom_agree folded sound rows known known' cached cached' related.1 demands
      query.columns with
    ⟨result, result', done, done', rows⟩ | ⟨err, err', failed, failed'⟩
  · rw [done, done']
    exact .inl ⟨result, result', _, _, rfl, rfl, rows, ⟨cache₃, rfl, known, stays⟩, cache₃', rfl,
      known', stays'⟩
  · rw [failed, failed']
    exact .inr ⟨err, err', _, _, rfl, rfl⟩

/-- A settled query fails inside the transaction and after it, or returns the same rows. -/
theorem agree_runQuery (sound : s.Sound) {n : ℕ}
    {query : Query n} (settled : Settled s n query) (cache cache' : SortedMap Bytes TableDef) :
    Agree (fun s₁ s₂ => s.Follows cache s₁ ∧ s.committed.Follows cache' s₂)
      (runQuery n query) (runQuery n query) SameRows := by
  induction n generalizing cache cache' with
  | zero => nomatch query
  | succ n ih =>
    rintro _ _ ⟨⟨cache₁, rfl, known, stays⟩, cache₁', rfl, known', stays'⟩
    obtain ⟨cache₂, ran, known, stays₂⟩ := sound.execute_eq known (runQuery n) (.select query)
    obtain ⟨cache₂', ran', known', stays₂'⟩ :=
      sound.committed.execute_eq known' (runQuery n) (.select query)
    rw [runQuery, ran, ran']
    cases defined : s.definitionOf query.table with
    | none =>
      obtain ⟨err, s₁, failed⟩ :=
        (execSelect_of_missing sound (within_runQuery sound n) defined).exists_error
        ⟨cache₂, rfl, known⟩
      obtain ⟨err', s₂, failed'⟩ :=
        (execSelect_of_missing sound.committed (within_runQuery sound.committed n)
          defined).exists_error ⟨cache₂', rfl, known'⟩
      exact .inr ⟨err, err', s₁, s₂, failed, failed'⟩
    | some table =>
      obtain ⟨seen, same⟩ := sound.seen_of_definitionOf defined
      obtain ⟨rows, lookups⟩ := settled.1 table defined
      have found := effectiveTable_of_definitionOf defined
      have found' := effectiveTable_of_definitionOf (s := s.committed) defined
      -- Both sessions have the definition in their caches now, and the subqueries leave it there.
      have rest := agree_selectCached folded sound query rows lookups seen same
        (fun expr given sub member => ih (settled.2 expr given sub member)
          (cache₂.insert (lower table.name) table) (cache₂'.insert (lower table.name) table))
      have start := known.insert (sound.has_effectiveTable found)
      have start' := known'.insert (sound.committed.has_effectiveTable found')
      have lookup := persistedTable_of_some (s := s.withCache cache₂) found
      have lookup' := persistedTable_of_some (s := s.committed.withCache cache₂') found'
      rw [show executeInner (runQuery n) (.select query) (s.withCache cache₂) = _ from
          EStateM.bind_of_ok lookup,
        show executeInner (runQuery n) (.select query) (s.committed.withCache cache₂') = _ from
          EStateM.bind_of_ok lookup']
      rcases rest _ _ ⟨⟨_, rfl, start, fun _ _ _ => id⟩, _, rfl, start', fun _ _ _ => id⟩ with
        ⟨a, b, _, _, done, done', related, ⟨cache₃, rfl, known₃, stays₃⟩, cache₃', rfl, known₃',
          stays₃'⟩ | failed
      · refine .inl ⟨a, b, _, _, done, done', related, ⟨cache₃, rfl, known₃, ?_⟩, cache₃', rfl,
          known₃', ?_⟩
        · exact ((stays.trans stays₂).insert seen).trans stays₃
        · exact ((stays'.trans stays₂').insert seen).trans stays₃'
      · exact .inr failed

omit folded

/-- Two queries fail, or they return the same rows in some order. -/
def Matches (result result' : EStateM.Result String Session ExecResult) : Prop :=
  (∃ columns rows rows' s s', result = .ok (.rows columns rows) s ∧
    result' = .ok (.rows columns rows') s' ∧
    rows.Perm rows') ∨ ∃ err err' s s', result = .error err s ∧ result' = .error err' s'

/-- The batch that COMMIT applies is what the statements of the transaction have seen. -/
theorem OpenTransaction.view_of_commit {t : OpenTransaction} {db : TypedStore SqlStored}
    (done : t.commit = .committed db) : (inTransaction t.db t.writes).view = db := by
  rw [commit] at done
  split_ifs at done with failed empty
  · cases done
    have none : seedBatch t.writes = .new := by
      rw [seedBatch, isEmpty_iff.mp empty]
      rfl
    change t.db.commit (seedBatch t.writes) = t.db
    rw [none]
    rfl
  · split at done
    · rename_i batch built
      cases done
      change t.db.commit (seedBatch t.writes) = _
      rw [seedBatch_of_buildWriteBatch built]
    · cases done

/-- A settled query returns inside the transaction what it returns after COMMIT. After ROLLBACK all
is as before BEGIN. -/
theorem reads_match_commit (folded : ∀ text : Bytes, lower (lower text) = lower text)
    {db : TypedStore SqlStored} (sound : SoundStore db) {n : ℕ}
    (stmts : List (Statement (Query n))) :
    (∀ db', ((begin db).run stmts).commit = .committed db' → ∀ (m : ℕ) (query : Query m),
      Settled (.inTransaction db ((begin db).run stmts).writes) m query →
      Matches (runQuery m query (.inTransaction db ((begin db).run stmts).writes))
        (runQuery m query (.autocommit db'))) ∧ ∀ (m : ℕ) (query : Query m),
      runQuery m query (.autocommit ((begin db).run stmts).rollback) = runQuery m query
      (.autocommit db) := by
  obtain ⟨same, lawful⟩ := run_keeps (t := .begin db) nofun stmts
  refine ⟨fun db' done m query settled => ?_, fun m query => by rw [rollback, same]; rfl⟩
  have view := view_of_commit done
  rw [same] at view
  subst view
  have soundS : (inTransaction db ((begin db).run stmts).writes).Sound := by
    refine sound.session rfl fun batch open_ => ?_
    cases open_
    exact lawful.seedBatch
  have soundView := sound.commit lawful.seedBatch
  rcases agree_runQuery folded soundS settled (loadAll db) (loadAll _) _ _
      ⟨⟨_, rfl, sound.known_loadAll rfl, fun _ _ _ => id⟩, _, rfl, soundView.known_loadAll rfl,
      fun _ _ _ => id⟩ with
    ⟨_, _, s₁, s₂, ran, ran', ⟨columns, rows, rows', rfl, rfl, perm⟩, -⟩ | ⟨err, err', s₁, s₂, ran,
      ran'⟩
  · exact .inl ⟨columns, rows, rows', s₁, s₂, ran, ran', perm⟩
  · exact .inr ⟨err, err', s₁, s₂, ran, ran'⟩

end

namespace Sample

def returned : EStateM.Result String Session ExecResult → Option (List (List Cell))
  | .ok (.rows _ rows) _ => some rows
  | _ => none

def inserting (value : String) : OpenTransaction :=
  @run asciiText 0 (.begin catalog.db) [insertKey value]

def inserted (value : String) : TypedStore SqlStored :=
  match (inserting value).commit with
  | .committed db => db
  | _ => .empty

end Sample

omit [TextFunctions] in
/-- A row with the primary key `é` is read inside the transaction that inserts it, and not after
COMMIT. -/
theorem inserted_row_lost_at_commit : letI := asciiText
    (inserting "é").commit = .committed (inserted "é") ∧
      returned (runQuery 1 selectAll
        (.inTransaction catalog.db (inserting "é").writes)) = some [[some (.ofString "é")]] ∧
      returned (runQuery 1 selectAll (.autocommit (inserted "é"))) = some [] := by
  decide +kernel

omit [TextFunctions] in
/-- A row with the primary key `a` is read inside the transaction and after it. -/
theorem inserted_row_kept_at_commit : letI := asciiText
    Matches (runQuery 1 selectAll (.inTransaction catalog.db (inserting "a").writes))
      (runQuery 1 selectAll (.autocommit (inserted "a"))) := by
  let _ := asciiText
  refine (reads_match_commit lower_lower soundStore_catalog [insertKey "a"]).1
    (inserted "a") (by decide +kernel) 1 selectAll ⟨fun table defined => ⟨?_, nofun⟩, nofun⟩
  have stored : (inTransaction catalog.db (inserting "a").writes).definitionOf
      (.ofString "t1") = some t1 := by decide +kernel
  obtain rfl : t1 = table := Option.some.inj (stored.symm.trans defined)
  have entries : (inTransaction catalog.db (inserting "a").writes).pendingOverlay.entries =
      [(t1.rowPrefix ++ .ofString "a",
        some (.row (SortedMap.empty.insert (.ofString "id") (some (.ofString "a")))))] :=
        by decide +kernel
  intro suffix value staged
  have member := get?_eq_some_iff.mp staged
  rw [mem_def] at member
  obtain ⟨key, -⟩ := Prod.mk.inj (mem_singleton.mp (entries ▸ member))
  obtain rfl := append_cancel_left key
  decide

end OmniKV.Sql
