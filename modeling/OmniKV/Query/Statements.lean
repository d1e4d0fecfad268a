import OmniKV.Query.Session

/-!
# Statements

INSERT, UPDATE and DELETE resolve their table, load its rows, build one batch and stage or
commit it. A table of the old row format is converted by the same batch. SELECT of one
table plans a scan or a lookup of the primary key, filters the rows and projects them; the
subqueries of its predicate are run first and replaced by lists of values.
-/

namespace OmniKV.Sql

open Bytes (text)

inductive ExecResult
  | rows (columns : List Bytes) (rows : List (List Cell))
  | modified (count : ℕ) (command : String)
  | ok (message : String)
deriving DecidableEq

section

variable [TextFunctions] {σ : Type}

variable (table : TableDef) (tableName : Bytes)

section

omit [TextFunctions]

def resolveColumnName (col : Bytes) : Except String Bytes :=
  match table.findColumn col with
  | some c => .ok c.name
  | none =>
    let col := text col
    let table := text table.name
    .error s!"column \"{col}\" does not exist in table \"{table}\""

/-- A column of a predicate is one of the table, with the name of the table before it or not. -/
def checkColumnReference (columns : List Bytes) (col : Bytes) : Except String Unit :=
  let noColumn : Except String Unit :=
    let col := text col
    .error s!"column \"{col}\" does not exist"
  match splitDot col with
  | none => if col ∈ columns then .ok () else noColumn
  | some (qual, bare) =>
    if eqIgnoreAsciiCase qual tableName then if bare ∈ columns then .ok () else noColumn
    else
      let qual := text qual
      .error s!"table \"{qual}\" is not in the FROM clause of this statement"

def whereColumns (whereClause : Option (WhereExpr σ)) : List Bytes :=
  (whereClause.map extractWhereColumns).getD []

end

variable (s : Session)

def validateWhereColumnsOf (tableName : Bytes) (whereClause : Option (WhereExpr σ)) :
    Except String Unit :=
  match s.getTable tableName with
  | none => .error (doesNotExist tableName)
  | some table => (whereColumns whereClause).forM (checkColumnReference tableName table.columnNames)

/-- Keep the rows that a predicate selects. -/
def retain (types : ColumnTypeMap) (whereClause : Option (WhereExpr σ)) (rows : List Row) :
    List Row :=
  match whereClause with
  | some expr => rows.filter fun row => evalWhereTyped row types expr
  | none => rows

def canonicalizeRow (row : Row) : Row :=
  match table.pkOf row with
  | some pk => row.insert table.primaryKey (some (table.canonicalizePkKey pk))
  | none => row

/-- One row of the old format: its key and its primary key become canonical. -/
def migrateEntry (acc : TypedBatch SqlStored × SortedMap Bytes Bytes)
    (entry : Bytes × SqlStored) : Except String (TypedBatch SqlStored × SortedMap Bytes Bytes) :=
  let name := text table.name
  match deserializeRowChecked table.rowFormat entry.2 with
  | .error _ => .error s!"table '{name}' holds a row that cannot be decoded; refusing to migrate it"
  | .ok row =>
    let suffix := (table.rowPrefix.isPrefixOf? entry.1).getD []
    let canonical := table.canonicalizePkKey suffix
    match acc.2.get? canonical with
    | some first =>
      let first := text first
      let second := text suffix
      let both := text canonical
      .error s!"primary key values '{first}' and '{second}' in table '{name}' both canonicalize to '{both}'"
    | none =>
      let row := canonicalizeRow table row
      let key := table.rowPrefix ++ canonical
      let batch : Except String (TypedBatch SqlStored) :=
        if key ≠ entry.1 then do
          let batch ← storage (acc.1.delete entry.1)
          storage (batch.set key (.row row))
        else if SqlStored.row row ≠ entry.2 then storage (acc.1.set key (.row row))
        else .ok acc.1
      batch.map fun batch => (batch, acc.2.insert canonical suffix)

/-- The batch that converts a table. -/
def migrationBatch : Exec (TypedBatch SqlStored) := do
  let s ← get
  match s.effectiveTable table.name with
  | none => throw (doesNotExist table.name)
  | some persisted =>
    if persisted.rowFormat = .typed then
      insertStaged persisted
      return .new
    else
      let entries := s.storedEntries table ++
        (s.stagedEntries table).filter fun entry => entry.2.asRow.isSome
      let acc ← ofExcept (entries.foldlM (migrateEntry table) (.new, .empty))
      ofExcept (storage (acc.1.set (catalogKey table.name) (.table { table with rowFormat :=
      .typed })))

/-- The batch that a statement begins with. -/
def startBatch : Exec (TypedBatch SqlStored) :=
  if table.rowFormat = .legacy then migrationBatch table else return .new

/-- After its rows are converted the cached definition has the new format. -/
def finishMigration : Exec Unit :=
  if table.rowFormat = .legacy then insertStaged { table with rowFormat := .typed } else return ()

def rowKeys (refusing : String) (rows : List Row) : Except String (List Bytes) :=
  rows.mapM fun row =>
    match table.pkOf row with
    | some pk => .ok (table.keyOf pk)
    | none =>
      let name := text table.name
      .error s!"table '{name}' contains a row without a primary key; refusing to {refusing}"

omit [TextFunctions] in
def insertColumns (colNames : List Bytes) : Except String (List Bytes) :=
  if colNames.isEmpty then .ok table.columnNames else colNames.mapM (resolveColumnName table)

def checkCounts (columns : List Bytes) (values : List (List SqlValue)) : Except String Unit :=
  values.forM fun rowVals =>
    if rowVals.length = columns.length then .ok ()
    else
      let expected := columns.length
      let found := rowVals.length
      .error s!"Column count mismatch: expected {expected}, got {found}"

def storedCell (column : Option Column) (value : SqlValue) : Cell :=
  if value = .null then none
  else some (match column with
    | some c => c.colType.canonicalize value.asString
    | none => value.asString)

/-- The row of an INSERT, with the text of its primary key. -/
def buildRow (columns : List Bytes) (rowVals : List SqlValue) : Row × Bytes :=
  (columns.zip rowVals).foldl (fun acc entry =>
    let cell := storedCell (table.findColumn entry.1) entry.2
    (acc.1.insert entry.1 cell,
      if eqIgnoreAsciiCase entry.1 table.primaryKey then cell.getD [] else acc.2)) (.empty, [])

omit [TextFunctions] in
def duplicateKey : String :=
  let name := text table.name
  s!"duplicate key value violates primary key of table '{name}'"

def insertRow (columns : List Bytes) (acc : TypedBatch SqlStored × List Bytes)
    (rowVals : List SqlValue) : Except String (TypedBatch SqlStored × List Bytes) :=
  let built := buildRow table columns rowVals
  if built.2.isEmpty then .error "Primary key value is required"
  else
    let key := table.keyOf built.2
    if key ∈ acc.2 then .error (duplicateKey table)
    else (storage (acc.1.set key (.row built.1))).map fun batch => (batch, key :: acc.2)

theorem insertRow_eq_ok {table : TableDef} {columns : List Bytes}
    {acc acc' : TypedBatch SqlStored × List Bytes} {rowVals : List SqlValue}
    (done : insertRow table columns acc rowVals = .ok acc') :
    (buildRow table columns rowVals).2 ≠ [] ∧ table.keyOf (buildRow table columns rowVals).2 ∉
      acc.2 ∧ acc.1.set (table.keyOf (buildRow table columns rowVals).2)
        (.row (buildRow table columns rowVals).1) = .ok acc'.1 ∧
      acc'.2 = table.keyOf (buildRow table columns rowVals).2 :: acc.2 := by
  rw [insertRow] at done
  dsimp only at done
  split_ifs at done with empty duplicate
  obtain ⟨batch, built, rfl⟩ := Except.map_eq_ok done
  exact ⟨by simpa using empty, duplicate, storage_eq_ok built, rfl⟩

def execInsert (colNames : List Bytes) (values : List (List SqlValue)) : Exec ExecResult := do
  let table ← resolveDmlTable tableName
  let columns ← ofExcept (insertColumns table colNames)
  ofExcept (checkCounts columns values)
  let s ← get
  let rows ← ofExcept (s.loadTableRows table)
  let occupied ← ofExcept (rowKeys table "insert" rows)
  let batch ← startBatch table
  let acc ← ofExcept (values.foldlM (insertRow table columns) (batch, occupied))
  stageOrCommit acc.1
  finishMigration table
  let count := values.length
  return .modified count s!"INSERT 0 {count}"

def resolveAssignments (assignments : List (Bytes × SqlValue)) :
    Except String (List (Bytes × SqlValue)) :=
  assignments.mapM fun entry => (resolveColumnName table entry.1).map (·, entry.2)

def assign (assignments : List (Bytes × SqlValue)) (row : Row) : Row :=
  assignments.foldl (fun row entry =>
    row.insert entry.1 (storedCell (table.columns.find? fun c => c.name = entry.1) entry.2)) row

def updateRow (assignments : List (Bytes × SqlValue))
    (acc : TypedBatch SqlStored × List Bytes) (entry : Row × Bytes) :
    Except String (TypedBatch SqlStored × List Bytes) :=
  let row := assign table assignments entry.1
  match table.pkOf row with
  | none =>
    let name := text table.name
    .error s!"primary key cannot be NULL in table '{name}'"
  | some pk =>
    let key := table.keyOf pk
    if key ∈ acc.2 then .error (duplicateKey table)
    else do
      let batch ← if entry.2 ≠ key then storage (acc.1.delete entry.2) else .ok acc.1
      let batch ← storage (batch.set key (.row row))
      return (batch, key :: acc.2)

theorem updateRow_eq_ok {table : TableDef} {assignments : List (Bytes × SqlValue)}
    {acc acc' : TypedBatch SqlStored × List Bytes} {entry : Row × Bytes}
    (done : updateRow table assignments acc entry = .ok acc') :
    ∃ pk middle, table.pkOf (assign table assignments entry.1) = some pk ∧ table.keyOf pk ∉ acc.2 ∧
      (entry.2 = table.keyOf pk ∧ middle = acc.1 ∨ entry.2 ≠ table.keyOf pk ∧
      acc.1.delete entry.2 = .ok middle) ∧
      middle.set (table.keyOf pk) (.row (assign table assignments entry.1)) = .ok acc'.1 ∧
      acc'.2 = table.keyOf pk :: acc.2 := by
  rw [updateRow] at done
  cases key : table.pkOf (assign table assignments entry.1) with
  | none =>
    rw [key] at done
    cases done
  | some pk =>
    rw [key] at done
    dsimp only at done
    split_ifs at done with duplicate moved
    · obtain ⟨middle, deleted, done⟩ := Except.bind_eq_ok done
      obtain ⟨batch, set, done⟩ := Except.bind_eq_ok done
      cases done
      exact ⟨pk, middle, rfl, duplicate, .inr ⟨moved, storage_eq_ok deleted⟩, storage_eq_ok set,
        rfl⟩
    · obtain ⟨middle, same, done⟩ := Except.bind_eq_ok done
      obtain ⟨batch, set, done⟩ := Except.bind_eq_ok done
      cases done
      exact ⟨pk, middle, rfl, duplicate, .inl ⟨not_not.mp moved, (Except.ok.inj same).symm⟩,
        storage_eq_ok set, rfl⟩

def writeBatch (batch : TypedBatch SqlStored) : Exec Unit :=
  if batch.isEmpty then return ()
  else do
    stageOrCommit batch
    finishMigration table

def execUpdate (assignments : List (Bytes × SqlValue)) (whereClause : Option (WhereExpr σ)) :
    Exec ExecResult := do
  let table ← resolveDmlTable tableName
  let s ← get
  ofExcept (validateWhereColumnsOf s tableName whereClause)
  let assignments ← ofExcept (resolveAssignments table assignments)
  let loaded ← ofExcept (s.loadTableRows table)
  let keys ← ofExcept (rowKeys table "update" loaded)
  let rows := retain (columnTypesOfTable table) whereClause loaded
  let oldKeys := rows.map fun row => table.keyOf ((table.pkOf row).getD [])
  -- Every loaded row has a primary key here. The keys of the rows that are rewritten are free.
  let available := keys.filter (· ∉ oldKeys)
  let batch ← startBatch table
  let acc ← ofExcept ((rows.zip oldKeys).foldlM (updateRow table assignments) (batch, available))
  writeBatch table acc.1
  let count := rows.length
  return .modified count s!"UPDATE {count}"

def execDelete (whereClause : Option (WhereExpr σ)) : Exec ExecResult := do
  let table ← resolveDmlTable tableName
  let s ← get
  ofExcept (validateWhereColumnsOf s tableName whereClause)
  let loaded ← ofExcept (s.loadTableRows table)
  let rows := retain (columnTypesOfTable table) whereClause loaded
  let batch ← startBatch table
  let batch ← ofExcept (storage (rows.foldlM (fun batch row =>
    batch.delete (table.keyOf ((table.pkOf row).getD []))) batch))
  writeBatch table batch
  let count := rows.length
  return .modified count s!"DELETE {count}"

variable (name : Bytes)

omit [TextFunctions] in
def alreadyExists : String :=
  let name := text name
  s!"Table '{name}' already exists"

/-- The last column that is declared the primary key is it; without one it is the first column. -/
def declaredTable (cols : List SqlColumnDef) : Except String TableDef := do
  let columns ← cols.mapM fun c => (ColumnType.fromStr c.colType).map (Column.mk c.name)
  match ((cols.filter SqlColumnDef.primaryKey).getLast?.map SqlColumnDef.name).or
      (columns.head?.map Column.name) with
  | some pk => .ok ⟨name, columns, pk, .typed⟩
  | none => .error "index out of bounds"

/-- `Catalog::create_table` -/
def createTable : Exec Unit := do
  let s ← get
  if (s.getTable table.name).isSome then throw (alreadyExists table.name)
  else
    let batch ← ofExcept (storage (TypedBatch.new.set (catalogKey table.name) (.table table)))
    set { s with db := s.db.commit batch }
    insertStaged table

/-- Inside a transaction the definition is staged, outside the catalog creates the table. -/
def addTable : Exec Unit := do
  let s ← get
  if s.isTransactional then
    let batch ← ofExcept (storage (TypedBatch.new.set (catalogKey table.name) (.table table)))
    stageOrCommit batch
    insertStaged table
  else
    removeStaged table.name
    createTable table

def execCreateTable (cols : List SqlColumnDef) (ifNotExists : Bool) : Exec ExecResult := do
  let s ← get
  if (s.effectiveTable name).isSome then
    if ifNotExists then return .ok "Table already exists" else throw (alreadyExists name)
  else
    let table ← ofExcept (declaredTable name cols)
    addTable table
    let name := text name
    return .ok s!"CREATE TABLE {name}"

/-- `Catalog::drop_table` -/
def dropTable : Exec Unit := do
  let s ← get
  match s.getTable name with
  | none => throw (doesNotExist name)
  | some table =>
    let rows := s.db.range table.rowPrefix (table.rowPrefix ++ scanStop)
    let batch ← ofExcept (storage ((rows.map Prod.fst ++ [catalogKey name]).foldlM TypedBatch.delete
      .new))
    set { s with db := s.db.commit batch }
    removeStaged name

/-- Inside a transaction the deletes of the rows and of the definition are staged. -/
def removeTable (table : TableDef) : Exec Unit := do
  let s ← get
  if s.isTransactional then
    let rows ← ofExcept (s.loadTableRows table)
    let keys := rows.map fun row => table.rowPrefix ++ (table.pkOf row).getD []
    let batch ← ofExcept (storage ((keys ++ [catalogKey name]).foldlM TypedBatch.delete .new))
    stageOrCommit batch
    removeStaged name
  else dropTable name

def execDropTable (ifExists : Bool) : Exec ExecResult := do
  let s ← get
  match s.effectiveTable name with
  | none => if ifExists then return .ok "Table does not exist" else throw (doesNotExist name)
  | some table =>
    insertStaged table
    removeTable name table
    let name := text name
    return .ok s!"DROP TABLE {name}"

inductive SelectColumn
  | star
  | named (name : Bytes)
  | qualified (table name : Bytes)
deriving DecidableEq

structure Select (σ : Type) where
  columns : List SelectColumn
  table : Bytes
  whereClause : Option (WhereExpr σ)

/-- A value that a subquery returned. -/
def valueOfCell : Cell → SqlValue
  | none => .null
  | some v =>
    match parseI64 v, TextFunctions.parseF64 v with
    | some n, _ => .integer n
    | none, some f => .float f
    | none, none => .text v

/-- Run the subqueries of a predicate and put their first columns in their places. -/
def resolveSubqueries (run : σ → Exec ExecResult) : WhereExpr σ → Exec (WhereExpr σ)
  | .inSubquery column query => do
      match ← run query with
      | .rows _ rows => return .inList column ((rows.filterMap List.head?).map valueOfCell)
      | _ => return .inList column []
  | .and a b => do
      let a ← resolveSubqueries run a
      let b ← resolveSubqueries run b
      return .and a b
  | .or a b => do
      let a ← resolveSubqueries run a
      let b ← resolveSubqueries run b
      return .or a b
  | .not inner => do
      let inner ← resolveSubqueries run inner
      return .not inner
  | other => return other

/-- The primary keys of the cached tables. A row among the first ones that cannot be decoded fails
the query. -/
def gatherStats : Except String (SortedMap Bytes Bytes) :=
  s.cache.entries.foldlM (fun stats entry =>
    match s.getTable entry.1 with
    | none => .ok stats
    | some table => do
        ((s.db.range table.rowPrefix (table.rowPrefix ++ scanStop)).take 1000).forM fun entry =>
          match deserializeRowChecked table.rowFormat entry.2 with
          | .ok _ => .ok ()
          | .error error =>
            let name := text table.name
            .error s!"table '{name}' row decode failed during statistics collection: {error}"
        return stats.insert entry.1 table.primaryKey) .empty

section

omit [TextFunctions]

/-- The part of a name after its last dot. -/
def bareName (col : Bytes) : Bytes := (col.reverse.takeWhile (· ≠ 46)).reverse

/-- The value that a predicate demands of the primary key. -/
def extractPkLookup (stats : SortedMap Bytes Bytes) (tableName : Bytes) : WhereExpr σ → Option Bytes
  | .comparison column .eq value =>
    (stats.get? tableName).bind fun pk =>
      if ((splitDot column).all fun parts => eqIgnoreAsciiCase parts.1 tableName) &&
          eqIgnoreAsciiCase (bareName column) pk then some value.asString
      else none
  | .and a b => (extractPkLookup stats tableName a).or (extractPkLookup stats tableName b)
  | _ => none

def decodeFailed (which error : String) : String :=
  let name := text table.name
  s!"table '{name}' {which} decode failed: {error}"

/-- `SeqScanIter` -/
def Session.seqScan (table : TableDef) : Except String (List Row) := do
  let stored ← (s.storedEntries table).mapM fun entry =>
    (deserializeRowChecked table.rowFormat entry.2).mapError (decodeFailed table "row")
  let staged ← (s.stagedEntries table).mapM fun entry =>
    (deserializeRowChecked .typed entry.2).mapError (decodeFailed table "staged row")
  return stored ++ staged

/-- `PkLookupIter` -/
def Session.pkLookup (table : TableDef) (keyValue : Bytes) : Except String (List Row) :=
  let key := table.rowPrefix ++ keyValue
  match s.pendingOverlay.get? key with
  | some (some staged) =>
    ((deserializeRowChecked .typed staged).mapError fun error =>
      s!"staged row decode failed: {error}").map fun row => [row]
  | some none => .ok []
  | none =>
    match (s.db.range key (key ++ scanStop)).head? with
    | none => .ok []
    | some entry =>
      ((deserializeRowChecked table.rowFormat entry.2).mapError (decodeFailed table "row")).map
        fun row => [row]

def legacyPkNeedsScan : Bool :=
  table.rowFormat = .legacy && (table.findColumn table.primaryKey).any fun c => c.colType.isNumeric

end

def planRows (table : TableDef) (lookup : Option Bytes) : Except String (List Row) :=
  match lookup with
  | none => s.seqScan table
  | some value =>
    let keyValue := table.canonicalizePkKey value
    if legacyPkNeedsScan table then
      (s.seqScan table).map fun rows => rows.filter fun row =>
        evalWhereTyped (σ := σ) row (bareTypes table) (.comparison table.primaryKey .eq
          (.text keyValue))
    else s.pkLookup table keyValue

omit [TextFunctions] in
def outputColumns (table : TableDef) (columns : List SelectColumn) : List (Bytes × Bytes) :=
  columns.flatMap fun
    | .star => table.columnNames.map fun col => (col, tableName ++ 46 :: col)
    | .named name => [(name, name)]
    | .qualified t name => [(name, t ++ 46 :: name)]

/-- The columns that a query names besides `*` are columns of its table. -/
def validateOutputColumns (table : TableDef) (columns : List SelectColumn) : Except String Unit :=
  columns.forM fun
    | .star => .ok ()
    | .named name => checkColumnReference tableName table.columnNames name
    | .qualified t name => checkColumnReference tableName table.columnNames (t ++ 46 :: name)

def resolveWhere (run : σ → Exec ExecResult) : Option (WhereExpr σ) → Exec (Option (WhereExpr σ))
  | some expr => some <$> resolveSubqueries run expr
  | none => pure none

/-- The query of a table, with the subqueries of its predicate resolved. -/
def selectFrom (columns : List SelectColumn) (tableName : Bytes)
    (whereClause : Option (WhereExpr σ)) : Except String ExecResult :=
  match s.getTable tableName with
  | none => .error (doesNotExist tableName)
  | some table => do
      (whereColumns whereClause).forM (checkColumnReference tableName table.columnNames)
      validateOutputColumns tableName table columns
      let stats ← gatherStats s
      let rows ← planRows (σ := σ) s table (whereClause.bind (extractPkLookup stats tableName))
      let rows := retain (bareTypes table) whereClause rows
      let output := outputColumns tableName table columns
      return .rows (output.map Prod.fst) (rows.map fun row => output.map fun column =>
        rowLookup row column.2)

def execSelect (run : σ → Exec ExecResult) (query : Select σ) : Exec ExecResult := do
  let _ ← persistedTable query.table
  let whereClause ← resolveWhere run query.whereClause
  let s ← get
  ofExcept (selectFrom s query.columns query.table whereClause)

inductive Statement (σ : Type)
  | createTable (name : Bytes) (columns : List SqlColumnDef) (ifNotExists : Bool)
  | dropTable (name : Bytes) (ifExists : Bool)
  | insert (table : Bytes) (columns : List Bytes) (values : List (List SqlValue))
  | select (query : Select σ)
  | update (table : Bytes) (assignments : List (Bytes × SqlValue))
    (whereClause : Option (WhereExpr σ))
  | delete (table : Bytes) (whereClause : Option (WhereExpr σ))

def executeInner (run : σ → Exec ExecResult) : Statement σ → Exec ExecResult
  | .createTable name columns ifNotExists => execCreateTable name columns ifNotExists
  | .dropTable name ifExists => execDropTable name ifExists
  | .insert table columns values => execInsert table columns values
  | .select query => execSelect run query
  | .update table assignments whereClause => execUpdate table assignments whereClause
  | .delete table whereClause => execDelete table whereClause

def execute (run : σ → Exec ExecResult) (stmt : Statement σ) : Exec ExecResult := do
  let s ← get
  if s.isTransactional then applyTxnOverlay
  executeInner run stmt

/-- Queries whose predicates have subqueries nested at most `n` deep. -/
def Query : ℕ → Type
  | 0 => Empty
  | n + 1 => Select (Query n)

def runQuery : (n : ℕ) → Query n → Exec ExecResult
  | 0, query => nomatch query
  | n + 1, query => execute (runQuery n) (.select query)

end

end OmniKV.Sql
