import OmniKV.Query.Reads

/-!
# A table is the rows that were written into it

The contents of a table are its rows by their primary keys. The database represents them if the keys
of the table lead to these rows and a scan, which ends at the key `\x7F`, comes across all of them.
-/

namespace OmniKV.Sql

open List SortedMap EStateM Sample
open Session (autocommit getTable)
open TypedStore Session

variable [TextFunctions] {σ : Type} {table : TableDef} {name : Bytes}

/-- The rows of a table by their primary keys. -/
abbrev Contents := SortedMap Bytes Row

/-- The text under which a row is stored. -/
def pkText (table : TableDef) (row : Row) : Bytes :=
  table.canonicalizePkKey ((table.pkOf row).getD [])

theorem rowKey_eq (row : Row) : rowKey table row = table.rowPrefix ++ pkText table row := rfl

theorem rowKey_eq_iff {row : Row} {k : Bytes} :
    rowKey table row = table.rowPrefix ++ k ↔ pkText table row = k := append_right_inj _

/-- Whether a predicate selects a row. -/
def selects (table : TableDef) (whereClause : Option (WhereExpr σ)) (row : Row) : Bool :=
  match whereClause with
  | some expr => evalWhereTyped row (columnTypesOfTable table) expr
  | none => true

theorem retain_eq_filter (whereClause : Option (WhereExpr σ)) (rows : List Row) :
    retain (columnTypesOfTable table) whereClause rows = rows.filter
      (selects table whereClause) := by
  cases whereClause with
  | none => exact (filter_eq_self.mpr fun _ _ => rfl).symm
  | some expr => rfl

namespace Contents

def rows (c : Contents) : List Row := c.entries.map Prod.snd

/-- A row under its primary key. -/
def put (table : TableDef) (c : Contents) (row : Row) : Contents := c.insert (pkText table row) row

/-- The rows that a statement leaves as they are. -/
def kept (table : TableDef) (c : Contents) : Statement σ → Contents
  | .update _ _ whereClause => c.filter fun entry => !selects table whereClause entry.2
  | .delete _ whereClause => c.filter fun entry => !selects table whereClause entry.2
  | _ => c

def written (table : TableDef) (c : Contents) : Statement σ → List Row
  | .insert _ colNames values =>
    match insertColumns table colNames with
    | .ok columns => values.map fun rowVals => (buildRow table columns rowVals).1
    | .error _ => []
  | .update _ given whereClause =>
    match resolveAssignments table given with
    | .ok assignments => (c.rows.filter (selects table whereClause)).map (assign table assignments)
    | .error _ => []
  | _ => []

def after (table : TableDef) (c : Contents) (stmt : Statement σ) : Contents :=
  (c.written table stmt).foldl (put table) (c.kept table stmt)

theorem get?_foldl_put (rows : List Row) (c : Contents) (k : Bytes) :
    (rows.foldl (put table) c).get? k =
      (rows.reverse.find? fun row => pkText table row = k).or (c.get? k) := by
  have inserted := get?_foldl_insert (pkText table) (fun row : Row => row) rows c k
  rw [Option.map_id'] at inserted
  exact inserted

end Contents

open Contents

structure GoodRow (table : TableDef) (row : Row) : Prop where
  pk : (table.pkOf row).isSome
  covered : pkText table row ≤ scanStop
  columns : ∀ column cell, row.get? column = some cell → column ∈ table.columnNames

structure Represents (db : TypedStore SqlStored) (table : TableDef) (c : Contents) : Prop where
  sound : SoundStore db
  defined : db.get? (catalogKey table.name) = some (.table table)
  typed : table.rowFormat = .typed
  rows : ∀ k, db.get? (table.rowPrefix ++ k) = (c.get? k).map .row
  good : ∀ k row, c.get? k = some row → k = pkText table row ∧ GoodRow table row

/-- A table whose column names have no dots and differ in more than the case of letters. -/
structure PlainTable (table : TableDef) : Prop where
  key : table.primaryKey ∈ table.columnNames
  undotted : ∀ column ∈ table.columnNames, 46 ∉ column
  distinct : ∀ a ∈ table.columnNames, ∀ b ∈ table.columnNames, eqIgnoreAsciiCase a b = true → a = b

namespace Represents

variable {db : TypedStore SqlStored} {c : Contents}

omit [TextFunctions] in
theorem append_lt_append {p a b : Bytes} (less : a < b) : p ++ a < p ++ b := by
  induction p with
  | nil => exact less
  | cons x p ih => exact cons_lt_cons_iff.mpr (.inr ⟨rfl, ih⟩)

variable (represents : Represents db table c)

include represents

/-- Outside transactions a scan comes across the contents, in their order. -/
theorem tableEntries {s : Session} (same : s.db = db) (auto : s.pending = none) :
    s.tableEntries table = c.entries.map fun entry =>
      (table.rowPrefix ++ entry.1, .row entry.2) := by
  have nothing : s.stagedEntries table = [] := by
    rw [stagedEntries, pendingOverlay, auto]
    rfl
  rw [Session.tableEntries, nothing, append_nil]
  refine eq_of_mem_iff ((pairwise_range _ _ _).filter _) ?_ fun key value => ?_
  · exact pairwise_map.mpr (c.sorted.imp append_lt_append)
  · rw [mem_storedEntries, mem_map]
    constructor
    · rintro ⟨⟨rest, rfl, -⟩, found, -⟩
      rw [same, represents.rows] at found
      obtain ⟨row, inside, rfl⟩ := Option.map_eq_some_iff.mp found
      exact ⟨(rest, row), get?_eq_some_iff.mp inside, rfl⟩
    · rintro ⟨⟨k, row⟩, member, eq⟩
      cases eq
      have found : c.get? k = some row := get?_eq_some_iff.mpr member
      obtain ⟨own, good⟩ := represents.good k row found
      refine ⟨⟨k, rfl, own ▸ good.covered⟩, ?_, get?_pendingOverlay_of_none auto _⟩
      rw [same, represents.rows, found]
      rfl

theorem loaded {s : Session} (same : s.db = db) (auto : s.pending = none)
    {rows : List Row} (load : s.loadTableRows table = .ok rows) : rows = c.rows := by
  have entries := loadTableRows_eq_ok represents.typed load
  rw [represents.tableEntries same auto, map_map] at entries
  refine map_injective_iff.mpr (fun _ _ => SqlStored.row.inj) (entries.symm.trans ?_)
  rw [Contents.rows, map_map]
  rfl

theorem mem_rows {row : Row} : row ∈ c.rows ↔ c.get? (pkText table row) = some row := by
  rw [Contents.rows, mem_map]
  constructor
  · rintro ⟨⟨k, row⟩, member, rfl⟩
    have found : c.get? k = some row := get?_eq_some_iff.mpr member
    rw [← (represents.good k row found).1, found]
  · exact fun found => ⟨_, get?_eq_some_iff.mp found, rfl⟩

/-- The contents that a database represents after rows were written and others removed. -/
theorem of_written {db' : TypedStore SqlStored} {kept : Contents} {written : List Row}
    (sound : SoundStore db')
    (catalog : db'.get? (catalogKey table.name) = db.get? (catalogKey table.name))
    (new : ∀ row ∈ written, db'.get? (rowKey table row) = some (.row row))
    (rest : ∀ k, (∀ row ∈ written, pkText table row ≠ k) → db'.get? (table.rowPrefix ++ k) =
    (kept.get? k).map .row)
    (good : ∀ row ∈ written, GoodRow table row) (subset : ∀ k row, kept.get? k = some row →
    c.get? k = some row) : Represents db' table (written.foldl (put table) kept) := by
  refine ⟨sound, catalog.trans represents.defined, represents.typed, fun k => ?_,
    fun k row found => ?_⟩
  · rw [get?_foldl_put]
    cases last : written.reverse.find? fun row => pkText table row = k with
    | some row =>
      have own : pkText table row = k := by simpa using find?_some last
      rw [← own]
      exact new row (mem_reverse.mp (mem_of_find?_eq_some last))
    | none =>
      refine rest k fun row member own => ?_
      simpa [own] using find?_eq_none.mp last row (mem_reverse.mpr member)
  · rw [get?_foldl_put] at found
    obtain last | ⟨-, old⟩ := Option.or_eq_some_iff.mp found
    · have own : pkText table row = k := by simpa using find?_some last
      exact ⟨own.symm, good row (mem_reverse.mp (mem_of_find?_eq_some last))⟩
    · exact represents.good k row (subset k row old)

end Represents

section

omit [TextFunctions]

theorem resolveColumnName_eq_ok {column resolved : Bytes}
    (done : resolveColumnName table column = .ok resolved) : resolved ∈ table.columnNames := by
  rw [resolveColumnName] at done
  split at done
  · cases done
    exact mem_map_of_mem (mem_of_find?_eq_some ‹_›)
  · cases done

theorem insertColumns_eq_ok {colNames columns : List Bytes}
    (done : insertColumns table colNames = .ok columns) :
    ∀ column ∈ columns, column ∈ table.columnNames := by
  rw [insertColumns] at done
  split_ifs at done
  · cases done
    exact fun _ => id
  · intro column member
    obtain ⟨given, -, resolved⟩ := Except.exists_of_mem_mapM done member
    exact resolveColumnName_eq_ok resolved

end

/-- The row of an INSERT has columns of the table, and is stored under its primary key. -/
theorem PlainTable.buildRow (plain : PlainTable table) {columns : List Bytes}
    (named : ∀ column ∈ columns, column ∈ table.columnNames) (rowVals : List SqlValue) :
    (∀ column cell, (Sql.buildRow table columns rowVals).1.get? column = some cell →
      column ∈ table.columnNames) ∧
      (Sql.buildRow table columns rowVals).2 =
      (table.pkOf (Sql.buildRow table columns rowVals).1).getD [] := by
  refine List.foldlRecOn (motive := fun acc : Row × Bytes =>
    (∀ column cell, acc.1.get? column = some cell → column ∈ table.columnNames) ∧
      acc.2 = (table.pkOf acc.1).getD []) (columns.zip rowVals) _ ⟨nofun, rfl⟩
      fun acc inv entry member => ?_
  have declared := named entry.1 (of_mem_zip member).1
  refine ⟨fun column cell found => ?_, ?_⟩
  · rw [get?_insert] at found
    split_ifs at found with here
    · exact here ▸ declared
    · exact inv.1 column cell found
  · rw [TableDef.pkOf, get?_insert]
    dsimp only
    by_cases own : entry.1 = table.primaryKey
    · have alike : eqIgnoreAsciiCase entry.1 table.primaryKey = true :=
        by rw [own]; exact decide_eq_true rfl
      rw [if_pos alike, if_pos own.symm]
      rfl
    · rw [if_neg fun alike => own (plain.distinct _ declared _ plain.key alike),
        if_neg (Ne.symm own)]
      exact inv.2

theorem columns_assign {assignments : List (Bytes × SqlValue)}
    (named : ∀ entry ∈ assignments, entry.1 ∈ table.columnNames) {row : Row}
    (columns : ∀ column cell, row.get? column = some cell → column ∈ table.columnNames) :
    ∀ column cell, (assign table assignments row).get? column = some cell →
      column ∈ table.columnNames := by
  refine List.foldlRecOn (motive := fun row : Row =>
    ∀ column cell, row.get? column = some cell → column ∈ table.columnNames) assignments _ columns
    fun row inv entry member column cell found => ?_
  rw [get?_insert] at found
  split_ifs at found with here
  · exact here ▸ named entry member
  · exact inv column cell found

omit [TextFunctions] in
theorem resolveAssignments_eq_ok {given assignments : List (Bytes × SqlValue)}
    (done : resolveAssignments table given = .ok assignments) :
    ∀ entry ∈ assignments, entry.1 ∈ table.columnNames := by
  intro entry member
  obtain ⟨original, -, mapped⟩ := Except.exists_of_mem_mapM done member
  obtain ⟨column, resolved, rfl⟩ := Except.map_eq_ok mapped
  exact resolveColumnName_eq_ok resolved

/-- A statement outside transactions, on an executor of its own: the database after it. -/
def stepDb {n : ℕ} (db : TypedStore SqlStored) (stmt : Statement (Query n)) :
    Option (TypedStore SqlStored) :=
  match execute (runQuery n) stmt (.autocommit db) with
  | .ok _ s => some s.db
  | .error _ _ => none

variable {n : ℕ} {db db' : TypedStore SqlStored} {c : Contents}

/-- A statement succeeds on the new executor, and the database is sound after it. -/
theorem stepDb_eq_some {stmt : Statement (Query n)} (ran : stepDb db stmt = some db')
    (sound : SoundStore db) :
    ∃ result s, executeInner (runQuery n) stmt (.autocommit db) = .ok result s ∧ s.db = db' ∧
      SoundStore db' := by
  have kept := (preserves_execute SoundStore.closed (preserves_runQuery SoundStore.closed n)
    stmt).state (s := .autocommit db) sound
  rw [stepDb] at ran
  cases done : execute (runQuery n) stmt (.autocommit db) with
  | error err s =>
    rw [done] at ran
    cases ran
  | ok result s =>
    rw [done] at ran kept
    cases ran
    exact ⟨result, s, done, rfl, kept⟩

namespace Represents

variable {db : TypedStore SqlStored} {c : Contents} {s : Session} {result : ExecResult}

theorem effectiveTable (represents : Represents db table c) (same : s.db = db)
    (auto : s.pending = none)
    (named : lower name = lower table.name) : s.effectiveTable name = some table := by
  refine effectiveTable_of_definitionOf ?_
  rw [definitionOf, Session.view, auto]
  rw [same, catalogKey, named, ← catalogKey, represents.defined]
  rfl

theorem cacheKeyed_loadAll (sound : SoundStore db) : Session.CacheKeyed (loadAll db) :=
  fun key table cached => (sound.known_loadAll (s := .autocommit db) rfl key table cached).1

omit [TextFunctions] in
/-- Outside transactions a batch goes into the database. -/
theorem db_of_written {s' : Session} {batch : TypedBatch SqlStored} (auto : s.pending = none)
    (written : s.Written s' batch) : s'.db = s.db.commit batch ∧ s'.pending = none := by
  have mode : s'.pending = none := by
    have same := written.mode
    rw [isTransactional, isTransactional, auto] at same
    simpa using same
  have view := written.view
  rw [Session.view, Session.view, mode, auto] at view
  exact ⟨view, mode⟩

theorem catalogKey_ne (name pk : Bytes) : catalogKey name ≠ table.rowPrefix ++ pk := nofun

theorem catalogKey_not_mem (rows : List Row) : catalogKey name ∉ rows.map (rowKey table) := by
  intro member
  obtain ⟨row, -, same⟩ := mem_map.mp member
  exact catalogKey_ne _ _ same.symm

/-- A successful INSERT writes its rows, and their primary keys are new. -/
theorem insert (represents : Represents db table c) (plain : PlainTable table)
    {colNames : List Bytes} {values : List (List SqlValue)} (named : lower name = lower table.name)
    (done : execInsert name colNames values (.autocommit db) = .ok result s)
    (sound : SoundStore s.db) :
    (∀ row ∈ c.written table (.insert (σ := σ) name colNames values), c.get? (pkText table row) =
      none) ∧
      ((∀ row ∈ c.written table (.insert (σ := σ) name colNames values),
      pkText table row ≤ scanStop) →
        Represents s.db table (c.after table (.insert (σ := σ) name colNames values))) := by
  obtain ⟨columns, loaded, batch, columnsOk, -, load, sets, deletes, nodup, filled, fresh,
      written⟩ :=
    execInsert_eq_ok (cacheKeyed_loadAll represents.sound) (represents.effectiveTable rfl rfl named)
      represents.typed done
  obtain ⟨stored, -⟩ := db_of_written rfl written
  obtain rfl := represents.loaded rfl rfl load
  have rows : c.written table (.insert (σ := σ) name colNames values) =
      values.map fun rowVals => (buildRow table columns rowVals).1 := by
    rw [Contents.written, columnsOk]
  have own (rowVals : List SqlValue) :
      table.keyOf (buildRow table columns rowVals).2 = rowKey table
      (buildRow table columns rowVals).1 := by
    rw [(plain.buildRow (insertColumns_eq_ok columnsOk) rowVals).2]
    rfl
  have entries : insertedRows table columns values =
      (c.written table (.insert (σ := σ) name colNames values)).map fun row =>
      (rowKey table row, row) := by
    rw [rows, map_map]
    exact map_congr_left fun rowVals _ => by rw [own]; rfl
  rw [entries, map_map] at sets nodup
  rw [entries] at fresh
  constructor
  · intro row member
    cases old : c.get? (pkText table row) with
    | none => rfl
    | some other =>
      refine absurd ?_ (fresh _ (mem_map.mpr ⟨row, member, rfl⟩))
      have inside : other ∈ c.rows := mem_map.mpr ⟨_, get?_eq_some_iff.mp old, rfl⟩
      refine mem_map.mpr ⟨other, inside, ?_⟩
      rw [rowKey_eq, ← (represents.good _ other old).1]
      rfl
  · intro covered
    refine represents.of_written sound ?_ (fun row member => ?_) (fun k absent => ?_)
      (fun row member => ?_) fun _ _ => id
    · rw [stored, get?_commit_of_unset sets fun row _ => (catalogKey_ne _ _).symm, deletes]
      rfl
    · rw [stored]
      exact get?_commit_map sets nodup member (by simp [deletes])
    · rw [stored, get?_commit_of_unset sets fun row inside same =>
        absent row inside (rowKey_eq_iff.mp same), deletes]
      exact represents.rows k
    · refine ⟨?_, covered row member, ?_⟩
      · rw [rows] at member
        obtain ⟨rowVals, inside, rfl⟩ := mem_map.mp member
        have pk := filled rowVals inside
        rw [(plain.buildRow (insertColumns_eq_ok columnsOk) rowVals).2] at pk
        cases own : table.pkOf (buildRow table columns rowVals).1 with
        | none =>
          rw [own] at pk
          exact absurd rfl pk
        | some value => rfl
      · rw [rows] at member
        obtain ⟨rowVals, -, rfl⟩ := mem_map.mp member
        exact (plain.buildRow (insertColumns_eq_ok columnsOk) rowVals).1

theorem get?_filter_selects (represents : Represents db table c)
    (whereClause : Option (WhereExpr σ)) (k : Bytes) :
    (c.filter fun entry => !selects table whereClause entry.2).get? k =
      if table.rowPrefix ++ k ∈ (c.rows.filter (selects table whereClause)).map (rowKey table) then
        none else c.get? k := by
  cases found : c.get? k with
  | none =>
    rw [ite_self]
    refine SortedMap.get?_eq_none_iff.mpr fun row member => ?_
    exact SortedMap.get?_eq_none_iff.mp found row (SortedMap.mem_filter.mp member).1
  | some row =>
    have own := (represents.good k row found).1
    have selected : table.rowPrefix ++ k ∈ (c.rows.filter (selects table whereClause)).map
      (rowKey table) ↔
        selects table whereClause row = true := by
      rw [mem_map]
      constructor
      · rintro ⟨other, member, key⟩
        obtain ⟨inside, chosen⟩ := mem_filter.mp member
        rw [represents.mem_rows, rowKey_eq_iff.mp key, found] at inside
        cases inside
        exact chosen
      · intro chosen
        refine ⟨row, mem_filter.mpr ⟨?_, chosen⟩, rowKey_eq_iff.mpr own.symm⟩
        rw [represents.mem_rows, ← own, found]
    by_cases chosen : selects table whereClause row = true
    · rw [if_pos (selected.mpr chosen)]
      refine SortedMap.get?_eq_none_iff.mpr fun other member => ?_
      obtain ⟨inside, spared⟩ := SortedMap.mem_filter.mp member
      cases found.symm.trans (SortedMap.get?_eq_some_iff.mpr inside)
      simp [chosen] at spared
    · rw [if_neg (selected.not.mpr chosen)]
      exact SortedMap.get?_eq_some_iff.mpr
        (SortedMap.mem_filter.mpr ⟨SortedMap.get?_eq_some_iff.mp found, by simpa using chosen⟩)

omit [TextFunctions] in
theorem of_get?_filter {p : Bytes × Row → Bool} {k : Bytes} {row : Row}
    (found : (c.filter p).get? k = some row) : c.get? k = some row :=
  SortedMap.get?_eq_some_iff.mpr (SortedMap.mem_filter.mp (SortedMap.get?_eq_some_iff.mp found)).1

/-- A successful DELETE removes the rows that it selects. -/
theorem delete (represents : Represents db table c) {whereClause : Option (WhereExpr σ)}
    (named : lower name = lower table.name)
    (done : execDelete name whereClause (.autocommit db) = .ok result s) (sound : SoundStore s.db) :
    Represents s.db table (c.after table (.delete name whereClause)) := by
  obtain ⟨loaded, batch, load, -, sets, deletes, written⟩ :=
    execDelete_eq_ok (cacheKeyed_loadAll represents.sound) (represents.effectiveTable rfl rfl named)
      represents.typed done
  obtain ⟨stored, -⟩ := db_of_written rfl written
  obtain rfl := represents.loaded rfl rfl load
  rw [retain_eq_filter] at deletes
  refine represents.of_written sound ?_ nofun (fun k _ => ?_) nofun fun _ _ => of_get?_filter
  · rw [stored, get?_commit_of_deletes sets, deletes, if_neg (catalogKey_not_mem _)]
    rfl
  · rw [stored, get?_commit_of_deletes sets, deletes, kept, represents.get?_filter_selects]
    split_ifs
    · rfl
    · exact represents.rows k

/-- A successful UPDATE rewrites the rows that it selects. -/
theorem update (represents : Represents db table c) {given : List (Bytes × SqlValue)}
    {whereClause : Option (WhereExpr σ)} (named : lower name = lower table.name)
    (done : execUpdate name given whereClause (.autocommit db) = .ok result s)
    (sound : SoundStore s.db)
    (covered : ∀ row ∈ c.written table (.update name given whereClause),
    pkText table row ≤ scanStop) :
    Represents s.db table (c.after table (.update name given whereClause)) := by
  obtain ⟨assignments, loaded, batch, assigned, -, load, pks, -, -, rewrites, written⟩ :=
    execUpdate_eq_ok (cacheKeyed_loadAll represents.sound) (represents.effectiveTable rfl rfl named)
      represents.typed done
  obtain ⟨stored, -⟩ := db_of_written rfl written
  obtain rfl := represents.loaded rfl rfl load
  rw [retain_eq_filter] at pks rewrites
  have rewrites : Rewrites table assignments (c.rows.filter (selects table whereClause)) db
      s.db := by
    rw [stored]
    exact rewrites
  have rows : c.written table (.update name given whereClause) =
      (c.rows.filter (selects table whereClause)).map (assign table assignments) := by
    rw [Contents.written, assigned]
  refine represents.of_written sound ?_ (fun row member => ?_) (fun k absent => ?_)
    (fun row member => ?_) fun _ _ => of_get?_filter
  · refine rewrites.rest _ (fun member => ?_) (catalogKey_not_mem _)
    obtain ⟨row, -, same⟩ := mem_map.mp member
    exact catalogKey_ne _ _ same.symm
  · rw [rows] at member
    obtain ⟨old, inside, rfl⟩ := mem_map.mp member
    exact rewrites.new old inside
  · have unwritten : table.rowPrefix ++ k ∉
        (c.rows.filter (selects table whereClause)).map (newKey table assignments) := by
      intro member
      obtain ⟨old, inside, same⟩ := mem_map.mp member
      exact absent _ (rows ▸ mem_map.mpr ⟨old, inside, rfl⟩) (rowKey_eq_iff.mp same)
    rw [kept, represents.get?_filter_selects]
    split_ifs with selected
    · exact rewrites.old _ unwritten selected
    · exact (rewrites.rest _ unwritten selected).trans (represents.rows k)
  · refine ⟨?_, covered row member, ?_⟩
    · rw [rows] at member
      obtain ⟨old, inside, rfl⟩ := mem_map.mp member
      exact pks old inside
    · rw [rows] at member
      obtain ⟨old, inside, rfl⟩ := mem_map.mp member
      have found := represents.mem_rows.mp (mem_filter.mp inside).1
      exact columns_assign (resolveAssignments_eq_ok assigned)
        (represents.good _ old found).2.columns

end Represents

def Statement.isDml : Statement σ → Bool
  | .insert _ _ _ => true
  | .update _ _ _ => true
  | .delete _ _ => true
  | _ => false

/-- A successful statement that writes keys up to the bound of scans keeps the representation. -/
theorem Represents.step (represents : Represents db table c)
    (plain : PlainTable table) {stmt : Statement (Query n)} (ran : stepDb db stmt = some db')
    (dml : stmt.isDml = true) (named : lower stmt.target = lower table.name)
    (covered : ∀ row ∈ c.written table stmt, pkText table row ≤ scanStop) :
    Represents db' table (c.after table stmt) := by
  obtain ⟨result, s, done, rfl, sound⟩ := stepDb_eq_some ran represents.sound
  cases stmt with
  | insert target colNames values => exact (represents.insert plain named done sound).2 covered
  | update target given whereClause => exact represents.update named done sound covered
  | delete target whereClause => exact represents.delete named done sound
  | createTable | dropTable | select => cases dml

def Covered (table : TableDef) (c : Contents) : List (Statement σ) → Prop
  | [] => True
  | stmt :: stmts =>
    (∀ row ∈ c.written table stmt, pkText table row ≤ scanStop) ∧
      Covered table (c.after table stmt) stmts

theorem Represents.run (represents : Represents db table c)
    (plain : PlainTable table) {stmts : List (Statement (Query n))}
    (ran : stmts.foldlM stepDb db = some db')
    (dml : ∀ stmt ∈ stmts, stmt.isDml = true ∧ lower stmt.target = lower table.name)
    (covered : Covered table c stmts) :
    Represents db' table (stmts.foldl (fun c stmt => c.after table stmt) c) := by
  induction stmts generalizing db c with
  | nil =>
    cases ran
    exact represents
  | cons stmt stmts ih =>
    obtain ⟨db₁, first, rest⟩ := Option.bind_eq_some_iff.mp ran
    obtain ⟨writes, named⟩ := dml stmt mem_cons_self
    exact ih (represents.step plain first writes named covered.1) rest
      (fun other member => dml other (mem_cons_of_mem stmt member)) covered.2

namespace Represents

variable {db : TypedStore SqlStored} {c : Contents}

theorem select_star (represents : Represents db table c)
    (folded : ∀ text : Bytes, lower (lower text) = lower text)
    (named : lower name = lower table.name) {n : ℕ} :
    ∃ s, execute (runQuery n) (.select ⟨[.star], name, none⟩) (.autocommit db) =
      .ok (.rows table.columnNames (c.rows.map fun row => table.columnNames.map fun column =>
        rowLookup row (name ++ 46 :: column))) s := by
  have sound : (autocommit db).Sound := represents.sound.session rfl nofun
  have found := represents.effectiveTable (s := .autocommit db) rfl rfl named
  have known := (represents.sound.known_loadAll rfl).insert (sound.has_effectiveTable found)
  have cached : ((autocommit db).withCache ((loadAll db).insert (lower table.name) table)).getTable
    name =
      some table := by
    rw [getTable, named]
    exact (get?_insert _ _ _ _).trans (if_pos rfl)
  have scanned : planRows (σ := Query n) (.autocommit db) table
    (plannedLookup (σ := Query n) table name none) =
      .ok c.rows := by
    have nothing : plannedLookup (σ := Query n) table name none = none := ite_self _
    rw [nothing]
    refine (sound.seqScan table).trans (congrArg Except.ok ?_)
    have entries := represents.tableEntries (s := .autocommit db) rfl rfl
    rw [Session.tableEntries, show (autocommit db).stagedEntries table = [] from rfl, append_nil]
      at entries
    rw [show (autocommit db).stagedEntries table = [] from rfl, map_nil, append_nil, entries,
      map_map, Contents.rows]
    refine map_congr_left fun entry _ => ?_
    rw [represents.typed]
    exact mapValues_id entry.2
  have lookup := persistedTable_of_some found
  have ran := selectFrom_eq (σ := Query n) folded sound known cached [.star] none
  rw [scanned] at ran
  refine ⟨(autocommit db).withCache ((loadAll db).insert (lower table.name) table), ?_⟩
  rw [show execute (runQuery n) (.select ⟨[.star], name, none⟩) (.autocommit db) =
    execSelect (runQuery n) ⟨[.star], name, none⟩ (.autocommit db) from rfl,
    show execSelect (runQuery n) ⟨[.star], name, none⟩ (.autocommit db) = _ from bind_of_ok lookup]
  change ofExcept (selectFrom _ _ _ _) _ = _
  rw [show (autocommit db).cache = loadAll db from rfl, ran]
  have output : outputColumns name table [.star] = table.columnNames.map fun column =>
      (column, name ++ 46 :: column) := flatMap_singleton _ _
  change EStateM.Result.ok (ExecResult.rows ((outputColumns name table [.star]).map Prod.fst)
    (c.rows.map fun row => (outputColumns name table [.star]).map fun column =>
    rowLookup row column.2)) _ = _
  have names : (table.columnNames.map fun column => (column, name ++ 46 :: column)).map Prod.fst =
      table.columnNames := map_map.trans (map_id _)
  rw [output, names]
  simp only [map_map]
  rfl

theorem rowLookup_qualified (represents : Represents db table c) (plain : PlainTable table)
    (undotted : 46 ∉ name) {row : Row} (member : row ∈ c.rows) (column : Bytes) :
    rowLookup row (name ++ 46 :: column) = (row.get? column).join := by
  have columns := (represents.good _ row (represents.mem_rows.mp member)).2.columns
  have absent : row.get? (name ++ 46 :: column) = none := by
    cases found : row.get? (name ++ 46 :: column) with
    | none => rfl
    | some cell => exact absurd (by simp) (plain.undotted _ (columns _ _ found))
  have noDots : (row.entries.any fun entry => entry.1.contains 46) = false := by
    refine any_eq_false.mpr fun entry inside => ?_
    have found : row.get? entry.1 = some entry.2 := get?_eq_some_iff.mpr inside
    simpa using plain.undotted _ (columns _ _ found)
  rw [rowLookup, absent]
  rw [splitDot_append undotted]
  rw [noDots]
  rfl

end Represents

def Contents.cells (table : TableDef) (c : Contents) : List (List Cell) :=
  c.rows.map fun row => table.columnNames.map fun column => (row.get? column).join

/-- A successful DROP TABLE removes the definition and every entry that a scan comes across. -/
theorem execDropTable_eq_ok {ifExists : Bool} {result : ExecResult} {s : Session}
    (found : (autocommit db).effectiveTable name = some table)
    (named : lower name = lower table.name)
    (done : execDropTable name ifExists (.autocommit db) = .ok result s) (key : Bytes) :
    s.db.get? key = if key ∈ (db.range table.rowPrefix (table.rowPrefix ++ scanStop)).map
      Prod.fst ++ [catalogKey name] then none else db.get? key := by
  rw [execDropTable, get_bind, found] at done
  obtain ⟨u, s₁, staged, done⟩ := bind_eq_ok done
  cases staged
  obtain ⟨v, s₂, removed, done⟩ := bind_eq_ok done
  cases done
  have removed : dropTable name _ = _ := removed
  have cached : getTable
      { db := db, cache := (loadAll db).insert (lower table.name) table, pending := none } name =
      some table := by
    rw [getTable, named]
    exact (get?_insert _ _ _ _).trans (if_pos rfl)
  rw [dropTable, get_bind] at removed
  dsimp only [autocommit] at removed
  rw [cached] at removed
  obtain ⟨batch, built, committed⟩ := ofExcept_bind_eq_ok removed
  cases committed
  obtain ⟨sets, deletes⟩ := @deletes_eq_ok _ _ id _ (storage_eq_ok built)
  rw [map_id] at deletes
  refine (get?_commit_of_deletes sets).trans ?_
  rw [deletes]

theorem Represents.drop_create {db₁ db₂ : TypedStore SqlStored}
    (represents : Represents db table c) (named : lower name = lower table.name) {ifExists : Bool}
    {columns : List SqlColumnDef} (dropped : stepDb (n := n) db (.dropTable name ifExists) =
    some db₁) (created : stepDb (n := n) db₁ (.createTable table.name columns false) = some db₂) :
    ∃ table', declaredTable table.name columns = .ok table' ∧ Represents db₂ table' .empty := by
  obtain ⟨result, s, done, rfl, sound₁⟩ := stepDb_eq_some dropped represents.sound
  obtain ⟨result', s', done', rfl, sound₂⟩ := stepDb_eq_some created sound₁
  have removed := execDropTable_eq_ok (represents.effectiveTable rfl rfl named) named done
  have emptied : ∀ k, s.db.get? (table.rowPrefix ++ k) = none := by
    intro k
    rw [removed]
    cases found : c.get? k with
    | none => rw [represents.rows, found, Option.map_none, ite_self]
    | some row =>
      obtain ⟨own, good⟩ := represents.good k row found
      have member : (table.rowPrefix ++ k, .row row) ∈ (autocommit db).storedEntries table := by
        refine Session.mem_storedEntries.mpr ⟨⟨k, rfl, own ▸ good.covered⟩, ?_, rfl⟩
        exact (represents.rows k).trans (congrArg _ found)
      exact if_pos (mem_append_left _ (mem_map_of_mem (mem_filter.mp member).1))
  have done' : execCreateTable table.name columns false (.autocommit s.db) = .ok result' s' := done'
  rw [execCreateTable, get_bind] at done'
  split_ifs at done' with shadowed never
  · exact never.elim
  · cases done'
  obtain ⟨table', declared, done'⟩ := ofExcept_bind_eq_ok done'
  obtain ⟨cache, added⟩ := addTable_of_none (s := .autocommit s.db) rfl table'
  obtain ⟨u, s₁, ran, done'⟩ := bind_eq_ok done'
  cases added.symm.trans ran
  cases done'
  have renamed := declaredTable_eq_ok declared
  refine ⟨table', declared, sound₂, ?_, renamed.2, fun k => ?_, by rintro _ _ ⟨⟩⟩
  · exact (get?_insert _ _ _ _).trans (if_pos rfl)
  · have same : table'.rowPrefix = table.rowPrefix := by
      rw [TableDef.rowPrefix, renamed.1]
      rfl
    refine (get?_insert _ _ _ _).trans ((if_neg fun own => ?_).trans ?_)
    · exact catalogKey_ne _ _ own.symm
    · rw [same]
      exact emptied k

/-- After successful statements with primary keys within the bound of scans, a query of the table
returns the rows written last, an INSERT of a used primary key fails, and a table dropped and
created again is empty. -/
theorem table_holds_written_rows (folded : ∀ text : Bytes, lower (lower text) = lower text)
    {db db' : TypedStore SqlStored} {c : Contents} (represents : Represents db table c)
    (plain : PlainTable table)
    {n : ℕ} {stmts : List (Statement (Query n))} (ran : stmts.foldlM stepDb db = some db')
    (dml : ∀ stmt ∈ stmts, stmt.isDml = true ∧ lower stmt.target = lower table.name)
    (covered : Covered table c stmts) (named : lower name = lower table.name)
    (undotted : 46 ∉ name) :
    (∃ s, execute (runQuery n) (.select ⟨[.star], name, none⟩) (.autocommit db') =
        .ok (.rows table.columnNames ((stmts.foldl (fun c stmt => c.after table stmt) c).cells
          table)) s) ∧
      (∀ colNames values, ∀ row ∈ (stmts.foldl (fun c stmt => c.after table stmt) c).written table
          (.insert (σ := Query n) name colNames values),
        (stmts.foldl (fun c stmt => c.after table stmt) c).get? (pkText table row) ≠ none →
          stepDb (n := n) db' (.insert name colNames values) = none) ∧
      ∀ ifExists columns db₁ db₂, stepDb (n := n) db' (.dropTable name ifExists) = some db₁ →
        stepDb (n := n) db₁ (.createTable table.name columns false) = some db₂ →
        ∃ table' s, declaredTable table.name columns = .ok table' ∧
          execute (runQuery n) (.select ⟨[.star], name, none⟩) (.autocommit db₂) =
            .ok (.rows table'.columnNames []) s := by
  have after := represents.run plain ran dml covered
  refine ⟨?_, fun colNames values row member exists_ => ?_,
    fun ifExists columns db₁ db₂ dropped created => ?_⟩
  · obtain ⟨s, selected⟩ := after.select_star folded named
    refine ⟨s, selected.trans ?_⟩
    rw [cells, map_congr_left fun row member => map_congr_left fun column _ =>
      after.rowLookup_qualified plain undotted member column]
  · cases ran : stepDb db' (.insert name colNames values) with
    | none => rfl
    | some db'' =>
      obtain ⟨result, s, done, rfl, sound⟩ := stepDb_eq_some ran after.sound
      exact absurd ((after.insert plain named done sound).1 row member) exists_
  · obtain ⟨table', declared, empty⟩ := after.drop_create named dropped created
    obtain ⟨s, selected⟩ :=
      empty.select_star folded (named.trans (by rw [(declaredTable_eq_ok declared).1]))
    exact ⟨table', s, declared, selected⟩

namespace Sample

omit [TextFunctions] in
theorem catalog_represents : @Represents asciiText catalog.db t1 .empty := by
  let _ := asciiText
  refine ⟨soundStore_catalog, by decide +kernel, rfl, fun k => ?_, nofun⟩
  cases found : catalog.db.get? (t1.rowPrefix ++ k) with
  | none => rfl
  | some value => exact absurd (catalog_cases found).1.symm (Represents.catalogKey_ne t1.name k)

omit [TextFunctions] in
theorem t1_plain : PlainTable t1 := ⟨by decide, by decide, by decide⟩

end Sample

omit [TextFunctions] in
/-- The row `é` is not returned, and it can be inserted again. -/
theorem accented_row_not_returned : letI := asciiText
    ((stepDb catalog.db (insertKey "é")).map fun db =>
        (answer (runQuery 1 selectAll (.autocommit db)),
          (stepDb db (insertKey "é")).isSome)) =
      some (some (.rows [.ofString "id"] []), true) := by
  decide +kernel

/-- Three rows, of which one gets another primary key and one is deleted. -/
def Sample.edits : List (Statement (Query 0)) :=
  let isKey (value : String) := some (.comparison (.ofString "id") .eq (.text (.ofString value)))
  [insertKey "a", insertKey "b", insertKey "d",
    .update (.ofString "t1") [(.ofString "id", .text (.ofString "c"))] (isKey "b"),
    .delete (.ofString "t1") (isKey "a")]

omit [TextFunctions] in
theorem edited_rows_returned : letI := asciiText
    ∃ db' s, edits.foldlM stepDb catalog.db = some db' ∧ runQuery 1 selectAll (.autocommit db') =
      .ok (.rows [.ofString "id"] [[some (.ofString "c")], [some (.ofString "d")]]) s := by
  let _ := asciiText
  have succeeds : (edits.foldlM stepDb catalog.db).isSome := by decide +kernel
  obtain ⟨db', ran⟩ := Option.isSome_iff_exists.mp succeeds
  have covered : Covered t1 .empty edits :=
    ⟨by decide +kernel, by decide +kernel, by decide +kernel, by decide +kernel, by decide +kernel,
      trivial⟩
  obtain ⟨s, selected⟩ :=
    (@table_holds_written_rows _ _ (.ofString "t1") lower_lower _ _ _ catalog_represents
    t1_plain _ _ ran (by decide) covered rfl (by decide)).1
  refine ⟨db', s, ran, selected.trans ?_⟩
  have cells : Contents.cells t1 (edits.foldl (fun c stmt => Contents.after t1 c stmt) .empty) =
      [[some (.ofString "c")], [some (.ofString "d")]] := by
    decide +kernel
  rw [cells]
  rfl

end OmniKV.Sql
