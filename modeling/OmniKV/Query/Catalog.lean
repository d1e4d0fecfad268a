import OmniKV.Query.Statements

/-!
# The catalog as an invariant

Every definition in the catalog is stored under the name that it gives to its table, and the
cache has it under the same name. Rows are stored elsewhere, so no statement changes this.
-/

namespace OmniKV.Sql

open List
open EStateM (Triple)

/-- A computation keeps a property of sessions, however it ends. -/
def Preserves {α : Type} (I : Session → Prop) (x : Exec α) (Q : α → Prop) : Prop :=
  Triple I x (fun a s => Q a ∧ I s) I

namespace Preserves

variable {α β : Type} {I : Session → Prop} {x : Exec α} {f : α → Exec β} {Q : α → Prop} {R : β →
  Prop}

theorem pure {a : α} (post : Q a) : Preserves I (pure a) Q := fun _ start => ⟨post, start⟩

theorem throw (err : String) : Preserves I (throw err : Exec α) Q := fun _ start => start

theorem bind (first : Preserves I x Q) (rest : ∀ a, Q a → Preserves I (f a) R) :
    Preserves I (x >>= f) R :=
  Triple.bind first fun a s start => rest a start.1 s start.2

theorem get_bind {f : Session → Exec β} (rest : ∀ s : Session, I s → Preserves I (f s) R) :
    Preserves I (get >>= f) R := fun s start => rest s start s start

variable {s : Session}

theorem set (start : I s) : Preserves I (set s) fun _ => True := fun _ _ => ⟨trivial, start⟩

theorem ite {c : Prop} [Decidable c] {y : Exec α} (yes : c → Preserves I x Q)
    (no : ¬c → Preserves I y Q) : Preserves I (if c then x else y) Q := Triple.ite yes no

theorem triple (h : Preserves I x Q) : Triple I x (fun _ => I) I :=
  Triple.consequence h (fun _ => id) (fun _ _ => And.right) fun _ => id

theorem state (h : Preserves I x Q) (start : I s) : I (x s).state := Triple.state h.triple start

theorem of_triple (h : Triple I x (fun _ => I) I) : Preserves I x fun _ => True :=
  Triple.consequence h (fun _ => id) (fun _ _ post => ⟨trivial, post⟩) fun _ => id

theorem ofExcept {e : Except String α} (post : ∀ a, e = .ok a → Q a) :
    Preserves I (ofExcept e) Q := by
  cases e with
  | error err => exact throw err
  | ok a => exact pure (post a rfl)

theorem ofExcept_bind {e : Except String α} (rest : ∀ a, e = .ok a → Preserves I (f a) R) :
    Preserves I (Sql.ofExcept e >>= f) R := bind (ofExcept fun _ => id) rest

theorem forM {f : α → Exec Unit} {l : List α} (each : ∀ a ∈ l, Preserves I (f a) fun _ => True) :
    Preserves I (l.forM f) fun _ => True := by
  induction l with
  | nil => exact .pure trivial
  | cons a l ih =>
    exact (each a mem_cons_self).bind fun _ _ => ih fun b member =>
      each b (mem_cons_of_mem a member)

/-- What is kept outside transactions is kept by a statement that has read its mode. -/
theorem of_autocommit (h : Preserves (fun s => I s ∧ s.pending = none) x Q) (start : I s)
    (auto : ¬s.isTransactional = true) : Triple (· = s) x (fun a s => Q a ∧ I s) I := by
  refine Triple.consequence h ?_ (fun _ _ post => ⟨post.1, post.2.1⟩) fun _ => And.left
  rintro _ rfl
  exact ⟨start, by simpa [Session.isTransactional] using auto⟩

end Preserves

variable [TextFunctions] {σ : Type} {s : Session}

namespace Session

def CacheKeyed (cache : SortedMap Bytes TableDef) : Prop :=
  ∀ key table, cache.get? key = some table → key = lower table.name

/-- A catalog has definitions under their own names, in the database and in the cache. -/
structure Valid (s : Session) : Prop where
  catalog : ∀ {key value}, s.db.get? key = some value → catalogPrefix <+: key →
    ∃ table, value = .table table ∧ key = catalogKey table.name
  cached : CacheKeyed s.cache

namespace CacheKeyed

variable {cache : SortedMap Bytes TableDef}

theorem insert (keyed : CacheKeyed cache) (table : TableDef) :
    CacheKeyed (cache.insert (lower table.name) table) := by
  intro key other found
  rw [SortedMap.get?_insert] at found
  split_ifs at found with here
  · cases found
    exact here
  · exact keyed key other found

theorem erase (keyed : CacheKeyed cache) (name : Bytes) : CacheKeyed (cache.erase name) := by
  intro key other found
  rw [SortedMap.get?_erase] at found
  split_ifs at found
  exact keyed key other found

theorem applyTxnOverlay (keyed : CacheKeyed s.cache) :
    CacheKeyed (Sql.applyTxnOverlay s).state.cache := by
  refine List.foldlRecOn (motive := CacheKeyed) s.pendingOverlay.entries _ keyed
    fun cache keyed entry _ => ?_
  split
  · exact keyed
  · exact keyed.erase _
  · split
    · exact keyed.insert _
    · exact keyed

end CacheKeyed

end Session

/-- A statement sees the session with the cache that the staged writes make of it. -/
theorem execute_eq (run : σ → Exec ExecResult) (stmt : Statement σ) (s : Session) :
    ∃ cache, execute run stmt s = executeInner run stmt { s with cache := cache } ∧
      (s.Valid → Session.Valid { s with cache := cache }) := by
  rw [execute, EStateM.get_bind]
  cases mode : s.isTransactional with
  | false => exact ⟨s.cache, rfl, id⟩
  | true => exact ⟨_, rfl, fun valid => ⟨valid.catalog, valid.cached.applyTxnOverlay⟩⟩

/-- `\0T\0`, which the keys of all rows begin with. -/
def rowSpace : Bytes := [0, 84, 0]

omit [TextFunctions] in
theorem rowSpace_prefix_key (table : TableDef) (pk : Bytes) : rowSpace <+: table.rowPrefix ++ pk :=
  (prefix_append rowSpace _).trans (prefix_append _ pk)

/-- What statements write: a definition under its own name, or a row among the rows. -/
def Lawful (key : Bytes) (value : SqlStored) : Prop :=
  (∃ table, value = .table table ∧ key = catalogKey table.name) ∨
    ∃ row, value = .row row ∧ rowSpace <+: key

theorem Lawful.table (table : TableDef) : Lawful (catalogKey table.name) (.table table) :=
  .inl ⟨table, rfl, rfl⟩

theorem Lawful.row (table : TableDef) (pk : Bytes) (row : Row) :
    Lawful (table.rowPrefix ++ pk) (.row row) :=
  .inr ⟨row, rfl, rowSpace_prefix_key table pk⟩

theorem Lawful.of_catalog {key : Bytes} {value : SqlStored} (lawful : Lawful key value)
    (inside : catalogPrefix <+: key) :
    ∃ table, value = .table table ∧ key = catalogKey table.name := by
  obtain definition | ⟨row, -, space⟩ := lawful
  · exact definition
  · obtain ⟨rest, rfl⟩ := space
    obtain ⟨other, same⟩ := inside
    cases same

theorem Lawful.of_rowSpace {key : Bytes} {value : SqlStored} (lawful : Lawful key value)
    (inside : rowSpace <+: key) : ∃ row, value = .row row := by
  obtain ⟨table, -, rfl⟩ | ⟨row, rfl, -⟩ := lawful
  · obtain ⟨other, same⟩ := inside
    cases same
  · exact ⟨row, rfl⟩

/-- A batch that writes definitions and rows only. -/
def LawfulBatch (batch : TypedBatch SqlStored) : Prop :=
  ∀ key value, (key, value) ∈ batch.sets → Lawful key value

namespace LawfulBatch

variable {batch batch' : TypedBatch SqlStored}

theorem new : LawfulBatch .new := nofun

theorem set (lawful : LawfulBatch batch) {key : Bytes} {value : SqlStored}
    (entry : Lawful key value) (done : batch.set key value = .ok batch') : LawfulBatch batch' := by
  intro k v member
  rw [(TypedBatch.set_eq_ok done).1, mem_append, mem_singleton] at member
  obtain old | same := member
  · exact lawful k v old
  · cases same
    exact entry

theorem delete (lawful : LawfulBatch batch) {key : Bytes} (done : batch.delete key = .ok batch') :
    LawfulBatch batch' := by
  intro k v member
  rw [(TypedBatch.delete_eq_ok done).1] at member
  exact lawful k v member

end LawfulBatch

def CatalogSafe (batch : TypedBatch SqlStored) : Prop :=
  ∀ key value, (key, value) ∈ batch.sets → catalogPrefix <+: key →
    ∃ table, value = .table table ∧ key = catalogKey table.name

theorem Session.Valid.commit (valid : s.Valid) {batch : TypedBatch SqlStored}
    (safe : CatalogSafe batch) : Session.Valid { s with db := s.db.commit batch } := by
  refine ⟨fun {key value} found inside => ?_, valid.cached⟩
  rw [TypedStore.get?_commit] at found
  split_ifs at found
  obtain last | ⟨-, old⟩ := Option.or_eq_some_iff.mp found
  · exact safe key value (TypedBatch.mem_of_lastSet? last) inside
  · exact valid.catalog old inside

/-! ## Statements

A statement changes its session in four ways: it puts a definition into the cache or takes one
out, it commits a lawful batch, or it adds lawful writes to the staged ones. -/

/-- A property of sessions that no step of a statement breaks. -/
structure Closed (I : Session → Prop) : Prop where
  caching : ∀ {s}, I s → ∀ table : TableDef,
    I { s with cache := s.cache.insert (lower table.name) table }
  uncaching : ∀ {s}, I s → ∀ name, I { s with cache := s.cache.erase name }
  committing : ∀ {s}, I s → s.pending = none → ∀ {batch}, LawfulBatch batch →
    I { s with db := s.db.commit batch }
  staging : ∀ {s pending}, I s → s.pending = some pending → ∀ {pending' : TypedBatch SqlStored},
    (∀ key value, (key, value) ∈ pending'.sets → (key, value) ∈ pending.sets ∨ Lawful key value) →
    I { s with pending := some pending' }

theorem Session.Valid.closed : Closed Session.Valid where
  caching valid table := ⟨valid.catalog, valid.cached.insert table⟩
  uncaching valid name := ⟨valid.catalog, valid.cached.erase name⟩
  committing valid _ _ lawful :=
    valid.commit fun key value member => (lawful key value member).of_catalog
  staging valid _ _ _ := ⟨valid.catalog, valid.cached⟩

theorem Closed.autocommit {I : Session → Prop} (closed : Closed I) : Closed fun s => I s ∧
    s.pending = none where
  caching start table := ⟨closed.caching start.1 table, start.2⟩
  uncaching start name := ⟨closed.uncaching start.1 name, start.2⟩
  committing start auto _ lawful := ⟨closed.committing start.1 auto lawful, auto⟩
  staging start open_ _ _ := nomatch start.2.symm.trans open_

section

variable {run : σ → Exec ExecResult} {P E : Session → Prop}
  (nested : ∀ query, Triple P (run query) (fun _ => P) E)

include nested

/-- The subqueries of a predicate keep what each of them keeps. -/
theorem triple_resolveSubqueries (expr : WhereExpr σ) :
    Triple P (resolveSubqueries run expr) (fun _ => P) E := by
  induction expr with
  | inSubquery column query =>
    refine Triple.bind (nested query) fun result => ?_
    cases result with
    | rows columns rows | modified count command | ok message => exact .skip _
  | and a b first second | or a b first second =>
    exact Triple.bind first fun _ => Triple.bind second fun _ => .skip _
  | not inner ih => exact Triple.bind ih fun _ => .skip _
  | comparison | isNull | isNotNull | inList => exact .skip _

theorem triple_resolveWhere (whereClause : Option (WhereExpr σ)) :
    Triple P (resolveWhere run whereClause) (fun _ => P) E := by
  cases whereClause with
  | none => exact .skip _
  | some expr => exact Triple.bind (triple_resolveSubqueries nested expr) fun _ => .skip _

end

section

variable {I : Session → Prop} (closed : Closed I)

include closed

theorem preserves_insertStaged (table : TableDef) :
    Preserves I (insertStaged table) fun _ => True :=
  fun _ start => ⟨trivial, closed.caching start table⟩

variable (name : Bytes)

theorem preserves_removeStaged : Preserves I (removeStaged name) fun _ => True :=
  fun _ start => ⟨trivial, closed.uncaching start _⟩

theorem preserves_stageSet {entry : Bytes × SqlStored} (lawful : Lawful entry.1 entry.2) :
    Preserves I (stageSet entry) fun _ => True := by
  intro s start
  obtain ⟨db, cache, pending⟩ := s
  cases pending with
  | none => exact ⟨trivial, start⟩
  | some pending =>
    cases staged : ((pending.withoutSets entry.1).withoutDeletes entry.1).set entry.1 entry.2 with
    | ok pending' =>
      simp only [stageSet, staged]
      refine ⟨trivial, closed.staging start rfl fun key value member => ?_⟩
      rw [(TypedBatch.set_eq_ok staged).1, mem_append, mem_singleton] at member
      obtain old | same := member
      · exact .inl (mem_of_mem_filter old)
      · cases same
        exact .inr lawful
    | error err =>
      simp only [stageSet, staged]
      exact closed.staging start rfl fun key value member => .inl (mem_of_mem_filter member)

theorem preserves_stageDelete (key : Bytes) : Preserves I (stageDelete key) fun _ => True := by
  intro s start
  obtain ⟨db, cache, pending⟩ := s
  cases pending with
  | none => exact ⟨trivial, start⟩
  | some pending =>
    cases staged : (pending.withoutSets key).delete key with
    | ok pending' =>
      simp only [stageDelete, staged]
      refine ⟨trivial, closed.staging start rfl fun k v member => .inl ?_⟩
      rw [(TypedBatch.delete_eq_ok staged).1] at member
      exact mem_of_mem_filter member
    | error err =>
      simp only [stageDelete, staged]
      exact closed.staging start rfl fun k v member => .inl (mem_of_mem_filter member)

variable {batch : TypedBatch SqlStored} {table : TableDef} {run : σ → Exec ExecResult}

theorem preserves_stageOrCommit (lawful : LawfulBatch batch) : Preserves I (stageOrCommit batch)
    fun _ => True := by
  refine .get_bind fun s start => ?_
  cases mode : s.pending with
  | none => exact .set (mode ▸ closed.committing start mode lawful)
  | some pending =>
    exact (Preserves.forM fun entry member =>
      preserves_stageSet closed (lawful entry.1 entry.2 member)).bind fun _ _ =>
        .forM fun key _ => preserves_stageDelete closed key

theorem preserves_persistedTable : Preserves I (persistedTable name) fun _ => True := by
  refine .get_bind fun s _ => ?_
  cases s.effectiveTable name with
  | none => exact .throw _
  | some table => exact (preserves_insertStaged closed table).bind fun _ _ => .pure trivial

theorem preserves_resolveDmlTable : Preserves I (resolveDmlTable name) fun _ => True := by
  refine .get_bind fun s _ => ?_
  cases s.getTable name with
  | none => exact preserves_persistedTable closed name
  | some table => exact preserves_persistedTable closed table.name

omit closed in
theorem LawfulBatch.migrateEntry {acc acc' : TypedBatch SqlStored × SortedMap Bytes Bytes}
    {entry : Bytes × SqlStored} (lawful : LawfulBatch acc.1)
    (done : migrateEntry table acc entry = .ok acc') : LawfulBatch acc'.1 := by
  rw [Sql.migrateEntry] at done
  split at done
  · cases done
  · dsimp only at done
    split at done
    · cases done
    · obtain ⟨batch, built, rfl⟩ := Except.map_eq_ok done
      split_ifs at built
      · obtain ⟨middle, first, second⟩ := Except.bind_eq_ok built
        exact (lawful.delete (storage_eq_ok first)).set (.row _ _ _) (storage_eq_ok second)
      · exact lawful.set (.row _ _ _) (storage_eq_ok built)
      · cases built
        exact lawful

theorem preserves_startBatch (table : TableDef) : Preserves I (startBatch table) LawfulBatch := by
  refine Preserves.ite (fun _ => Preserves.get_bind fun s _ => ?_) fun _ => .pure .new
  cases s.effectiveTable table.name with
  | none => exact .throw _
  | some persisted =>
    refine Preserves.ite (fun _ => (preserves_insertStaged closed persisted).bind fun _ _ =>
      .pure .new) fun _ => ?_
    refine Preserves.bind (.ofExcept (Q := fun acc => LawfulBatch acc.1) fun acc done => ?_)
      fun acc lawful => .ofExcept fun batch done =>
        lawful.set (.table { table with rowFormat := .typed }) (storage_eq_ok done)
    exact Except.foldlM_induction (I := fun _ acc => LawfulBatch acc.1) done .new
      fun _ lawful first => lawful.migrateEntry first

theorem preserves_finishMigration (table : TableDef) :
    Preserves I (finishMigration table) fun _ => True :=
  Preserves.ite (fun _ => preserves_insertStaged closed _) fun _ => .pure trivial

theorem preserves_writeBatch (table : TableDef) (lawful : LawfulBatch batch) :
    Preserves I (writeBatch table batch) fun _ => True :=
  Preserves.ite (fun _ => .pure trivial) fun _ =>
    (preserves_stageOrCommit closed lawful).bind fun _ _ => preserves_finishMigration closed table

theorem preserves_execInsert (tableName : Bytes) (colNames : List Bytes)
    (values : List (List SqlValue)) :
    Preserves I (execInsert tableName colNames values) fun _ => True := by
  refine (preserves_resolveDmlTable closed tableName).bind fun table _ => ?_
  refine .ofExcept_bind fun columns _ => ?_
  refine .ofExcept_bind fun _ _ => ?_
  refine .get_bind fun s _ => ?_
  refine .ofExcept_bind fun rows _ => ?_
  refine .ofExcept_bind fun occupied _ => ?_
  refine (preserves_startBatch closed table).bind fun batch lawful => ?_
  refine .ofExcept_bind fun acc done => ?_
  have lawful := Except.foldlM_induction (I := fun _ acc => LawfulBatch acc.1) done lawful
      fun _ lawful first => lawful.set (.row _ _ _) (insertRow_eq_ok first).2.2.1
  exact (preserves_stageOrCommit closed lawful).bind fun _ _ =>
      (preserves_finishMigration closed table).bind fun _ _ => .pure trivial

omit closed in
theorem LawfulBatch.updateRow {assignments : List (Bytes × SqlValue)}
    {acc acc' : TypedBatch SqlStored × List Bytes} {entry : Row × Bytes}
    (lawful : LawfulBatch acc.1)
    (done : updateRow table assignments acc entry = .ok acc') : LawfulBatch acc'.1 := by
  obtain ⟨pk, middle, -, -, moved, built, -⟩ := updateRow_eq_ok done
  obtain ⟨-, rfl⟩ | ⟨-, deleted⟩ := moved
  · exact lawful.set (.row _ _ _) built
  · exact (lawful.delete deleted).set (.row _ _ _) built

theorem preserves_execUpdate (tableName : Bytes) (assignments : List (Bytes × SqlValue))
    (whereClause : Option (WhereExpr σ)) :
    Preserves I (execUpdate tableName assignments whereClause) fun _ => True := by
  refine (preserves_resolveDmlTable closed tableName).bind fun table _ => ?_
  refine .get_bind fun s _ => ?_
  refine .ofExcept_bind fun _ _ => ?_
  refine .ofExcept_bind fun assignments _ => ?_
  refine .ofExcept_bind fun loaded _ => ?_
  refine .ofExcept_bind fun keys _ => ?_
  refine (preserves_startBatch closed table).bind fun batch lawful => ?_
  refine .ofExcept_bind fun acc done => ?_
  have lawful := Except.foldlM_induction (I := fun _ acc => LawfulBatch acc.1) done lawful
      fun _ lawful first => lawful.updateRow first
  exact (preserves_writeBatch closed table lawful).bind fun _ _ => .pure trivial

theorem preserves_execDelete (tableName : Bytes) (whereClause : Option (WhereExpr σ)) :
    Preserves I (execDelete tableName whereClause) fun _ => True := by
  refine (preserves_resolveDmlTable closed tableName).bind fun table _ => ?_
  refine .get_bind fun s _ => ?_
  refine .ofExcept_bind fun _ _ => ?_
  refine .ofExcept_bind fun loaded _ => ?_
  refine (preserves_startBatch closed table).bind fun batch lawful => ?_
  refine .ofExcept_bind fun batch done => ?_
  have lawful := Except.foldlM_induction (I := fun _ batch => LawfulBatch batch)
    (storage_eq_ok done) lawful
      fun _ lawful first => lawful.delete first
  exact (preserves_writeBatch closed table lawful).bind fun _ _ => .pure trivial

omit closed in
theorem LawfulBatch.of_deletes {keys : List Bytes}
    (done : keys.foldlM TypedBatch.delete .new = .ok batch) : LawfulBatch batch :=
  Except.foldlM_induction (I := fun _ batch => LawfulBatch batch) done .new
    fun _ lawful first => lawful.delete first

/-- The catalog itself creates and drops tables outside transactions only. -/
theorem preserves_createTable (table : TableDef) :
    Preserves (fun s => I s ∧ s.pending = none) (createTable table) fun _ => True := by
  refine .get_bind fun s start => .ite (fun _ => .throw _) fun _ => ?_
  refine .ofExcept_bind fun batch done => ?_
  have lawful := LawfulBatch.new.set (.table table) (storage_eq_ok done)
  exact (Preserves.set (closed.autocommit.committing start start.2 lawful)).bind fun _ _ =>
      preserves_insertStaged closed.autocommit table

theorem preserves_dropTable : Preserves (fun s => I s ∧ s.pending = none) (dropTable name)
    fun _ => True := by
  refine .get_bind fun s start => ?_
  cases s.getTable name with
  | none => exact .throw _
  | some table =>
    refine .ofExcept_bind fun batch done => ?_
    have lawful := LawfulBatch.of_deletes (storage_eq_ok done)
    exact (Preserves.set (closed.autocommit.committing start start.2 lawful)).bind fun _ _ =>
        preserves_removeStaged closed.autocommit name

theorem preserves_addTable (table : TableDef) : Preserves I (addTable table) fun _ => True := by
  intro s start
  rw [addTable, EStateM.get_bind]
  split_ifs with mode
  · refine Preserves.ofExcept_bind (fun batch done => ?_) s start
    have lawful := LawfulBatch.new.set (.table table) (storage_eq_ok done)
    exact (preserves_stageOrCommit closed lawful).bind fun _ _ =>
      preserves_insertStaged closed table
  · exact ((preserves_removeStaged closed.autocommit table.name).bind fun _ _ =>
      preserves_createTable closed table).of_autocommit start mode s rfl

theorem preserves_removeTable (table : TableDef) :
    Preserves I (removeTable name table) fun _ => True := by
  intro s start
  rw [removeTable, EStateM.get_bind]
  split_ifs with mode
  · refine Preserves.ofExcept_bind (fun rows _ => ?_) s start
    refine .ofExcept_bind fun batch done => ?_
    have lawful := LawfulBatch.of_deletes (storage_eq_ok done)
    exact (preserves_stageOrCommit closed lawful).bind fun _ _ => preserves_removeStaged closed name
  · exact (preserves_dropTable closed name).of_autocommit start mode s rfl

theorem preserves_execCreateTable (cols : List SqlColumnDef) (ifNotExists : Bool) :
    Preserves I (execCreateTable name cols ifNotExists) fun _ => True := by
  refine .get_bind fun s _ => .ite (fun _ => ?_) fun _ => ?_
  · exact .ite (fun _ => .pure trivial) fun _ => .throw _
  refine .ofExcept_bind fun table _ => ?_
  exact (preserves_addTable closed table).bind fun _ _ => .pure trivial

theorem preserves_execDropTable (ifExists : Bool) :
    Preserves I (execDropTable name ifExists) fun _ => True := by
  refine .get_bind fun s _ => ?_
  cases s.effectiveTable name with
  | none => exact .ite (fun _ => .pure trivial) fun _ => .throw _
  | some table =>
    exact (preserves_insertStaged closed table).bind fun _ _ =>
      (preserves_removeTable closed name table).bind fun _ _ => .pure trivial

omit closed in
theorem preserves_execSelect {query : Select σ} (lookup : Preserves I (persistedTable query.table)
    fun _ => True) (nested : ∀ query, Preserves I (run query) fun _ => True) :
    Preserves I (execSelect run query) fun _ => True := by
  have resolved : Preserves I (resolveWhere run query.whereClause) fun _ => True :=
    .of_triple (triple_resolveWhere (fun query => (nested query).triple) query.whereClause)
  exact lookup.bind fun _ _ => resolved.bind fun whereClause _ =>
    Preserves.get_bind fun s _ => .ofExcept fun _ _ => trivial

theorem preserves_executeInner (nested : ∀ query, Preserves I (run query) fun _ => True)
    (stmt : Statement σ) : Preserves I (executeInner run stmt) fun _ => True := by
  cases stmt with
  | createTable name columns ifNotExists =>
    exact preserves_execCreateTable closed name columns ifNotExists
  | dropTable name ifExists => exact preserves_execDropTable closed name ifExists
  | insert table columns values => exact preserves_execInsert closed table columns values
  | select query => exact preserves_execSelect (preserves_persistedTable closed query.table) nested
  | update table assignments whereClause =>
    exact preserves_execUpdate closed table assignments whereClause
  | delete table whereClause => exact preserves_execDelete closed table whereClause

theorem Closed.applyTxnOverlay {s : Session} (start : I s) : I (Sql.applyTxnOverlay s).state := by
  refine List.foldlRecOn (motive := fun cache => I { s with cache :=
    cache }) s.pendingOverlay.entries _ start fun cache start entry _ => ?_
  split
  · exact start
  · exact closed.uncaching start _
  · split
    · exact closed.caching start _
    · exact start

/-- No statement breaks a property that its steps keep, whether it succeeds or fails. -/
theorem preserves_execute (nested : ∀ query, Preserves I (run query) fun _ => True)
    (stmt : Statement σ) : Preserves I (execute run stmt) fun _ => True := by
  intro s start
  rw [execute, EStateM.get_bind]
  cases s.isTransactional with
  | false => exact preserves_executeInner closed nested stmt s start
  | true => exact preserves_executeInner closed nested stmt _ (closed.applyTxnOverlay start)

theorem preserves_runQuery (n : ℕ) (query : Query n) :
    Preserves I (runQuery n query) fun _ => True := by
  induction n with
  | zero => nomatch query
  | succ n ih => exact preserves_execute closed ih (.select query)

end

/-- No statement breaks the catalog, whether it succeeds or fails. -/
theorem keeps_execute {n : ℕ} (stmt : Statement (Query n)) :
    Preserves Session.Valid (execute (runQuery n) stmt) fun _ => True :=
  preserves_execute Session.Valid.closed (preserves_runQuery Session.Valid.closed n) stmt

def Session.after (s : Session) {n : ℕ} (stmts : List (Statement (Query n))) : Session :=
  stmts.foldl (fun s stmt => (execute (runQuery n) stmt s).state) s

/-- The catalog is valid along every run. -/
theorem Session.Valid.after (valid : s.Valid) {n : ℕ} (stmts : List (Statement (Query n))) :
    (s.after stmts).Valid := by
  induction stmts generalizing s with
  | nil => exact valid
  | cons stmt stmts ih => exact ih (Preserves.state (keeps_execute stmt) valid)

end OmniKV.Sql
