import OmniKV.Query.Catalog

/-!
# The table that a statement names

A statement finds the definition of a table as the first entry of a scan from its key. If the table
is not there, the scan goes on to tables whose names continue its name: an `INSERT` into `t` writes
rows of `t1`.
-/

namespace OmniKV.Sql

open EStateM

variable [TextFunctions] {σ : Type} {s : Session} {t : Bytes}

namespace Session

def definitionOf (s : Session) (t : Bytes) : Option TableDef :=
  (s.view.get? (catalogKey t)).bind SqlStored.asTable

def Continues (s : Session) (t : Bytes) (other : TableDef) : Prop :=
  s.db.get? (catalogKey other.name) = some (.table other) ∧
    ∃ rest, rest ≠ [] ∧ rest ≤ scanStop ∧ lower other.name = lower t ++ rest

/-- A name is staged or stored, or no stored table continues it. -/
def Unshadowed (s : Session) (t : Bytes) : Prop :=
  s.pendingOverlay.get? (catalogKey t) ≠ none ∨ s.db.get? (catalogKey t) ≠ none ∨
    ∀ other, ¬s.Continues t other

theorem Valid.continues_of_mem (valid : s.Valid) {key : Bytes} {value : SqlStored}
    (absent : s.db.get? (catalogKey t) = none)
    (member : (key, value) ∈ s.db.range (catalogKey t) (catalogKey t ++ scanStop)) :
    ∃ other, value = .table other ∧ s.Continues t other := by
  obtain ⟨above, below, found⟩ := SortedMap.mem_range.mp member
  obtain ⟨rest, rfl, bound⟩ := Bytes.between_append_iff.mp ⟨above, below⟩
  obtain ⟨other, rfl, own⟩ :=
    valid.catalog found ((List.prefix_append _ _).trans (List.prefix_append _ _))
  have more : rest ≠ [] := by
    rintro rfl
    rw [List.append_nil, absent] at found
    cases found
  have name : lower other.name = lower t ++ rest := by
    rw [catalogKey, List.append_assoc] at own
    exact (List.append_cancel_left own).symm
  exact ⟨other, rfl, own ▸ found, rest, more, bound, name⟩

theorem Continues.mem_range {other : TableDef} (continues : s.Continues t other) :
    (catalogKey other.name, .table other) ∈ s.db.range (catalogKey t)
      (catalogKey t ++ scanStop) := by
  obtain ⟨found, rest, -, bound, name⟩ := continues
  have key : catalogKey other.name = catalogKey t ++ rest := by
    rw [catalogKey, catalogKey, name, List.append_assoc]
  obtain ⟨above, below⟩ := Bytes.between_append_iff.mpr ⟨rest, key, bound⟩
  exact SortedMap.mem_range.mpr ⟨above, below, found⟩

/-- The scan finds the definition of the named table exactly if the name is safe. -/
theorem Valid.effectiveTable_eq_iff (valid : s.Valid) :
    s.effectiveTable t = s.definitionOf t ↔ s.Unshadowed t := by
  rw [effectiveTable, definitionOf, get?_view, Unshadowed]
  cases staged : s.pendingOverlay.get? (catalogKey t) with
  | some value => simp
  | none =>
    cases stored : s.db.get? (catalogKey t) with
    | some value =>
      rw [SortedMap.head?_range_of_get? stored (Bytes.le_append _ _)]
      simp
    | none =>
      simp only [ne_eq, not_true_eq_false, false_or, Option.getD_none, Option.bind_none]
      constructor
      · intro nothing other continues
        cases found : s.db.range (catalogKey t) (catalogKey t ++ scanStop) with
        | nil => simpa [found] using continues.mem_range
        | cons first rest =>
          -- Whatever comes first is a definition, and it is returned.
          obtain ⟨shadow, value, -⟩ := valid.continues_of_mem stored
            (show (first.1, first.2) ∈ s.db.range _ _ by rw [found]; exact List.mem_cons_self)
          simp [found, value, SqlStored.asTable] at nothing
      · intro alone
        cases found : s.db.range (catalogKey t) (catalogKey t ++ scanStop) with
        | nil => rfl
        | cons first rest =>
          obtain ⟨shadow, -, continues⟩ := valid.continues_of_mem stored
            (show (first.1, first.2) ∈ s.db.range _ _ by rw [found]; exact List.mem_cons_self)
          exact absurd continues (alone shadow)

end Session

def Statement.target : Statement σ → Bytes
  | .createTable name _ _ => name
  | .dropTable name _ => name
  | .insert table _ _ => table
  | .select query => query.table
  | .update table _ _ => table
  | .delete table _ => table

def SameApart (key : Bytes) (view : TypedStore SqlStored) (s : Session) : Prop :=
  ∀ k, k ≠ key → s.view.get? k = view.get? k

def Confined (s : Session) (stmt : Statement σ)
    (result : EStateM.Result String Session ExecResult) : Prop :=
  match stmt with
  | .createTable name _ _ => SameApart (catalogKey name) s.view result.state
  | .dropTable _ true => ∃ cache, result = .ok (.ok "Table does not exist") { s with cache :=
    cache }
  | _ => ∃ name cache, lower name = lower stmt.target ∧ result = .error (doesNotExist name)
    { s with cache := cache }

theorem persistedTable_of_none (missing : s.effectiveTable t = none) :
    persistedTable t s = .error (doesNotExist t) s := by
  rw [persistedTable, get_bind, missing]
  rfl

/-- The cached spelling of a missing table is looked up under the same key. -/
theorem Session.Valid.resolveDmlTable_of_none (valid : s.Valid)
    (missing : s.effectiveTable t = none) :
    ∃ name, lower name = lower t ∧ resolveDmlTable t s = .error (doesNotExist name) s := by
  rw [resolveDmlTable, get_bind]
  cases cached : s.getTable t with
  | none => exact ⟨t, rfl, persistedTable_of_none missing⟩
  | some table =>
    have name : lower t = lower table.name := valid.cached _ _ cached
    refine ⟨table.name, name.symm, persistedTable_of_none ?_⟩
    rw [Session.effectiveTable_congr name.symm, missing]

omit [TextFunctions] in
theorem SameApart.stageSet {key : Bytes} {view : TypedStore SqlStored} (value : SqlStored)
    (same : SameApart key view s) : SameApart key view (stageSet (key, value) s).state := by
  obtain ⟨db, cache, pending⟩ := s
  cases pending with
  | none => exact same
  | some pending =>
    intro k other
    rw [← same k other]
    cases staged : ((pending.withoutSets key).withoutDeletes key).set key value with
    | ok pending' =>
      have ran : Sql.stageSet (key, value) ⟨db, cache, some pending⟩ =
          .ok () ⟨db, cache, some pending'⟩ := by
        simp only [Sql.stageSet, staged]
      rw [ran]
      change (db.commit pending').get? k = (db.commit pending).get? k
      rw [TypedStore.commit_of_set staged, SortedMap.get?_insert, if_neg other]
    | error err =>
      have ran : Sql.stageSet (key, value) ⟨db, cache, some pending⟩ =
          .error err.text ⟨db, cache, some ((pending.withoutSets key).withoutDeletes key)⟩ := by
        simp only [Sql.stageSet, staged]
      rw [ran]
      exact TypedStore.get?_commit_without other

omit [TextFunctions] in
theorem stageOrCommit_single {pending : TypedBatch SqlStored} (open_ : s.pending = some pending)
    (key : Bytes) (value : SqlStored) :
    stageOrCommit (.single key value) s = stageSet (key, value) s := by
  rw [stageOrCommit, get_bind, open_]
  change ((stageSet (key, value) >>= fun _ => pure ()) >>= fun _ => pure ()) s = _
  rw [bind_pure_unit, bind_pure_unit]

theorem declaredTable_eq_ok {name : Bytes} {cols : List SqlColumnDef} {table : TableDef}
    (declared : declaredTable name cols = .ok table) :
    table.name = name ∧ table.rowFormat = .typed := by
  obtain ⟨columns, -, rest⟩ := Except.bind_eq_ok declared
  split at rest
  · cases rest
    exact ⟨rfl, rfl⟩
  · cases rest

/-- Outside a transaction a new definition is committed. -/
theorem addTable_of_none (auto : s.pending = none) (table : TableDef) : ∃ cache, addTable table s =
      .ok () ⟨s.db.insert (catalogKey table.name) (.table table), cache, none⟩ := by
  obtain ⟨db, cache, pending⟩ := s
  cases auto
  refine ⟨(cache.erase (lower table.name)).insert (lower table.name) table, ?_⟩
  change createTable table ⟨db, cache.erase (lower table.name), none⟩ = _
  rw [createTable, get_bind, if_neg]
  · rfl
  · simp [Session.getTable]

/-- A new definition is all that `CREATE TABLE` writes. -/
theorem SameApart.addTable {view : TypedStore SqlStored} {table : TableDef}
    (same : SameApart (catalogKey table.name) view s) :
    SameApart (catalogKey table.name) view (addTable table s).state := by
  cases mode : s.pending with
  | none =>
    obtain ⟨cache, ran⟩ := addTable_of_none mode table
    rw [ran]
    intro k other
    have before := same k other
    rw [Session.view, mode] at before
    exact (SortedMap.get?_insert _ _ _ _).trans ((if_neg other).trans before)
  | some pending =>
    have staged := same.stageSet (.table table)
    have ran : Sql.addTable table s =
        (Sql.stageSet (catalogKey table.name, .table table) >>= fun _ => insertStaged table) s := by
      rw [Sql.addTable, get_bind, if_pos (by rw [Session.isTransactional, mode]; rfl)]
      change (stageOrCommit (.single (catalogKey table.name) (.table table)) >>= fun _ =>
        insertStaged table) s = _
      change EStateM.bind _ _ s = EStateM.bind _ _ s
      rw [EStateM.bind, EStateM.bind, stageOrCommit_single mode]
    rw [ran]
    cases first : Sql.stageSet (catalogKey table.name, .table table) s with
    | ok u s' =>
      rw [first] at staged
      rw [bind_of_ok first]
      exact staged
    | error err s' =>
      rw [first] at staged
      rw [bind_of_error first]
      exact staged

/-- On a name without a definition in its range no statement reads or writes another table. -/
theorem Session.Valid.confined (valid : s.Valid) (run : σ → Exec ExecResult) (stmt : Statement σ)
    (missing : s.effectiveTable stmt.target = none) : Confined s stmt (execute run stmt s) := by
  obtain ⟨cache, ran, still⟩ := execute_eq run stmt s
  have valid' := still valid
  have missing' : Session.effectiveTable { s with cache := cache } stmt.target = none := missing
  rw [ran]
  cases stmt with
  | createTable name columns ifNotExists =>
    have start : SameApart (catalogKey name) s.view { s with cache := cache } := fun _ _ => rfl
    change SameApart (catalogKey name) s.view (execCreateTable name columns ifNotExists _).state
    rw [execCreateTable, get_bind, show Session.effectiveTable _ name = none from missing']
    cases declared : declaredTable name columns with
    | error err => exact start
    | ok table =>
      rw [← (declaredTable_eq_ok declared).1] at start ⊢
      have added := start.addTable
      change SameApart _ _ ((addTable table >>= fun _ => _) _).state
      cases ran : addTable table { s with cache := cache } with
      | ok u s' =>
        rw [ran] at added
        rw [bind_of_ok ran]
        exact added
      | error err s' =>
        rw [ran] at added
        rw [bind_of_error ran]
        exact added
  | dropTable name ifExists =>
    have gone : execDropTable name ifExists { s with cache := cache } =
        (if ifExists then pure (.ok "Table does not exist") else
        throw (doesNotExist name) : Exec ExecResult)
          { s with cache := cache } := by
      rw [execDropTable, get_bind, show Session.effectiveTable _ name = none from missing']
    cases ifExists with
    | false => exact ⟨name, cache, rfl, gone⟩
    | true => exact ⟨cache, gone⟩
  | insert table columns values | update table assignments whereClause | delete table whereClause =>
    obtain ⟨name, same, failed⟩ := valid'.resolveDmlTable_of_none missing'
    exact ⟨name, cache, same, bind_of_error failed⟩
  | select query =>
    exact ⟨query.table, cache, rfl, bind_of_error (persistedTable_of_none missing')⟩

/-- A statement finds the definition of the table that it names exactly if the name is safe, and on
a safe name without a table it touches no other table. -/
theorem statements_on_named_table (valid : s.Valid) {n : ℕ} (earlier : List (Statement (Query n)))
    (stmt : Statement (Query n)) :
    ((s.after earlier).effectiveTable stmt.target = (s.after earlier).definitionOf stmt.target ↔
        (s.after earlier).Unshadowed stmt.target) ∧
      ((s.after earlier).Unshadowed stmt.target → (s.after earlier).definitionOf stmt.target =
        none → Confined (s.after earlier) stmt (execute (runQuery n) stmt (s.after earlier))) := by
  have still := valid.after earlier
  refine ⟨still.effectiveTable_eq_iff, fun safe missing => still.confined (runQuery n) stmt ?_⟩
  rw [still.effectiveTable_eq_iff.mpr safe, missing]

namespace Sample

def t1 : TableDef := ⟨.ofString "t1", [⟨.ofString "id", .text⟩], .ofString "id", .typed⟩

/-- A database with this table only. -/
def catalog : Session :=
  ⟨SortedMap.empty.insert (@catalogKey asciiText t1.name) (.table t1), .empty, none⟩

/-- `INSERT INTO name VALUES ('a')` -/
def insertInto (name : String) : Statement (Query 0) :=
  .insert (.ofString name) [] [[.text (.ofString "a")]]

omit [TextFunctions] in
theorem catalog_valid : @Session.Valid asciiText catalog := by
  refine @Session.Valid.mk asciiText catalog (fun {key value} found _ => ?_) nofun
  change (SortedMap.empty.insert _ _).get? key = some value at found
  rw [SortedMap.get?_insert] at found
  split_ifs at found with here
  · cases found
    exact ⟨t1, rfl, here⟩
  · cases found

end Sample

open Sample

omit [TextFunctions] in
/-- The name of the missing table `t` leads to `t1`, and an `INSERT` writes a row of `t1`. -/
theorem insert_into_missing_table_writes_other :
    @Session.definitionOf asciiText catalog (.ofString "t") = none ∧
      @Session.effectiveTable asciiText catalog (.ofString "t") = some t1 ∧
      catalog.view.get? (@TableDef.keyOf asciiText t1 (.ofString "a")) = none ∧
      (@execute asciiText _ (@runQuery asciiText 0) (insertInto "t") catalog).state.view.get?
        (@TableDef.keyOf asciiText t1 (.ofString "a")) =
          some (.row (SortedMap.empty.insert (.ofString "id") (some (.ofString "a")))) := by
  decide +kernel

omit [TextFunctions] in
/-- The name `u` is safe, and an `INSERT` into it is refused. -/
theorem insert_into_unknown_table_refused : @Confined asciiText _ catalog (insertInto "u")
      (@execute asciiText _ (@runQuery asciiText 0) (insertInto "u") catalog) :=
  letI := asciiText
  have both := statements_on_named_table catalog_valid [] (insertInto "u")
  both.2 (both.1.mp (by decide +kernel)) (by decide +kernel)

end OmniKV.Sql
