import OmniKV.Query.Catalog

/-!
# What successful statements do

For a table of the current row format: the definition that is used, the rows that are loaded,
and the batch that a successful statement writes. UPDATE assigns constants, so it changes the
primary key of one row at most, and its sets and deletes never meet at a key.
-/

namespace OmniKV.Sql

open List EStateM TypedBatch Except

variable [TextFunctions] {σ : Type} {s s' : Session} {table : TableDef} {name : Bytes}

def Session.caching (s : Session) (table : TableDef) : Session :=
  { s with cache := s.cache.insert (lower table.name) table }

theorem persistedTable_eq_ok (done : persistedTable name s = .ok table s') :
    s.effectiveTable name = some table ∧ s' = s.caching table := by
  rw [persistedTable, get_bind] at done
  cases found : s.effectiveTable name with
  | none =>
    rw [found] at done
    cases done
  | some persisted =>
    rw [found] at done
    cases done
    exact ⟨rfl, rfl⟩

theorem resolveDmlTable_eq_ok (keyed : Session.CacheKeyed s.cache)
    (done : resolveDmlTable name s = .ok table s') :
    s.effectiveTable name = some table ∧ s' = s.caching table := by
  rw [resolveDmlTable, get_bind] at done
  cases cached : s.getTable name with
  | none =>
    rw [cached] at done
    exact persistedTable_eq_ok done
  | some old =>
    rw [cached] at done
    obtain ⟨found, rfl⟩ := persistedTable_eq_ok done
    rw [Session.effectiveTable_congr (keyed _ _ cached).symm] at found
    exact ⟨found, rfl⟩

/-- A statement that succeeds goes on with the definition that the session sees, which is cached
then. -/
theorem of_resolveDmlTable {α : Type} {a : α} {rest : TableDef → Exec α}
    (keyed : Session.CacheKeyed s.cache)
    (found : s.effectiveTable name = some table)
    (done : (resolveDmlTable name >>= rest) s = .ok a s') :
    rest table (s.caching table) = .ok a s' := by
  obtain ⟨table', s₁, resolved, done⟩ := bind_eq_ok done
  obtain ⟨found', rfl⟩ := resolveDmlTable_eq_ok keyed resolved
  obtain rfl : table' = table := Option.some.inj (found'.symm.trans found)
  exact done

variable {rows : List Row} {batch : TypedBatch SqlStored} {result : ExecResult}
  (typed : table.rowFormat = .typed)

include typed

omit [TextFunctions] in
theorem loadTableRows_eq_ok (done : s.loadTableRows table = .ok rows) :
    (s.tableEntries table).map Prod.snd = rows.map .row := by
  rw [← forall₂_eq_eq_eq, forall₂_map_left_iff, forall₂_map_right_iff]
  rw [Session.loadTableRows, typed] at done
  exact (mapM_eq_ok done).imp fun _ _ decoded =>
    deserializeRowChecked_typed.mp (mapError_eq_ok decoded)

/-- A table of the current format has nothing to convert. -/
theorem startBatch_typed : startBatch table = pure .new := by
  rw [startBatch, typed]
  rfl

theorem finishMigration_typed : finishMigration table = pure () := by
  rw [finishMigration, typed]
  rfl

theorem writeBatch_eq_ok (done : writeBatch table batch s = .ok () s') : s.Written s' batch := by
  rw [writeBatch, finishMigration_typed typed] at done
  split_ifs at done with empty
  · cases done
    obtain ⟨sets, deletes⟩ : batch.sets = [] ∧ batch.deletes = [] := by
      simpa [TypedBatch.isEmpty] using empty
    exact ⟨by rw [TypedStore.commit, sets, deletes]; rfl, rfl, rfl, fun _ => rfl⟩
  · obtain ⟨u, s₁, staged, last⟩ := bind_eq_ok done
    cases last
    exact stageOrCommit_eq_ok staged

omit typed

omit [TextFunctions] in
theorem deletes_eq_ok {α : Type} {key : α → Bytes} {l : List α}
    (done : l.foldlM (fun (batch : TypedBatch SqlStored) a => batch.delete (key a)) .new =
    .ok batch) : batch.sets = [] ∧ batch.deletes = l.map key := by
  refine foldlM_induction (I := fun l batch => batch.sets = [] ∧ batch.deletes = l.map key) done
    ⟨rfl, rfl⟩ fun _ before first => ?_
  obtain ⟨sets, deletes⟩ := delete_eq_ok first
  exact ⟨sets.trans before.1, by rw [deletes, before.2, map_append]; rfl⟩

/-- The key of a row. -/
def rowKey (table : TableDef) (row : Row) : Bytes := table.keyOf ((table.pkOf row).getD [])

theorem execDelete_eq_ok (keyed : Session.CacheKeyed s.cache) {whereClause : Option (WhereExpr σ)}
    (found : s.effectiveTable name = some table) (typed : table.rowFormat = .typed)
    (done : execDelete name whereClause s = .ok result s') :
    ∃ loaded batch, s.loadTableRows table = .ok loaded ∧
      validateWhereColumnsOf (s.caching table) name whereClause = .ok () ∧ batch.sets = [] ∧
      batch.deletes = (retain (columnTypesOfTable table) whereClause loaded).map (rowKey table) ∧
      (s.caching table).Written s' batch := by
  have done := of_resolveDmlTable keyed found done
  obtain ⟨u, checked, done⟩ := ofExcept_bind_eq_ok done
  obtain ⟨loaded, load, done⟩ := ofExcept_bind_eq_ok done
  rw [startBatch_typed typed, pure_bind] at done
  obtain ⟨batch, built, done⟩ := ofExcept_bind_eq_ok done
  obtain ⟨v, s₂, written, done⟩ := bind_eq_ok done
  cases done
  obtain ⟨sets, deletes⟩ := deletes_eq_ok (storage_eq_ok built)
  exact ⟨loaded, batch, load, checked, sets, deletes, writeBatch_eq_ok typed written⟩

theorem rowKeys_eq_ok {refusing : String} {keys : List Bytes}
    (done : rowKeys table refusing rows = .ok keys) :
    keys = rows.map (rowKey table) ∧ ∀ row ∈ rows, (table.pkOf row).isSome := by
  have each := mapM_eq_ok done
  clear done
  induction each with
  | nil => exact ⟨rfl, nofun⟩
  | @cons row key rows keys first _ ih =>
    cases pk : table.pkOf row with
    | none =>
      rw [pk] at first
      cases first
    | some value =>
      rw [pk] at first
      cases first
      refine ⟨by rw [ih.1, map_cons, rowKey, pk]; rfl, fun other member => ?_⟩
      obtain rfl | later := mem_cons.mp member
      · rw [pk]
        rfl
      · exact ih.2 other later

def insertedRows (table : TableDef) (columns : List Bytes) (values : List (List SqlValue)) :
    List (Bytes × Row) :=
  values.map fun rowVals =>
    (table.keyOf (buildRow table columns rowVals).2, (buildRow table columns rowVals).1)

theorem execInsert_eq_ok (keyed : Session.CacheKeyed s.cache) {colNames : List Bytes}
    {values : List (List SqlValue)} (found : s.effectiveTable name = some table)
    (typed : table.rowFormat = .typed) (done : execInsert name colNames values s = .ok result s') :
    ∃ columns loaded batch, insertColumns table colNames = .ok columns ∧
      checkCounts columns values = .ok () ∧ s.loadTableRows table = .ok loaded ∧
      batch.sets = (insertedRows table columns values).map (fun entry => (entry.1, .row entry.2)) ∧
      batch.deletes = [] ∧ ((insertedRows table columns values).map Prod.fst).Nodup ∧
      (∀ rowVals ∈ values, (buildRow table columns rowVals).2 ≠ []) ∧
      (∀ entry ∈ insertedRows table columns values, entry.1 ∉ loaded.map (rowKey table)) ∧
      (s.caching table).Written s' batch := by
  have done := of_resolveDmlTable keyed found done
  obtain ⟨columns, named, done⟩ := ofExcept_bind_eq_ok done
  obtain ⟨u, counted, done⟩ := ofExcept_bind_eq_ok done
  obtain ⟨loaded, load, done⟩ := ofExcept_bind_eq_ok done
  obtain ⟨occupied, keys, done⟩ := ofExcept_bind_eq_ok done
  rw [startBatch_typed typed, finishMigration_typed typed, pure_bind] at done
  obtain ⟨acc, built, done⟩ := ofExcept_bind_eq_ok done
  obtain ⟨v, s₂, written, done⟩ := bind_eq_ok done
  cases done
  obtain ⟨rfl, -⟩ := rowKeys_eq_ok keys
  have all := foldlM_induction (I := fun values acc =>
      acc.1.sets = (insertedRows table columns values).map (fun entry => (entry.1, .row entry.2)) ∧
      acc.1.deletes = [] ∧
      acc.2 = ((insertedRows table columns values).map Prod.fst).reverse ++ loaded.map
      (rowKey table) ∧ ((insertedRows table columns values).map Prod.fst).Nodup ∧
      (∀ rowVals ∈ values, (buildRow table columns rowVals).2 ≠ []) ∧
      ∀ entry ∈ insertedRows table columns values, entry.1 ∉ loaded.map (rowKey table))
    built ⟨rfl, rfl, rfl, .nil, nofun, nofun⟩ ?_
  · obtain ⟨sets, deletes, -, nodup, filled, fresh⟩ := all
    exact ⟨columns, loaded, acc.1, named, counted, load, sets, deletes, nodup, filled, fresh,
      stageOrCommit_eq_ok written⟩
  · rintro before rowVals acc acc' - ⟨sets, deletes, occupied, nodup, filled, fresh⟩ first
    obtain ⟨nonempty, free, set, more⟩ := insertRow_eq_ok first
    obtain ⟨sets', deletes'⟩ := set_eq_ok set
    have extend : insertedRows table columns (before ++ [rowVals]) =
      insertedRows table columns before ++
          [(table.keyOf (buildRow table columns rowVals).2,
          (buildRow table columns rowVals).1)] := by
      rw [insertedRows, map_append]
      rfl
    rw [occupied, mem_append, mem_reverse, not_or] at free
    rw [extend]
    refine ⟨?_, deletes'.trans deletes, ?_, ?_, ?_, ?_⟩
    · rw [sets', sets, map_append]
      rfl
    · rw [more, occupied, map_append, reverse_append]
      rfl
    · rw [map_append]
      exact nodup.append (nodup_singleton _) (disjoint_singleton.mpr free.1)
    · exact forall_mem_append.mpr ⟨filled, forall_mem_singleton.mpr nonempty⟩
    · exact forall_mem_append.mpr ⟨fresh, forall_mem_singleton.mpr free.2⟩

/-- Assignments leave every primary key as it is, or make all of them the same. -/
theorem pkOf_assign_cases (table : TableDef) (assignments : List (Bytes × SqlValue)) :
    (∀ row, table.pkOf (assign table assignments row) = table.pkOf row) ∨
      ∃ cell, ∀ row, table.pkOf (assign table assignments row) = cell := by
  induction assignments with
  | nil => exact .inl fun _ => rfl
  | cons entry rest ih =>
    obtain keeps | ⟨cell, constant⟩ := ih
    · by_cases here : table.primaryKey = entry.1
      · refine .inr ⟨storedCell (table.columns.find? fun c => c.name = entry.1) entry.2,
          fun row => ?_⟩
        refine (keeps _).trans ?_
        rw [TableDef.pkOf, SortedMap.get?_insert, if_pos here]
        rfl
      · refine .inl fun row => (keeps _).trans ?_
        rw [TableDef.pkOf, SortedMap.get?_insert, if_neg here]
        rfl
    · exact .inr ⟨cell, fun row => constant _⟩

def newKey (table : TableDef) (assignments : List (Bytes × SqlValue)) (row : Row) : Bytes :=
  rowKey table (assign table assignments row)

structure Rewrites (table : TableDef) (assignments : List (Bytes × SqlValue)) (rows : List Row)
    (view view' : TypedStore SqlStored) : Prop where
  new : ∀ row ∈ rows, view'.get? (newKey table assignments row) =
    some (.row (assign table assignments row))
  old : ∀ key, key ∉ rows.map (newKey table assignments) → key ∈ rows.map (rowKey table) →
    view'.get? key = none
  rest : ∀ key, key ∉ rows.map (newKey table assignments) → key ∉ rows.map (rowKey table) →
    view'.get? key = view.get? key

theorem Rewrites.of_batch {assignments : List (Bytes × SqlValue)} {view : TypedStore SqlStored}
    (sets : batch.sets = rows.map fun row => (newKey table assignments row,
    .row (assign table assignments row))) (deletes : batch.deletes =
      (rows.filter fun row => rowKey table row ≠ newKey table assignments row).map (rowKey table))
    (nodup : (rows.map (newKey table assignments)).Nodup) :
    Rewrites table assignments rows view (view.commit batch) := by
  have unset : ∀ {key}, key ∉ rows.map (newKey table assignments) →
      (view.commit batch).get? key = if key ∈ batch.deletes then none else view.get? key :=
    fun absent => TypedStore.get?_commit_of_unset sets fun row inside same =>
      absent (mem_map.mpr ⟨row, inside, same⟩)
  refine ⟨fun row member => ?_, fun key absent old => ?_, fun key absent other => ?_⟩
  · have kept : newKey table assignments row ∉ batch.deletes := by
      rw [deletes]
      intro deleted
      obtain ⟨moved, inside, same⟩ := mem_map.mp deleted
      obtain ⟨inside, differs⟩ := mem_filter.mp inside
      refine of_decide_eq_true differs ?_
      obtain keeps | ⟨cell, constant⟩ := pkOf_assign_cases table assignments
      · rw [newKey, rowKey, rowKey, keeps]
      · -- Both rows get the same primary key, so they are one row.
        rw [same, newKey, newKey, rowKey, rowKey, constant, constant]
    exact TypedStore.get?_commit_map sets nodup member kept
  · have deleted : key ∈ batch.deletes := by
      obtain ⟨row, member, rfl⟩ := mem_map.mp old
      rw [deletes]
      refine mem_map.mpr ⟨row, mem_filter.mpr ⟨member, decide_eq_true fun same => ?_⟩, rfl⟩
      exact absent (mem_map.mpr ⟨row, member, same.symm⟩)
    rw [unset absent, if_pos deleted]
  · have kept : key ∉ batch.deletes := by
      rw [deletes]
      intro deleted
      obtain ⟨row, inside, same⟩ := mem_map.mp deleted
      exact other (mem_map.mpr ⟨row, (mem_filter.mp inside).1, same⟩)
    rw [unset absent, if_neg kept]

theorem foldlM_updateRow {assignments : List (Bytes × SqlValue)} {available : List Bytes}
    {acc : TypedBatch SqlStored × List Bytes}
    (built : (rows.zip (rows.map (rowKey table))).foldlM (updateRow table assignments) (.new,
    available) = .ok acc) :
    (acc.1.sets = rows.map fun row => (newKey table assignments row,
      .row (assign table assignments row))) ∧
      acc.1.deletes = (rows.filter fun row => rowKey table row ≠ newKey table assignments row).map
        (rowKey table) ∧
      (rows.map (newKey table assignments)).Nodup ∧ ∀ row ∈ rows,
      (table.pkOf (assign table assignments row)).isSome ∧
        newKey table assignments row ∉ available := by
  have pairs : rows.zip (rows.map (rowKey table)) = rows.map fun row =>
      (row, rowKey table row) := by
    rw [zip_eq_zipWith, zipWith_map_right, zipWith_self]
  rw [pairs, foldlM_map] at built
  have all := foldlM_induction (I := fun rows acc =>
      (acc.1.sets = rows.map fun row => (newKey table assignments row,
        .row (assign table assignments row))) ∧
      acc.1.deletes = (rows.filter fun row => rowKey table row ≠ newKey table assignments row).map
      (rowKey table) ∧ acc.2 = (rows.map (newKey table assignments)).reverse ++ available ∧
      (rows.map (newKey table assignments)).Nodup ∧ ∀ row ∈ rows,
      (table.pkOf (assign table assignments row)).isSome ∧
        newKey table assignments row ∉ available) built ⟨rfl, rfl, rfl, .nil, nofun⟩ ?_
  · exact ⟨all.1, all.2.1, all.2.2.2⟩
  · rintro before row acc acc' - ⟨sets, deletes, taken, nodup, free⟩ first
    obtain ⟨pk, middle, key, unused, moved, set, more⟩ := updateRow_eq_ok first
    have same : table.keyOf pk = newKey table assignments row := by rw [newKey, rowKey, key]; rfl
    rw [same] at unused moved set more
    obtain ⟨sets', deletes'⟩ := set_eq_ok set
    have middles : middle.sets = acc.1.sets ∧ middle.deletes =
        acc.1.deletes ++ ([row].filter fun row => rowKey table row ≠ newKey table assignments
        row).map
          (rowKey table) := by
      obtain ⟨stays, rfl⟩ | ⟨moves, deleted⟩ := moved
      · simp [show rowKey table row = newKey table assignments row from stays]
      · rw [(delete_eq_ok deleted).1, (delete_eq_ok deleted).2]
        simp [show rowKey table row ≠ newKey table assignments row from moves]
    rw [taken, mem_append, mem_reverse, not_or] at unused
    refine ⟨?_, ?_, ?_, ?_, ?_⟩
    · rw [sets', middles.1, sets, map_append]
      rfl
    · rw [deletes', middles.2, deletes, filter_append, map_append]
    · rw [more, taken, map_append, reverse_append]
      rfl
    · rw [map_append]
      exact nodup.append (nodup_singleton _) (disjoint_singleton.mpr unused.1)
    · exact forall_mem_append.mpr ⟨free, forall_mem_singleton.mpr ⟨by rw [key]; rfl, unused.2⟩⟩

/-- A successful UPDATE rewrites the rows that it selects, under keys of their own. -/
theorem execUpdate_eq_ok (keyed : Session.CacheKeyed s.cache) {given : List (Bytes × SqlValue)}
    {whereClause : Option (WhereExpr σ)} (found : s.effectiveTable name = some table)
    (typed : table.rowFormat = .typed)
    (done : execUpdate name given whereClause s = .ok result s') :
    ∃ assignments loaded batch, resolveAssignments table given = .ok assignments ∧
      validateWhereColumnsOf (s.caching table) name whereClause = .ok () ∧
      s.loadTableRows table = .ok loaded ∧
      (∀ row ∈ retain (columnTypesOfTable table) whereClause loaded,
        (table.pkOf (assign table assignments row)).isSome) ∧
      ((retain (columnTypesOfTable table) whereClause loaded).map
        (newKey table assignments)).Nodup ∧
      (∀ row ∈ retain (columnTypesOfTable table) whereClause loaded, ∀ other ∈ loaded,
        rowKey table other ∉ (retain (columnTypesOfTable table) whereClause loaded).map
          (rowKey table) → newKey table assignments row ≠ rowKey table other) ∧
      Rewrites table assignments (retain (columnTypesOfTable table) whereClause loaded) s.view
        ((s.caching table).view.commit batch) ∧ (s.caching table).Written s' batch := by
  have done := of_resolveDmlTable keyed found done
  obtain ⟨u, checked, done⟩ := ofExcept_bind_eq_ok done
  obtain ⟨assignments, assigned, done⟩ := ofExcept_bind_eq_ok done
  obtain ⟨loaded, load, done⟩ := ofExcept_bind_eq_ok done
  obtain ⟨keys, own, done⟩ := ofExcept_bind_eq_ok done
  rw [startBatch_typed typed, pure_bind] at done
  obtain ⟨acc, built, done⟩ := ofExcept_bind_eq_ok done
  obtain ⟨v, s₂, written, done⟩ := bind_eq_ok done
  cases done
  obtain ⟨rfl, -⟩ := rowKeys_eq_ok own
  obtain ⟨sets, deletes, nodup, free⟩ := foldlM_updateRow built
  refine ⟨assignments, loaded, acc.1, assigned, checked, load, fun row member =>
    (free row member).1, nodup,
    fun row member other inside untouched same => (free row member).2 ?_,
    .of_batch sets deletes nodup, writeBatch_eq_ok typed written⟩
  exact mem_filter.mpr ⟨mem_map.mpr ⟨other, inside, same.symm⟩, decide_eq_true (same ▸ untouched)⟩

end OmniKV.Sql
