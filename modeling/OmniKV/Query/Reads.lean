import OmniKV.Query.Effects
import OmniKV.Query.TableNames

/-!
# What a query reads

A query changes the cache of its session and nothing else. It returns rows only if its table is
defined. With rows as the values of all row keys no read fails, and a scan returns the decoded
entries of its table.
-/

namespace OmniKV.Sql

open List SortedMap
open EStateM (Triple)

variable [TextFunctions] {σ : Type} {s : Session} {cache : SortedMap Bytes TableDef} {name : Bytes}
  {table : TableDef}

namespace Session

/-- A definition is stored or staged under its name. -/
def Has (s : Session) (table : TableDef) : Prop :=
  s.db.get? (catalogKey table.name) = some (.table table) ∨
    s.pendingOverlay.get? (catalogKey table.name) = some (some (.table table))

/-- Definitions and rows are what the catalog and the rows of a session hold. -/
def Sound (s : Session) : Prop :=
  ∀ ⦃key value⦄, s.db.get? key = some value ∨ s.pendingOverlay.get? key = some (some value) →
    catalogPrefix <+: key ∨ rowSpace <+: key → Lawful key value

def Known (s : Session) (cache : SortedMap Bytes TableDef) : Prop :=
  ∀ key table, cache.get? key = some table → key = lower table.name ∧ s.Has table

def withCache (s : Session) (cache : SortedMap Bytes TableDef) : Session :=
  { s with cache := cache }

theorem Known.insert (known : s.Known cache) (has : s.Has table) :
    s.Known (cache.insert (lower table.name) table) := by
  intro key other found
  rw [get?_insert] at found
  split_ifs at found with here
  · cases found
    exact ⟨here, has⟩
  · exact known key other found

theorem Known.erase (known : s.Known cache) (name : Bytes) : s.Known (cache.erase name) := by
  intro key other found
  rw [get?_erase] at found
  split_ifs at found
  exact known key other found

/-- The definition that a statement uses is one of the session. -/
theorem Sound.has_effectiveTable (sound : s.Sound) (found : s.effectiveTable name = some table) :
    s.Has table := by
  rw [effectiveTable] at found
  cases staged : s.pendingOverlay.get? (catalogKey name) with
  | some value =>
    rw [staged] at found
    obtain ⟨stored, rfl, definition⟩ := Option.bind_eq_some_iff.mp found
    obtain rfl : stored = .table table := by cases stored <;> simp_all [SqlStored.asTable]
    obtain ⟨other, same, key⟩ :=
      (sound (.inr staged) (.inl (prefix_append _ _))).of_catalog (prefix_append _ _)
    cases same
    exact .inr (key ▸ staged)
  | none =>
    rw [staged] at found
    obtain ⟨⟨key, stored⟩, first, definition⟩ := Option.bind_eq_some_iff.mp found
    obtain rfl : stored = .table table := by cases stored <;> simp_all [SqlStored.asTable]
    obtain ⟨above, below, stored⟩ := mem_range.mp (mem_of_head? first)
    obtain ⟨rest, rfl, -⟩ := Bytes.between_append_iff.mp ⟨above, below⟩
    have inside : catalogPrefix <+: catalogKey name ++ rest :=
      (prefix_append _ _).trans (prefix_append _ _)
    obtain ⟨other, same, key⟩ := (sound (.inl stored) (.inl inside)).of_catalog inside
    cases same
    exact .inl (key ▸ stored)

theorem Known.getTable_eq_none (known : s.Known cache) (absent : ∀ table, s.Has table →
    lower table.name ≠ lower name) : (s.withCache cache).getTable name = none := by
  rw [getTable]
  cases found : (s.withCache cache).cache.get? (lower name) with
  | none => rfl
  | some table =>
    obtain ⟨key, has⟩ := known _ _ found
    exact absurd key.symm (absent table has)

theorem Known.applyTxnOverlay (sound : s.Sound) (known : s.Known cache) :
    s.Known (Sql.applyTxnOverlay (s.withCache cache)).state.cache := by
  refine List.foldlRecOn (motive := s.Known) s.pendingOverlay.entries _ known
    fun cache known entry member => ?_
  split
  · exact known
  · exact known.erase _
  · rename_i key stored suffix here
    obtain ⟨k, v⟩ := entry
    obtain rfl : v = some stored := here
    have staged : s.pendingOverlay.get? k = some (some stored) := get?_eq_some_iff.mpr member
    have inside : catalogPrefix <+: k := ⟨key, (isPrefixOf?_eq_some_iff_append_eq.mp suffix)⟩
    obtain ⟨table, rfl, rfl⟩ := (sound (.inr staged) (.inl inside)).of_catalog inside
    exact known.insert (.inr staged)

/-- A cached definition that the statements of the session see stays in the cache. -/
def Stays (s : Session) (cache cache₁ : SortedMap Bytes TableDef) : Prop :=
  ∀ key table, s.view.get? (catalogPrefix ++ key) = some (.table table) →
    cache.get? key = some table → cache₁.get? key = some table

omit [TextFunctions] in
theorem Stays.trans {cache₁ cache₂ : SortedMap Bytes TableDef} (first : s.Stays cache cache₁)
    (second : s.Stays cache₁ cache₂) : s.Stays cache cache₂ :=
  fun key table seen cached => second key table seen (first key table seen cached)

theorem Stays.applyTxnOverlay (sound : s.Sound) (cache : SortedMap Bytes TableDef) :
    s.Stays cache (Sql.applyTxnOverlay (s.withCache cache)).state.cache := by
  refine List.foldlRecOn (motive := s.Stays cache) s.pendingOverlay.entries _ (fun _ _ _ => id)
    fun cache₁ stays entry member => ?_
  have staged : s.pendingOverlay.get? entry.1 = some entry.2 := get?_eq_some_iff.mpr member
  split
  · exact stays
  · rename_i erased suffix here
    intro key table seen cached
    rw [get?_erase, if_neg, stays key table seen cached]
    rintro rfl
    -- A key that is staged for deletion is not seen.
    rw [isPrefixOf?_eq_some_iff_append_eq.mp suffix, get?_view, staged, here] at seen
    cases seen
  · rename_i suffix stored prefixed here
    rw [here] at staged
    have inside : catalogPrefix <+: entry.1 :=
      ⟨suffix, isPrefixOf?_eq_some_iff_append_eq.mp prefixed⟩
    obtain ⟨definition, rfl, own⟩ := (sound (.inr staged) (.inl inside)).of_catalog inside
    intro key table seen cached
    change (cache₁.insert (lower definition.name) definition).get? key = some table
    rw [get?_insert]
    split_ifs with same
    · rw [same, ← catalogKey, ← own, get?_view, staged] at seen
      cases seen
      rfl
    · exact stays key table seen cached

theorem Stays.insert {cache₁ : SortedMap Bytes TableDef} (stays : s.Stays cache cache₁)
    (seen : s.view.get? (catalogKey table.name) = some (.table table)) :
    s.Stays cache (cache₁.insert (lower table.name) table) := by
  intro key other found cached
  rw [get?_insert]
  split_ifs with same
  · rw [same, ← catalogKey, seen] at found
    cases found
    rfl
  · exact stays key other found cached

theorem effectiveTable_of_definitionOf (defined : s.definitionOf name = some table) :
    s.effectiveTable name = some table := by
  rw [definitionOf, get?_view] at defined
  rw [effectiveTable]
  cases staged : s.pendingOverlay.get? (catalogKey name) with
  | some value =>
    rw [staged] at defined
    exact defined
  | none =>
    rw [staged] at defined
    obtain ⟨stored, found, definition⟩ := Option.bind_eq_some_iff.mp defined
    rw [head?_range_of_get? found (Bytes.le_append _ _)]
    exact definition

theorem Sound.seen_of_definitionOf (sound : s.Sound) (defined : s.definitionOf name = some table) :
    s.view.get? (catalogKey table.name) = some (.table table) ∧ lower table.name = lower name := by
  obtain ⟨stored, found, definition⟩ := Option.bind_eq_some_iff.mp defined
  obtain rfl : stored = .table table := by cases stored <;> simp_all [SqlStored.asTable]
  have somewhere : s.db.get? (catalogKey name) = some (.table table) ∨
      s.pendingOverlay.get? (catalogKey name) = some (some (.table table)) := by
    rw [get?_view] at found
    cases staged : s.pendingOverlay.get? (catalogKey name) with
    | none =>
      rw [staged] at found
      exact .inl found
    | some value =>
      rw [staged] at found
      exact .inr (congrArg some found)
  obtain ⟨other, same, key⟩ :=
    (sound somewhere (.inl (prefix_append _ _))).of_catalog (prefix_append _ _)
  cases same
  exact ⟨key ▸ found, (append_cancel_left key).symm⟩

/-- A name that is not defined is hidden by a staged deletion, or no definition goes by it. -/
theorem missing_cases (missing : s.definitionOf name = none) :
    s.effectiveTable name = none ∨ ∀ table, s.Has table → lower table.name ≠ lower name := by
  rw [definitionOf, get?_view] at missing
  cases staged : s.pendingOverlay.get? (catalogKey name) with
  | some value =>
    left
    rw [staged] at missing
    rw [effectiveTable, staged]
    exact missing
  | none =>
    right
    intro table has same
    rw [Has, catalogKey, same, ← catalogKey, staged] at has
    obtain stored | nothing := has
    · rw [staged, stored] at missing
      cases missing
    · cases nothing

/-- A statement begins with the cache that the staged writes make of it. -/
theorem Sound.execute_eq (sound : s.Sound) (known : s.Known cache) (run : σ → Exec ExecResult)
    (stmt : Statement σ) :
    ∃ cache₁, execute run stmt (s.withCache cache) = executeInner run stmt (s.withCache cache₁) ∧
      s.Known cache₁ ∧ s.Stays cache cache₁ := by
  rw [execute, EStateM.get_bind]
  cases (s.withCache cache).isTransactional with
  | false => exact ⟨cache, rfl, known, fun _ _ _ => id⟩
  | true => exact ⟨_, rfl, known.applyTxnOverlay sound, .applyTxnOverlay sound cache⟩

/-- The sessions that queries lead to. -/
def Within (s s₁ : Session) : Prop := ∃ cache, s₁ = s.withCache cache ∧ s.Known cache

/-- The sessions that successful queries lead to, from a cache. -/
def Follows (s : Session) (cache : SortedMap Bytes TableDef) (s₁ : Session) : Prop :=
  ∃ cache₁, s₁ = s.withCache cache₁ ∧ s.Known cache₁ ∧ s.Stays cache cache₁

end Session

theorem persistedTable_of_some (found : s.effectiveTable name = some table) :
    persistedTable name s = .ok table (s.withCache (s.cache.insert (lower table.name) table)) := by
  rw [persistedTable, EStateM.get_bind, found]
  rfl

section

variable (sound : s.Sound)

include sound

theorem within_persistedTable (name : Bytes) :
    Preserves s.Within (persistedTable name) fun _ => True := by
  rintro _ ⟨cache, rfl, known⟩
  rw [persistedTable, EStateM.get_bind]
  cases found : (s.withCache cache).effectiveTable name with
  | none => exact ⟨cache, rfl, known⟩
  | some table => exact ⟨trivial, _, rfl, known.insert (sound.has_effectiveTable found)⟩

theorem within_runQuery (n : ℕ) (query : Query n) :
    Preserves s.Within (runQuery n query) fun _ => True := by
  induction n with
  | zero => nomatch query
  | succ n ih =>
    have select : Preserves s.Within (execSelect (runQuery n) query) fun _ => True :=
      preserves_execSelect (within_persistedTable sound _) ih
    rintro _ ⟨cache, rfl, known⟩
    obtain ⟨cache₁, ran, known₁, -⟩ := sound.execute_eq known (runQuery n) (.select query)
    rw [runQuery, ran]
    exact select _ ⟨cache₁, rfl, known₁⟩

theorem execSelect_of_missing {run : σ → Exec ExecResult} {query : Select σ}
    (nested : ∀ query, Preserves s.Within (run query) fun _ => True)
    (missing : s.definitionOf query.table = none) :
    Triple s.Within (execSelect run query) (fun _ _ => False) fun _ => True := by
  obtain none | absent := Session.missing_cases missing
  · rintro _ ⟨cache, rfl, -⟩
    have failed := persistedTable_of_none (s := s.withCache cache) none
    rw [show execSelect run query (s.withCache cache) = _ from EStateM.bind_of_error failed]
    trivial
  · refine Triple.bind (Q := fun _ => s.Within) ?_ fun _ => Triple.bind (Q := fun _ => s.Within) ?_
      fun _ => ?_
    · exact Triple.consequence (within_persistedTable sound _) (fun _ => id) (fun _ _ => And.right)
        fun _ _ => trivial
    · refine triple_resolveWhere (fun query => ?_) query.whereClause
      exact Triple.consequence (nested query) (fun _ => id) (fun _ _ => And.right) fun _ _ =>
        trivial
    · rintro _ ⟨cache, rfl, known⟩
      rw [EStateM.get_bind, selectFrom, known.getTable_eq_none absent]
      trivial

end

def rowOf (format : RowFormat) (value : SqlStored) : Row :=
  (value.asRow.map fun row => row.mapValues (decodeCell format)).getD .empty

omit [TextFunctions] in
theorem deserializeRowChecked_row {value : SqlStored} (isRow : ∃ row, value = .row row)
    (format : RowFormat) : deserializeRowChecked format value = .ok (rowOf format value) := by
  obtain ⟨row, rfl⟩ := isRow
  rfl

namespace Session

variable {key : Bytes} {value : SqlStored}

section

omit [TextFunctions]

/-- What is seen is stored or staged. -/
theorem view_cases (seen : s.view.get? key = some value) :
    s.db.get? key = some value ∧ s.pendingOverlay.get? key = none ∨
      s.pendingOverlay.get? key = some (some value) := by
  rw [get?_view] at seen
  cases staged : s.pendingOverlay.get? key with
  | none =>
    rw [staged] at seen
    exact .inl ⟨seen, rfl⟩
  | some write =>
    rw [staged] at seen
    exact .inr (congrArg some seen)

theorem mem_storedEntries : (key, value) ∈ s.storedEntries table ↔
      (∃ rest, key = table.rowPrefix ++ rest ∧ rest ≤ scanStop) ∧ s.db.get? key = some value ∧
        s.pendingOverlay.get? key = none := by
  rw [storedEntries, mem_filter, SortedMap.mem_range, Option.isNone_iff_eq_none, ← and_assoc,
    Bytes.between_append_iff]
  tauto

theorem mem_stagedEntries : (key, value) ∈ s.stagedEntries table ↔
      (∃ rest, key = table.rowPrefix ++ rest ∧ rest ≠ []) ∧
      s.pendingOverlay.get? key = some (some value) := by
  rw [stagedEntries, mem_filterMap]
  constructor
  · rintro ⟨⟨k, staged⟩, member, found⟩
    split_ifs at found with inside
    obtain ⟨v, rfl, same⟩ := Option.map_eq_some_iff.mp found
    cases same
    rw [Bool.and_eq_true, isPrefixOf_iff_prefix] at inside
    obtain ⟨⟨rest, rfl⟩, longer⟩ := inside
    refine ⟨⟨rest, rfl, ?_⟩, get?_eq_some_iff.mpr member⟩
    rintro rfl
    simp at longer
  · rintro ⟨⟨rest, rfl, more⟩, staged⟩
    refine ⟨_, get?_eq_some_iff.mp staged, ?_⟩
    have inside : (table.rowPrefix.isPrefixOf (table.rowPrefix ++ rest) &&
        decide ((table.rowPrefix ++ rest).length > table.rowPrefix.length)) = true := by
      rw [Bool.and_eq_true, isPrefixOf_iff_prefix, decide_eq_true_eq, length_append]
      exact ⟨prefix_append _ _, Nat.lt_add_of_pos_right (length_pos_iff.mpr more)⟩
    rw [if_pos inside]
    rfl

theorem nodup_storedEntries (s : Session) (table : TableDef) : (s.storedEntries table).Nodup :=
  ((pairwise_range _ _ _).filter _).imp fun below same => absurd (same ▸ below) (lt_irrefl _)

theorem nodup_tableEntries (s : Session) (table : TableDef) : (s.tableEntries table).Nodup := by
  have staged : (s.stagedEntries table).Nodup := by
    refine pairwise_filterMap.mpr (s.pendingOverlay.sorted.imp fun below => ?_)
    intro a first b second
    split_ifs at first second
    obtain ⟨_, _, rfl⟩ := Option.map_eq_some_iff.mp first
    obtain ⟨_, _, rfl⟩ := Option.map_eq_some_iff.mp second
    intro same
    rw [(Prod.mk.inj same).1] at below
    exact absurd below (lt_irrefl _)
  refine (s.nodup_storedEntries table).append staged ?_
  rintro ⟨key, value⟩ first second
  have covered := (mem_stagedEntries.mp second).2
  rw [(mem_storedEntries.mp first).2.2] at covered
  cases covered

end

/-- The keys of a table lead to rows. -/
theorem Sound.isRow (sound : s.Sound) {rest : Bytes}
    (found : s.db.get? (table.rowPrefix ++ rest) = some value ∨
      s.pendingOverlay.get? (table.rowPrefix ++ rest) = some (some value)) :
      ∃ row, value = .row row :=
  (sound found (.inr (rowSpace_prefix_key table rest))).of_rowSpace (rowSpace_prefix_key table rest)

/-- A scan returns the decoded entries. -/
theorem Sound.seqScan (sound : s.Sound) (table : TableDef) :
    s.seqScan table = .ok ((s.storedEntries table).map (fun entry =>
      rowOf table.rowFormat entry.2) ++
      (s.stagedEntries table).map fun entry => rowOf .typed entry.2) := by
  have stored : ∀ entry ∈ s.storedEntries table,
      (deserializeRowChecked table.rowFormat entry.2).mapError (decodeFailed table "row") =
        .ok (rowOf table.rowFormat entry.2) := by
    rintro ⟨key, value⟩ member
    obtain ⟨⟨rest, rfl, -⟩, found, -⟩ := mem_storedEntries.mp member
    rw [deserializeRowChecked_row (sound.isRow (.inl found))]
    rfl
  have staged : ∀ entry ∈ s.stagedEntries table,
      (deserializeRowChecked .typed entry.2).mapError (decodeFailed table "staged row") =
        .ok (rowOf .typed entry.2) := by
    rintro ⟨key, value⟩ member
    obtain ⟨⟨rest, rfl, -⟩, found⟩ := mem_stagedEntries.mp member
    rw [deserializeRowChecked_row (sound.isRow (.inr found))]
    rfl
  rw [Session.seqScan, Except.mapM_eq_map stored, Except.mapM_eq_map staged]
  rfl

end Session

def pkComparison (table : TableDef) (tableName : Bytes) : WhereExpr σ → Option (Bytes × SqlValue)
  | .comparison column .eq value =>
    if ((splitDot column).all fun parts => eqIgnoreAsciiCase parts.1 tableName) &&
        eqIgnoreAsciiCase (bareName column) table.primaryKey then some (column, value)
    else none
  | .and a b => (pkComparison table tableName a).or (pkComparison table tableName b)
  | _ => none

section

omit [TextFunctions]

theorem extractPkLookup_eq {stats : SortedMap Bytes Bytes}
    (found : stats.get? name = some table.primaryKey) (expr : WhereExpr σ) :
    extractPkLookup stats name expr = (pkComparison table name expr).map fun demand =>
      demand.2.asString := by
  induction expr with
  | comparison column op value =>
    cases op with
    | eq =>
      rw [extractPkLookup, found, Option.bind_some, pkComparison]
      split_ifs
      · rfl
      · rfl
    | _ => rfl
  | and a b first second =>
    rw [extractPkLookup, pkComparison, first, second]
    cases pkComparison table name a with
    | none | some demand => rfl
  | _ => rfl

theorem extractPkLookup_eq_none {stats : SortedMap Bytes Bytes} (missing : stats.get? name = none)
    (expr : WhereExpr σ) : extractPkLookup stats name expr = none := by
  induction expr with
  | comparison column op value =>
    cases op with
    | eq => rw [extractPkLookup, missing, Option.bind_none]
    | _ => rfl
  | and a b first second => rw [extractPkLookup, first, second, Option.or_none]
  | _ => rfl

theorem andTri_eq_true {a b : Option Bool} : andTri a b = some true ↔
    a = some true ∧ b = some true := by
  rcases a with _ | _ | _ <;> rcases b with _ | _ | _ <;> simp [andTri]

end

/-- A row that a predicate selects has the primary key that the predicate demands. -/
theorem evalTri_pkComparison {row : Row} {types : ColumnTypeMap} {expr : WhereExpr σ}
    {column : Bytes}
    {value : SqlValue} (demand : pkComparison table name expr = some (column, value))
    (selected : evalTri row types expr = some true) :
    evalTri (σ := σ) row types (.comparison column .eq value) = some true := by
  induction expr with
  | comparison col op v =>
    cases op with
    | eq =>
      rw [pkComparison] at demand
      split_ifs at demand
      cases demand
      exact selected
    | _ => cases demand
  | and a b first second =>
    rw [evalTri, andTri_eq_true] at selected
    obtain left | ⟨-, right⟩ := Option.or_eq_some_iff.mp demand
    · exact first left selected.1
    · exact second right selected.2
  | _ => cases demand

variable (sound : s.Sound)

include sound

theorem Session.Sound.readable (table : TableDef) :
    (((s.db.range table.rowPrefix (table.rowPrefix ++ scanStop)).take 1000).forM fun entry =>
      match deserializeRowChecked table.rowFormat entry.2 with
      | .ok _ => .ok ()
      | .error error =>
        let name := Bytes.text table.name
        .error s!"table '{name}' row decode failed during statistics collection: {error}" :
      Except String Unit) = .ok () := by
  refine Except.forM_eq_unit fun entry member => ?_
  obtain ⟨key, value⟩ := entry
  obtain ⟨above, below, found⟩ := mem_range.mp (mem_of_mem_take member)
  obtain ⟨rest, rfl, -⟩ := Bytes.between_append_iff.mp ⟨above, below⟩
  rw [deserializeRowChecked_row (sound.isRow (.inl found))]

/-- The statistics have the primary keys of the tables that are cached under their names. -/
theorem Session.Sound.gatherStats (cache : SortedMap Bytes TableDef) :
    ∃ stats, gatherStats (s.withCache cache) = .ok stats ∧ ∀ name, stats.get? name =
      (cache.get? name).bind fun _ =>
      ((s.withCache cache).getTable name).map TableDef.primaryKey := by
  let pk (name : Bytes) := ((s.withCache cache).getTable name).map TableDef.primaryKey
  refine ⟨_, Except.foldlM_eq_foldl (g := fun stats entry =>
    (pk entry.1).elim stats (stats.insert entry.1)) (fun stats entry => ?_) _ _, fun name => ?_⟩
  · dsimp -zeta only [pk]
    cases (s.withCache cache).getTable entry.1 with
    | none => rfl
    | some table => exact congrArg (· >>= fun _ => _) (sound.readable table)
  · have lookup (l : List (Bytes × TableDef)) : ∀ stats : SortedMap Bytes Bytes,
        (l.foldl (fun stats entry => (pk entry.1).elim stats (stats.insert entry.1)) stats).get?
        name =
          (if name ∈ l.map Prod.fst then pk name else none).or (stats.get? name) := by
      induction l with
      | nil => exact fun _ => rfl
      | cons entry l ih =>
        intro stats
        rw [foldl_cons, ih, map_cons]
        obtain rfl | other := eq_or_ne name entry.1
        · rw [if_pos mem_cons_self]
          cases found : pk entry.1 with
          | none => simp
          | some key => split_ifs <;> simp [get?_insert]
        · rw [if_congr (mem_cons.trans (or_iff_right other)) rfl rfl]
          cases pk entry.1 with
          | none => rfl
          | some key => rw [Option.elim_some, get?_insert, if_neg other]
    rw [lookup, get?_empty, Option.or_none]
    cases found : cache.get? name with
    | none =>
      rw [if_neg]
      · rfl
      · intro member
        obtain ⟨entry, inside, rfl⟩ := mem_map.mp member
        exact get?_eq_none_iff.mp found entry.2 inside
    | some table =>
      exact if_pos (mem_map.mpr ⟨_, get?_eq_some_iff.mp found, rfl⟩)

variable {keyValue : Bytes} {db : TypedStore SqlStored}

/-- A stored lookup of a key that is not there comes across rows of continued keys only. -/
theorem pkLookup_of_absent (free : s.pendingOverlay.get? (table.rowPrefix ++ keyValue) = none)
    (absent : s.db.get? (table.rowPrefix ++ keyValue) = none) :
    ∃ rows, s.pkLookup table keyValue = .ok rows ∧
      ∀ row ∈ rows, ∃ rest stored, rest ≠ [] ∧ rest ≤ scanStop ∧
      s.db.get? (table.rowPrefix ++ keyValue ++ rest) = some stored ∧
      row = rowOf table.rowFormat stored := by
  rw [Session.pkLookup, free]
  cases first :
      (s.db.range (table.rowPrefix ++ keyValue) (table.rowPrefix ++ keyValue ++ scanStop)).head?
      with
  | none => exact ⟨[], rfl, nofun⟩
  | some entry =>
    obtain ⟨key, stored⟩ := entry
    obtain ⟨above, below, found⟩ := mem_range.mp (mem_of_head? first)
    obtain ⟨rest, rfl, bound⟩ := Bytes.between_append_iff.mp ⟨above, below⟩
    have more : rest ≠ [] := by
      rintro rfl
      rw [append_nil, absent] at found
      cases found
    have isRow := sound.isRow (.inl (append_assoc table.rowPrefix keyValue rest ▸ found))
    dsimp only
    rw [deserializeRowChecked_row isRow]
    refine ⟨_, rfl, fun row member => ⟨rest, stored, more, bound, found, ?_⟩⟩
    simpa using member

theorem pkLookup_of_stored {stored : SqlStored}
    (free : s.pendingOverlay.get? (table.rowPrefix ++ keyValue) = none)
    (found : s.db.get? (table.rowPrefix ++ keyValue) = some stored) :
    s.pkLookup table keyValue = .ok [rowOf table.rowFormat stored] := by
  rw [Session.pkLookup, free]
  rw [head?_range_of_get? found (Bytes.le_append _ _)]
  dsimp only
  rw [deserializeRowChecked_row (sound.isRow (.inl found))]
  rfl

theorem pkLookup_of_staged {stored : SqlStored}
    (found : s.pendingOverlay.get? (table.rowPrefix ++ keyValue) = some (some stored)) :
    s.pkLookup table keyValue = .ok [rowOf .typed stored] := by
  rw [Session.pkLookup, found]
  dsimp only
  rw [deserializeRowChecked_row (sound.isRow (.inr found))]
  rfl

omit sound

/-- The value that is looked up, if the table is known to the planner under its name. -/
def plannedLookup (table : TableDef) (name : Bytes) (whereClause : Option (WhereExpr σ)) :
    Option Bytes :=
  if lower name = name then (whereClause.bind (pkComparison table name)).map fun demand =>
    demand.2.asString
  else none

theorem plannedLookup_cases (table : TableDef) (name : Bytes) (whereClause : Option (WhereExpr σ)) :
    plannedLookup table name whereClause = none ∨ plannedLookup table name whereClause =
      (whereClause.bind (pkComparison table name)).map fun demand => demand.2.asString := by
  rw [plannedLookup]
  split_ifs
  · exact .inr rfl
  · exact .inl rfl

theorem selectFrom_eq (folded : ∀ text : Bytes, lower (lower text) = lower text) (sound : s.Sound)
    {cache : SortedMap Bytes TableDef} (known : s.Known cache)
    (cached : (s.withCache cache).getTable name = some table) (columns : List SelectColumn)
    (whereClause : Option (WhereExpr σ)) :
    selectFrom (s.withCache cache) columns name whereClause = (do
      (whereColumns whereClause).forM (checkColumnReference name table.columnNames)
      validateOutputColumns name table columns
      let rows ← planRows (σ := σ) s table (plannedLookup table name whereClause)
      let output := outputColumns name table columns
      return .rows (output.map Prod.fst) ((retain (bareTypes table) whereClause rows).map fun row =>
        output.map fun column => rowLookup row column.2)) := by
  obtain ⟨stats, gathered, lookup⟩ := sound.gatherStats cache
  have planned : whereClause.bind (extractPkLookup stats name) = plannedLookup table name
      whereClause := by
    rw [plannedLookup]
    split_ifs with own
    · have found : stats.get? name = some table.primaryKey := by
        have here : cache.get? name = some table := by
          rw [Session.getTable, own] at cached
          exact cached
        rw [lookup, here, cached]
        rfl
      cases whereClause with
      | none => rfl
      | some expr => exact extractPkLookup_eq found expr
    · have missing : stats.get? name = none := by
        rw [lookup]
        cases here : cache.get? name with
        | none => rfl
        | some other =>
          -- The keys of the cache are in lower case.
          obtain ⟨key, -⟩ := known _ _ here
          exact absurd (by rw [key, folded]) own
      cases whereClause with
      | none => rfl
      | some expr => exact extractPkLookup_eq_none missing expr
  rw [selectFrom, cached]
  refine bind_congr fun _ => bind_congr fun _ => ?_
  rw [gathered]
  change planRows (σ := σ) (s.withCache cache) table (whereClause.bind (extractPkLookup stats name))
    >>= _ = _
  rw [planned]
  rfl

def subqueries : WhereExpr σ → List σ
  | .inSubquery _ query => [query]
  | .and a b => subqueries a ++ subqueries b
  | .or a b => subqueries a ++ subqueries b
  | .not inner => subqueries inner
  | _ => []

/-- `Catalog::load_all` -/
def loadAll (db : TypedStore SqlStored) : SortedMap Bytes TableDef :=
  (db.range catalogPrefix (catalogPrefix ++ scanStop)).foldl (fun cache entry =>
    match entry.2.asTable with
    | some table => cache.insert (lower table.name) table
    | none => cache) .empty

/-- The executor of a statement outside transactions. -/
def Session.autocommit (db : TypedStore SqlStored) : Session := ⟨db, loadAll db, none⟩

/-- A database whose catalog and rows were written by statements. -/
def SoundStore (db : TypedStore SqlStored) : Prop :=
  ∀ ⦃key value⦄, db.get? key = some value → catalogPrefix <+: key ∨ rowSpace <+: key →
    Lawful key value

theorem SoundStore.commit (sound : SoundStore db) {batch : TypedBatch SqlStored}
    (lawful : LawfulBatch batch) : SoundStore (db.commit batch) := by
  intro key value found inside
  rw [TypedStore.get?_commit] at found
  split_ifs at found
  obtain last | ⟨-, old⟩ := Option.or_eq_some_iff.mp found
  · exact lawful key value (TypedBatch.mem_of_lastSet? last)
  · exact sound old inside

theorem SoundStore.closed : Closed fun s => SoundStore s.db where
  caching start _ := start
  uncaching start _ := start
  committing start _ _ lawful := start.commit lawful
  staging start _ _ _ := start

theorem SoundStore.session (sound : SoundStore db) {s : Session} (same : s.db = db)
    (lawful : ∀ batch, s.pending = some batch → LawfulBatch batch) : s.Sound := by
  intro key value found inside
  obtain stored | staged := found
  · exact sound (same ▸ stored) inside
  · cases open_ : s.pending with
    | none =>
      rw [Session.get?_pendingOverlay_of_none open_] at staged
      cases staged
    | some batch =>
      rw [Session.get?_pendingOverlay open_] at staged
      split_ifs at staged
      · cases staged
      · obtain ⟨v, last, same⟩ := Option.map_eq_some_iff.mp staged
        cases same
        exact lawful batch open_ key value (TypedBatch.mem_of_lastSet? last)

/-- A new catalog has definitions of its database. -/
theorem SoundStore.known_loadAll (sound : SoundStore db) {s : Session} (same : s.db = db) :
    s.Known (loadAll db) := by
  refine List.foldlRecOn (motive := s.Known) (db.range catalogPrefix (catalogPrefix ++ scanStop)) _
    nofun fun cache known entry member => ?_
  obtain ⟨key, stored⟩ := entry
  obtain ⟨above, below, found⟩ := mem_range.mp member
  obtain ⟨rest, rfl, -⟩ := Bytes.between_append_iff.mp ⟨above, below⟩
  obtain ⟨table, rfl, own⟩ := (sound found (.inl (prefix_append _ _))).of_catalog
    (prefix_append _ _)
  exact known.insert (.inl (by rw [same, ← own, found]))

namespace Sample

section

omit [TextFunctions]

theorem asciiLower_asciiLower (b : UInt8) : asciiLower (asciiLower b) = asciiLower b := by
  have all : ∀ n < 256, asciiLower (asciiLower (.ofNat n)) = asciiLower (.ofNat n) :=
    by decide +kernel
  simpa using all b.toNat b.toNat_lt

theorem lower_lower (text : Bytes) :
    asciiText.lower (asciiText.lower text) = asciiText.lower text := by
  change (text.map asciiLower).map asciiLower = text.map asciiLower
  rw [map_map]
  exact map_congr_left fun b _ => asciiLower_asciiLower b

/-- The database has one definition. -/
theorem catalog_cases {key : Bytes} {value : SqlStored} (found : catalog.db.get? key = some value) :
    key = @catalogKey asciiText t1.name ∧ value = .table t1 := by
  change (SortedMap.empty.insert _ _).get? key = some value at found
  rw [get?_insert] at found
  split_ifs at found with here
  · exact ⟨here, (Option.some.inj found).symm⟩
  · cases found

theorem soundStore_catalog : @SoundStore asciiText catalog.db := by
  intro key value found _
  obtain ⟨rfl, rfl⟩ := catalog_cases found
  exact .inl ⟨t1, rfl, rfl⟩

end

/-- `INSERT INTO t1 VALUES ('value')` -/
def insertKey (value : String) : Statement (Query 0) :=
  .insert (.ofString "t1") [] [[.text (.ofString value)]]

/-- `SELECT * FROM t1` -/
def selectAll : Query 1 := ⟨[.star], .ofString "t1", none⟩

def answer : EStateM.Result String Session ExecResult → Option ExecResult
  | .ok result _ => some result
  | .error _ _ => none

end Sample

end OmniKV.Sql
