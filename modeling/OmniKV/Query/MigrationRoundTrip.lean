import OmniKV.Query.FieldMigration

/-!
# Undoing and resuming migrations

A migration of fields that was interrupted can be run again; one of an index cannot, as the second
run finds the name taken. Undoing removes an added field, or moves a field back, also where one was
there before.
-/

namespace OmniKV.Schema

open List SortedMap
open EStateM (Triple)
open Index TypedBatch

/-- The documents are those of `d`, and no commit will fail. -/
def Docs (d : TypedStore Stored) (w : World) : Prop :=
  (∀ key, IsPlain key → w.db.get? key = d.get? key) ∧ w.faults = []

def SystemOnly (batch : TypedBatch Stored) : Prop :=
  (∀ entry ∈ batch.sets, ¬IsPlain entry.1) ∧ ∀ key ∈ batch.deletes, ¬IsPlain key

section

variable {d : TypedStore Stored} {E : World → Prop}

theorem triple_commitBatch_system (batch : TypedBatch Stored) (system : SystemOnly batch) :
    Triple (Docs d) (commitBatch batch) (fun _ => Docs d) E := by
  rintro w ⟨same, quiet⟩
  rw [commitBatch, quiet]
  refine ⟨fun key plain => ?_, rfl⟩
  rw [← same key plain]
  exact TypedStore.get?_commit_of_not_mem (fun value member => system.1 _ member plain)
    fun member => system.2 key member plain

theorem triple_commitSet_system {key : Bytes} {value : Stored} (system : ¬IsPlain key) :
    Triple (Docs d) (commitSet key value) (fun _ => Docs d) E :=
  triple_commitBatch_system ⟨[(key, value)], [], show 1 ≤ maxBatchSize by decide⟩
    ⟨fun _ member => mem_singleton.mp member ▸ system, nofun⟩

theorem not_isPlain_of_scanPrefix {id : ℕ} {key : Bytes}
    (behind : buildIndexScanPrefix id <+: key) : ¬IsPlain key := by
  obtain ⟨rest, rfl⟩ := behind
  exact fun plain => plain rfl

variable {batch : TypedBatch Stored}

theorem SystemOnly.indexDocument {catalog : Index.IndexCatalog} {db : TypedStore Stored}
    {collection pk : Bytes}
    {doc : Document} {batch' : TypedBatch Stored} (system : SystemOnly batch)
    (done : indexDocument catalog db collection pk doc batch = .ok batch') : SystemOnly batch' := by
  obtain ⟨sets, deletes, -⟩ := indexDocument_eq_ok done
  refine ⟨fun entry member => ?_, deletes ▸ system.2⟩
  obtain old | ⟨d, -, -, key, -⟩ := (sets entry).mp member
  · exact system.1 entry old
  · exact not_isPlain_of_scanPrefix (scanPrefix_of_entryKey key)

theorem triple_rebuildLoop (collection : Bytes) (l : List (Bytes × Stored))
    {count : ℕ} (system : SystemOnly batch) :
    Triple (Docs d) (rebuildLoop collection l batch count) (fun _ => Docs d) fun _ => True := by
  induction l generalizing batch count with
  | nil =>
    refine .ite (fun _ => fun _ h => h) fun _ => ?_
    exact .bind (triple_commitBatch_system _ system) fun _ _ h => h
  | cons entry rest ih =>
    obtain ⟨key, value⟩ := entry
    cases value with
    | document doc =>
      refine .bind (Q := fun _ => Docs d) (fun _ h => h) fun w => ?_
      cases staged : indexDocument w.catalog w.db collection _ doc batch with
      | error err => exact fun _ _ => trivial
      | ok batch' =>
        have system' := system.indexDocument staged
        refine .ite (fun _ => ?_) fun _ => ih system'
        exact .bind (triple_commitBatch_system _ system') fun _ => ih ⟨nofun, nofun⟩
    | index d | migration record | version v | text t => exact ih system

theorem triple_executeOp_createIndex (name collection : Bytes)
    (fields : List (Bytes × IndexFieldType))
    (unique : Bool) : Triple (Docs d) (executeOp (.createIndex name collection fields unique))
    (fun _ => Docs d) fun _ => True := by
  have create : Triple (Docs d) (createIndex name collection fields unique) (fun _ => Docs d)
      fun _ => True := by
    refine .bind (Q := fun _ => Docs d) (fun _ h => h) fun w => ?_
    refine .ite (fun _ _ _ => trivial) fun _ => ?_
    refine .bind (Q := fun _ => Docs d) (fun _ h => h) fun _ => ?_
    refine .bind (triple_commitSet_system fun plain => plain rfl) fun _ => ?_
    exact .bind (Q := fun _ => Docs d) (fun _ h => h) fun _ _ h => h
  refine .bind create fun _ => .bind (Q := fun _ => Docs d) ?_ fun _ _ h => h
  refine .bind (Q := fun _ => Docs d) (fun _ h => h) fun w => ?_
  cases w.catalog.getByName name with
  | none => exact fun _ _ => trivial
  | some found => exact triple_rebuildLoop _ _ ⟨nofun, nofun⟩

theorem exists_foldlM_delete {keys : List Bytes}
    (room : batch.opCount + keys.length ≤ maxBatchSize) :
    ∃ batch', keys.foldlM delete batch = .ok batch' ∧ batch'.sets = batch.sets ∧
      batch'.deletes = batch.deletes ++ keys := by
  induction keys generalizing batch with
  | nil => exact ⟨batch, rfl, rfl, (append_nil _).symm⟩
  | cons key keys ih =>
    rw [length_cons] at room
    have free : ¬batch.opCount ≥ maxBatchSize := by omega
    obtain ⟨middle, first⟩ : ∃ middle, batch.delete key = .ok middle := by
      rw [delete, dif_neg free]
      exact ⟨_, rfl⟩
    obtain ⟨sets, deletes⟩ := delete_eq_ok first
    have count : middle.opCount + keys.length ≤ maxBatchSize := by
      rw [opCount, sets, deletes, length_append, length_singleton]
      rw [opCount] at room
      omega
    obtain ⟨batch', rest, sets', deletes'⟩ := ih count
    refine ⟨batch', ?_, sets'.trans sets, ?_⟩
    · rw [foldlM_cons, first]
      exact rest
    · rw [deletes', deletes, append_assoc]
      rfl

/-- The index has fewer entries than a batch holds. -/
def Droppable (name : Bytes) (w : World) : Prop :=
  (w.catalog.getByName name).any (fun found => decide ((w.db.range (buildIndexScanPrefix found.id)
    (buildIndexScanPrefix found.id ++ rangeStop)).length < maxBatchSize)) = true
deriving Decidable

theorem triple_dropIndex (name : Bytes) :
    Triple (fun w => Docs d w ∧ Droppable name w) (dropIndex name) (fun _ => Docs d) E := by
  refine .bind (Q := fun v w => v = w ∧ Docs d w ∧ Droppable name w) (fun _ h => ⟨rfl, h⟩)
    fun v w h => ?_
  obtain ⟨rfl, docs, droppable⟩ := h
  obtain ⟨found, named, room⟩ := (Option.any_eq_true _ _).mp droppable
  have count : (new : TypedBatch Stored).opCount + (catalogKey found.id ::
      (v.db.range (buildIndexScanPrefix found.id)
        (buildIndexScanPrefix found.id ++ rangeStop)).map Prod.fst).length ≤ maxBatchSize := by
    rw [length_cons, length_map]
    have := of_decide_eq_true room
    show 0 + _ ≤ _
    omega
  obtain ⟨batch, staged, sets, deletes⟩ := exists_foldlM_delete count
  have system : SystemOnly batch := by
    refine ⟨sets ▸ nofun, fun key member => ?_⟩
    rw [deletes] at member
    obtain catalog | entry := mem_cons.mp member
    · exact fun plain => plain (catalog ▸ rfl)
    · obtain ⟨⟨k, value⟩, inside, rfl⟩ := mem_map.mp entry
      obtain ⟨start, stop, -⟩ := mem_range.mp inside
      obtain ⟨rest, same, -⟩ := Bytes.between_append_iff.mp ⟨start, stop⟩
      exact not_isPlain_of_scanPrefix (same ▸ prefix_append _ _)
  rw [named]
  dsimp only
  rw [staged]
  exact Triple.bind (triple_commitBatch_system _ system) (fun _ _ h => h) v docs

end

/-- The migrations that the module builds. -/
inductive Standard
  | createIndex (version : ℕ) (description name collection : Bytes)
    (fields : List (Bytes × IndexFieldType))
      (unique : Bool)
  | addField (version : ℕ) (description collection field : Bytes) (value : Json)
  | renameField (version : ℕ) (description collection oldName newName : Bytes)

namespace Standard

def migration : Standard → Migration
  | createIndex version description name collection fields unique =>
    createIndexMigration version description name collection fields unique
  | addField version description collection field value =>
    addFieldMigration version description collection field value
  | renameField version description collection oldName newName =>
    renameFieldMigration version description collection oldName newName

def NewField (db : TypedStore Stored) (collection field : Bytes) : Prop :=
  IsPlain collection ∧ ∀ entry ∈ db.range (scanStart collection) (scanStop collection),
    hasField field entry.2 = false

/-- The migration has the next version, its new field or name is new, and the storage does
not fail. -/
def UpSafe (w : World) (x : Standard) : Prop :=
  w.faults = [] ∧ storedVersion w.db = .ok (x.migration.version - 1) ∧ 0 < x.migration.version ∧
    match x with
    | createIndex .. => True
    | addField _ _ collection field _ => NewField w.db collection field
    | renameField _ _ collection _ newName => NewField w.db collection newName

/-- An index can be dropped in one batch, and the storage does not fail. -/
def DownSafe (w : World) (x : Standard) : Prop :=
  w.faults = [] ∧ match x with
    | createIndex _ _ name _ _ _ => Droppable name w
    | _ => True

end Standard

open Standard

/-- The migrations are applied one after the other and then undone in reverse order. -/
inductive UpDown : World → List Standard → World → Prop
  | done (w : World) : UpDown w [] w
  | nest {w w₁ w₂ : World} {x : Standard} {xs : List Standard} (safe : UpSafe w x)
      (up : migrateUp x.migration w = .ok () w₁) (inner : UpDown w₁ xs w₂) (undo : DownSafe w₂ x) :
      UpDown w (x :: xs) (migrateDown x.migration w₂).state

/-- The documents and the version of the schema are the same. -/
def SameData (d s : TypedStore Stored) : Prop :=
  (∀ key, IsPlain key → s.get? key = d.get? key) ∧ storedVersion s = storedVersion d

theorem storedVersion_insert (d : TypedStore Stored) (v : ℕ) :
    storedVersion (d.insert versionKey (.version v)) = .ok v := by
  rw [storedVersion, get?_insert, if_pos rfl]

variable {m : Migration} {collection : Bytes} {change : Change} {w w₁ : World} {current : ℕ}

theorem migrateDown_eq (version : storedVersion w.db = .ok m.version) : migrateDown m w = (do
      undoOps m.down.reverse
      saveMigrationRecord m .rolledBack
      setVersion (m.version - 1)) { w with durable := [] } := by
  refine (EStateM.bind_of_ok (currentVersion_eq (w := { w with durable := [] }) version)).trans ?_
  exact congrFun (if_neg (lt_irrefl _)) _

theorem migrateDown_fields (fields : ChangesFields m.down collection change)
    (quiet : w.faults = []) (version : storedVersion w.db = .ok m.version) :
    ∃ w', migrateDown m w = .ok () w' ∧ storedVersion w'.db = .ok (m.version - 1) ∧
      ∀ key, IsPlain key → w'.db.get? key = (change.applied collection w.db).get? key := by
  obtain ⟨-, op, one, fields⟩ := fields
  have undo : Triple (At (fun _ => True) True w.db) (undoOps m.down.reverse)
      (fun _ => At (fun _ => True) True (change.applied collection w.db))
      (Failed (fun _ => True) True) := by
    rw [one]
    refine .bind (Q := fun _ => At (fun _ => True) True (change.applied collection w.db)) ?_
      fun _ _ h => h
    rw [executeOp_of_fieldChange fields]
    exact triple_changeDocuments change collection fun _ _ => trivial
  have run := undo.bind fun _ => .bind (f := fun _ => setVersion (m.version - 1))
    (triple_commitSet trivial : Triple _ (saveMigrationRecord m .rolledBack) _ _) fun _ =>
    triple_commitSet trivial
  obtain ⟨u, w', done, ended⟩ := exists_ok_of_calm run (w := { w with durable := [] })
    ⟨rfl, trivial, nofun, fun _ => quiet⟩
  rw [migrateDown_eq version]
  refine ⟨w', done, ?_, fun key plainKey => ?_⟩
  · rw [ended.db, storedVersion_insert]
  · rw [ended.db, get?_insert, if_neg plainKey.ne_versionKey, get?_insert,
      if_neg (plainKey.ne_migrationKey _)]

/-- Up and down again restores documents and version exactly if the second change undoes the first
and the versions are consecutive. -/
theorem sameData_iff {inverse : Change} {w₂ : World} (fields : ChangesFields m.up collection change)
    (fields' : ChangesFields m.down collection inverse) (quiet : w.faults = [])
    (version : storedVersion w.db = .ok current) (newer : current < m.version)
    (up : migrateUp m w = .ok () w₁) (inner : SameData w₁.db w₂.db) (quiet' : w₂.faults = []) :
    SameData w.db (migrateDown m w₂).state.db ↔ m.version = current + 1 ∧
      ∀ entry ∈ w.db.range (scanStart collection) (scanStop collection),
        inverse.stored (change.stored entry.2) = entry.2 := by
  have after : w₁.db = migrated m collection change w.db := by
    have run := triple_migrateUp True fields version newer w ⟨rfl, fun _ => quiet⟩
    rw [up] at run
    exact run.db
  have version' : storedVersion w₂.db = .ok m.version :=
    by rw [inner.2, after, migrated, storedVersion_insert]
  obtain ⟨w₃, down, lower, restored⟩ := migrateDown_fields fields' quiet' version'
  have documents (key : Bytes) (plainKey : IsPlain key) : w₃.db.get? key =
      if scanStart collection ≤ key ∧ key ≤ scanStop collection
      then (w.db.get? key).map fun value => inverse.stored (change.stored value)
      else w.db.get? key := by
    rw [restored key plainKey, get?_applied, inner.1 key plainKey, after, get?_migrated,
      if_neg plainKey.ne_versionKey, if_neg (plainKey.ne_migrationKey _), get?_applied]
    split_ifs
    · rw [Option.map_map]
      rfl
    · rfl
  rw [down]
  constructor
  · rintro ⟨same, sameVersion⟩
    refine ⟨?_, fun entry member => ?_⟩
    · have equal := Except.ok.inj (lower.symm.trans (sameVersion.trans version))
      omega
    · obtain ⟨key, value⟩ := entry
      obtain ⟨start, stop, found⟩ := mem_range.mp member
      have plainKey := isPlain_of_scan fields.1 ⟨start, stop⟩
      have kept : w₃.db.get? key = _ := same key plainKey
      rw [documents key plainKey, if_pos ⟨start, stop⟩, found] at kept
      exact Option.some.inj kept
  · rintro ⟨next, undone⟩
    refine ⟨fun key plainKey => ?_, lower.trans (by rw [version, next]; rfl)⟩
    refine (documents key plainKey).trans ?_
    split_ifs with inside
    · cases found : w.db.get? key with
      | none => rfl
      | some value =>
        exact congrArg some (undone (key, value) (mem_range.mpr ⟨inside.1, inside.2, found⟩))
    · rfl

section

variable {m : Migration} {name collection : Bytes} {fields : List (Bytes × IndexFieldType)}
  {unique : Bool} {d : TypedStore Stored} {E : World → Prop}

theorem triple_saveMigrationRecord_system (state : MigrationState) :
    Triple (Docs d) (saveMigrationRecord m state) (fun _ => Docs d) E :=
  triple_commitSet_system (not_isPlain_migrationKey _)

theorem triple_setVersion_system (v : ℕ) :
    Triple (Docs d) (setVersion v) (fun _ w => Docs d w ∧ storedVersion w.db = .ok v) E := by
  intro w docs
  have kept := (triple_commitSet_system not_isPlain_versionKey : Triple (Docs d)
    (commitSet versionKey (.version v)) _ E) w docs
  have stored := (triple_commitSet trivial :
    Triple (At (fun _ => True) True w.db) (commitSet versionKey (.version v)) _ _) w
    ⟨rfl, trivial, fun _ _ => trivial, fun _ => docs.2⟩
  rw [setVersion]
  cases ran : commitSet versionKey (.version v) w with
  | ok u w' =>
    rw [ran] at kept stored
    exact ⟨kept, by rw [stored.db, storedVersion_insert]⟩
  | error err w' =>
    rw [ran] at stored
    exact absurd trivial stored.1

theorem triple_migrateUp_createIndex (one : m.up = [.createIndex name collection fields unique])
    (version : storedVersion d = .ok (m.version - 1)) (positive : 0 < m.version) :
    Triple (fun w => w.db = d ∧ (True → w.faults = [])) (migrateUp m)
      (fun _ w => Docs d w ∧ storedVersion w.db = .ok m.version) fun _ => True := by
  have operation : Triple (Docs d) (applyOps m 0 m.up) (fun _ => Docs d) fun _ => True := by
    rw [one]
    exact .attempt_bind (triple_executeOp_createIndex name collection fields unique)
      (fun _ => .bind (triple_saveMigrationRecord_system _) fun _ _ h => h)
      fun err => .bind (.any _) fun _ => .throw err
  rintro w ⟨rfl, quiet⟩
  rw [migrateUp_eq version (by omega)]
  exact Triple.bind (triple_saveMigrationRecord_system _) (fun _ => .bind operation fun _ =>
    .bind (triple_saveMigrationRecord_system _) fun _ => triple_setVersion_system _) _
    ⟨fun _ _ => rfl, quiet trivial⟩

/-- Undoing it changes no document either. -/
theorem triple_migrateDown_createIndex {w : World} (one : m.down = [.dropIndex name])
    (version : storedVersion w.db = .ok m.version) (quiet : w.faults = [])
    (droppable : Droppable name w) : Triple (fun v => v = w) (migrateDown m)
      (fun _ v => Docs w.db v ∧ storedVersion v.db = .ok (m.version - 1)) fun _ => False := by
  have undo : Triple (fun v => Docs w.db v ∧ Droppable name v) (undoOps m.down.reverse)
      (fun _ => Docs w.db) fun _ => False := by
    rw [one]
    exact .bind (triple_dropIndex name) fun _ _ h => h
  rintro _ rfl
  rw [migrateDown_eq version]
  exact undo.bind (fun _ => .bind (triple_saveMigrationRecord_system _) fun _ =>
    triple_setVersion_system _) _ ⟨⟨fun _ _ => rfl, quiet⟩, droppable⟩

theorem sameData_of_createIndex {w w₁ w₂ : World}
    (one : m.up = [.createIndex name collection fields unique]) (one' : m.down = [.dropIndex name])
    (quiet : w.faults = []) (version : storedVersion w.db = .ok (m.version - 1))
    (positive : 0 < m.version)
    (up : migrateUp m w = .ok () w₁) (inner : SameData w₁.db w₂.db) (quiet' : w₂.faults = [])
    (droppable : Droppable name w₂) : SameData w.db (migrateDown m w₂).state.db := by
  have after := triple_migrateUp_createIndex one version positive w ⟨rfl, fun _ => quiet⟩
  rw [up] at after
  obtain ⟨u, w₃, down, docs, lower⟩ := (triple_migrateDown_createIndex one'
    (inner.2.trans after.2) quiet' droppable).exists_ok rfl
  rw [down]
  exact ⟨fun key plain =>
    (docs.1 key plain).trans ((inner.1 key plain).trans (after.1.1 key plain)),
    lower.trans version.symm⟩

end

/-- Migrations that are applied and undone leave the documents and the version as they were. -/
theorem UpDown.sameData {w' : World} {xs : List Standard} (run : UpDown w xs w') :
    SameData w.db w'.db := by
  induction run with
  | done w => exact ⟨fun _ _ => rfl, rfl⟩
  | @nest w w₁ w₂ x xs safe up _ undo inner =>
    obtain ⟨quiet, version, positive, fresh⟩ := safe
    cases x with
    | createIndex v description name collection fields unique =>
      exact sameData_of_createIndex rfl rfl quiet version positive up inner undo.1 undo.2
    | addField v description collection field value =>
      exact (sameData_iff ⟨fresh.1, _, rfl, rfl⟩ ⟨fresh.1, _, rfl, rfl⟩ quiet version
        (Nat.sub_one_lt positive.ne') up inner
        undo.1).mpr ⟨(Nat.sub_add_cancel positive).symm, fun entry member =>
        remove_add (fresh.2 entry member)⟩
    | renameField v description collection oldName newName =>
      exact (sameData_iff ⟨fresh.1, _, rfl, rfl⟩ ⟨fresh.1, _, rfl, rfl⟩ quiet version
        (Nat.sub_one_lt positive.ne') up inner
        undo.1).mpr ⟨(Nat.sub_add_cancel positive).symm, fun entry member =>
        rename_rename (fresh.2 entry member)⟩

def Resumable (d : TypedStore Stored) (x : Standard) : Prop :=
  (∃ current < x.migration.version, storedVersion d = .ok current) ∧ match x with
    | .createIndex .. => False
    | .addField _ _ collection _ _ => IsPlain collection
    | .renameField _ _ collection _ _ => IsPlain collection

/-- A database that an interrupted call leaves: that of its start or one that was durable on the
way. -/
def LeftBy (m : Migration) (d s : TypedStore Stored) : Prop :=
  s = d ∨ ∃ catalog faults, s ∈ (migrateUp m ⟨d, catalog, faults, []⟩).state.durable

/-- An interrupted migration of fields is completed by a second call. -/
theorem resumed {d : TypedStore Stored} {x : Standard} (resumable : Resumable d x) :
    ∃ last, ∀ s, LeftBy x.migration d s → ∀ catalog,
      ∃ w, migrateUp x.migration ⟨s, catalog, [], []⟩ = .ok () w ∧ w.db = last := by
  have general {m : Migration} {collection : Bytes} {change : Change}
    (fields : ChangesFields m.up collection change)
      (again : change.Idempotent) (later : ∃ current < m.version, storedVersion d = .ok current) :
      ∃ last, ∀ s, LeftBy m d s → ∀ catalog, ∃ w, migrateUp m ⟨s, catalog, [], []⟩ = .ok () w ∧
      w.db = last := by
    obtain ⟨current, newer, version⟩ := later
    refine ⟨migrated m collection change d, fun s left catalog =>
      exists_migrateUp fields again version newer ?_ catalog⟩
    obtain rfl | ⟨catalog, faults, durable⟩ := left
    · exact .inl ⟨rfl, fun _ _ _ => .inl rfl⟩
    · have run := (triple_migrateUp False fields version newer).consequence
        (fun _ h => h) (fun _ _ h => h.kept) fun _ h => h.2.2
      exact run.state ⟨rfl, nofun⟩ s durable
  obtain ⟨version, fits⟩ := resumable
  cases x with
  | createIndex v description name collection fields unique => exact fits.elim
  | addField v description collection field value =>
    exact general ⟨fits, _, rfl, rfl⟩ (idempotent_addField field value) version
  | renameField v description collection oldName newName =>
    exact general ⟨fits, _, rfl, rfl⟩ (idempotent_rename oldName newName) version

def Undoable (d : TypedStore Stored) : Standard → Prop
  | .createIndex .. => False
  | .addField _ _ collection field _ => NewField d collection field
  | .renameField _ _ collection _ newName => NewField d collection newName

/-- A migration that is undone at once restores documents and version exactly if it has the next
version and its field or name is new. -/
theorem undone_iff {x : Standard} (quiet : w.faults = [])
    (version : storedVersion w.db = .ok current) (resumable : Resumable w.db x)
    (changes : ∀ v description collection name, x ≠ .renameField v description collection name name)
    (up : migrateUp x.migration w = .ok () w₁) (quiet' : w₁.faults = []) :
    SameData w.db (migrateDown x.migration w₁).state.db ↔ x.migration.version = current + 1 ∧
      Undoable w.db x := by
  obtain ⟨⟨current', newer, version'⟩, fits⟩ := resumable
  obtain rfl : current' = current := Except.ok.inj (version'.symm.trans version)
  have refl : SameData w₁.db w₁.db := ⟨fun _ _ => rfl, rfl⟩
  cases x with
  | createIndex v description name collection fields unique => exact fits.elim
  | addField v description collection field value =>
    refine (sameData_iff ⟨fits, _, rfl, rfl⟩ ⟨fits, _, rfl, rfl⟩ quiet version newer up refl
      quiet').trans (and_congr_right fun _ => ⟨fun undone => ⟨fits, fun entry member => ?_⟩,
        fun fresh entry member => remove_add (fresh.2 entry member)⟩)
    rw [← undone entry member]
    exact hasField_remove field _
  | renameField v description collection oldName newName =>
    refine (sameData_iff ⟨fits, _, rfl, rfl⟩ ⟨fits, _, rfl, rfl⟩ quiet version newer up refl
      quiet').trans (and_congr_right fun _ => ⟨fun undone => ⟨fits, fun entry member => ?_⟩,
        fun fresh entry member => rename_rename (fresh.2 entry member)⟩)
    rw [← undone entry member]
    refine hasField_rename (fun same => ?_) _
    subst same
    exact changes v description collection newName rfl

/-- Migrations undone in reverse order restore documents and version if their versions are
consecutive and their fields and names new. A migration of fields that was interrupted ends in the
same database when it is run again. -/
theorem migrations_undone_and_resumed (w : World) (x : Standard) :
    (∀ xs w', UpDown w xs w' → SameData w.db w'.db) ∧
      (∀ w₁ current, w.faults = [] → storedVersion w.db = .ok current → Resumable w.db x →
        (∀ v description collection name, x ≠ .renameField v description collection name name) →
        migrateUp x.migration w = .ok () w₁ → w₁.faults = [] →
        (SameData w.db (migrateDown x.migration w₁).state.db ↔
          x.migration.version = current + 1 ∧ Undoable w.db x)) ∧
      ∀ d, Resumable d x → ∃ last, ∀ s, LeftBy x.migration d s → ∀ catalog,
        ∃ w, migrateUp x.migration ⟨s, catalog, [], []⟩ = .ok () w ∧ w.db = last :=
  ⟨fun _ _ run => run.sameData,
    fun _ _ quiet version resumable changes up quiet' => undone_iff quiet version resumable changes
    up quiet', fun _ resumable => resumed resumable⟩

/-- One document with the fields `a` and `b` in the collection `c`. -/
def sampleDocuments : TypedStore Stored :=
  SortedMap.empty.insert (documentKey (.ofString "c") (.ofString "1")) (.document (.object
    ((SortedMap.empty.insert (.ofString "a") (.integer 1)).insert (.ofString "b") (.integer 2))))

/-- The database after a migration and its undoing. -/
def Standard.upDown (x : Standard) (d : TypedStore Stored) : TypedStore Stored :=
  (migrateDown x.migration (migrateUp x.migration (restart d)).state).state.db

def sampleAdd (version : ℕ) (field : String) : Standard :=
  .addField version [] (.ofString "c") (.ofString field) (.integer 0)

def sampleRename (newName : String) : Standard :=
  .renameField 1 [] (.ofString "c") (.ofString "a") (.ofString newName)

def sampleCreateIndex : Standard :=
  .createIndex 1 [] (.ofString "i") (.ofString "c") [(.ofString "a", .integer)] false

/-- Undoing an added field removes the one that was there; a rename does not bring back the field it
replaced; version five goes to four; and the creation of an index that stopped half-way fails from
then on.
-/
theorem migrations_not_undone_nor_resumed :
    ¬SameData sampleDocuments ((sampleAdd 1 "a").upDown sampleDocuments) ∧
      ¬SameData sampleDocuments ((sampleRename "b").upDown sampleDocuments) ∧
      ¬SameData sampleDocuments ((sampleAdd 5 "x").upDown sampleDocuments) ∧
      ∃ s, LeftBy sampleCreateIndex.migration sampleDocuments s ∧
        ∃ err w, migrateUp sampleCreateIndex.migration (restart s) = .error err w := by
  refine ⟨fun same => ?_, fun same => ?_, fun same => ?_, ?_⟩
  · have kept := same.1 (documentKey (.ofString "c") (.ofString "1")) (by decide)
    exact absurd kept (by decide +kernel)
  · have kept := same.1 (documentKey (.ofString "c") (.ofString "1")) (by decide)
    exact absurd kept (by decide +kernel)
  · have kept := congrArg Except.toOption same.2
    exact absurd kept (by decide +kernel)
  · have stops :
      ((migrateUp sampleCreateIndex.migration (restart sampleDocuments)).state.durable[1]?).any
        (fun s => match migrateUp sampleCreateIndex.migration (restart s) with
          | .ok _ _ => false
          | .error _ _ => true) = true := by
      decide +kernel
    obtain ⟨s, durable, fails⟩ := (Option.any_eq_true _ _).mp stops
    refine ⟨s, .inr ⟨loadCatalog sampleDocuments, [], mem_of_getElem? durable⟩, ?_⟩
    cases ran : migrateUp sampleCreateIndex.migration (restart s) with
    | ok u w =>
      rw [ran] at fails
      cases fails
    | error err w => exact ⟨err, w, rfl⟩

/-- A new field is added and removed again, and a rename to a new name can be resumed. -/
theorem sample_undone_and_resumed :
    (∃ w, UpDown (restart sampleDocuments) [sampleAdd 1 "x"] w ∧ SameData sampleDocuments w.db) ∧
      Resumable sampleDocuments (sampleRename "d") ∧
      ∃ last, ∀ s, LeftBy (sampleRename "d").migration sampleDocuments s → ∀ catalog,
        ∃ w, migrateUp (sampleRename "d").migration ⟨s, catalog, [], []⟩ = .ok () w ∧
        w.db = last := by
  have version : storedVersion sampleDocuments = .ok 0 := by decide +kernel
  have resumable : Resumable sampleDocuments (sampleRename "d") :=
    ⟨⟨0, by decide, version⟩, show IsPlain (Bytes.ofString "c") by decide⟩
  have resumable' : Resumable sampleDocuments (sampleAdd 1 "x") :=
    ⟨⟨0, by decide, version⟩, show IsPlain (Bytes.ofString "c") by decide⟩
  refine ⟨?_, resumable, (migrations_undone_and_resumed (restart sampleDocuments) _).2.2 _
    resumable⟩
  obtain ⟨last, ends⟩ := (migrations_undone_and_resumed (restart sampleDocuments) _).2.2 _
    resumable'
  obtain ⟨w, up, -⟩ := ends sampleDocuments (.inl rfl) (loadCatalog sampleDocuments)
  have fresh : Standard.NewField sampleDocuments (.ofString "c") (.ofString "x") :=
    ⟨by decide, by decide +kernel⟩
  have quiet : w.faults = [] := by
    have ran : (migrateUp (sampleAdd 1 "x").migration (restart sampleDocuments)).state.faults =
        [] := by
      decide +kernel
    rw [show migrateUp (sampleAdd 1 "x").migration (restart sampleDocuments) = .ok () w from up]
      at ran
    exact ran
  have run : UpDown (restart sampleDocuments) [sampleAdd 1 "x"]
      (migrateDown (sampleAdd 1 "x").migration w).state :=
    .nest ⟨rfl, version, by decide, fresh⟩ up (.done w) ⟨quiet, trivial⟩
  exact ⟨_, run, (migrations_undone_and_resumed _ (sampleAdd 1 "x")).1 _ _ run⟩

end OmniKV.Schema
