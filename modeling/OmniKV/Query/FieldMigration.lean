import OmniKV.Query.Backfill

/-!
# Migrations of fields

Every database on the way of a migration of fields has each document as it was or as it
will be, and the old version until the last commit. The changes are idempotent, so the
migration leads from each of these databases to the same end.
-/

namespace OmniKV.Schema

open SortedMap
open EStateM (Triple)

def SchemaOp.fieldChange : SchemaOp → Option (Bytes × Change)
  | .addField collection fieldName defaultValue =>
    some (collection, backfill fieldName (some defaultValue))
  | .removeField collection fieldName => some (collection, backfill fieldName none)
  | .renameField collection oldName newName => some (collection, rename oldName newName)
  | _ => none

def ChangesFields (ops : List SchemaOp) (collection : Bytes) (change : Change) : Prop :=
  IsPlain collection ∧ ∃ op, ops = [op] ∧ op.fieldChange = some (collection, change)

theorem executeOp_of_fieldChange {op : SchemaOp} {collection : Bytes} {change : Change}
    (fields : op.fieldChange = some (collection, change)) :
    executeOp op = changeDocuments collection change := by
  cases op <;> cases fields <;> rfl

theorem currentVersion_eq {w : World} {current : ℕ} (version : storedVersion w.db = .ok current) :
    currentVersion w = .ok current w := by
  show ofExcept (storedVersion w.db) w = _
  rw [version]
  rfl

theorem migrateUp_eq {m : Migration} {w : World} {current : ℕ}
    (version : storedVersion w.db = .ok current) (newer : current < m.version) : migrateUp m w = (do
      saveMigrationRecord m (.inProgress 0)
      applyOps m 0 m.up
      saveMigrationRecord m .applied
      setVersion m.version) { w with durable := [] } := by
  have notYet : ¬alreadyApplied m current w.db = true := by
    rw [alreadyApplied, decide_eq_false (not_le.mpr newer)]
    nofun
  refine (EStateM.bind_of_ok (currentVersion_eq (w := { w with durable := [] }) version)).trans ?_
  exact congrFun (if_neg notYet) _

/-- After an error another commit is tried, and the error is passed on. -/
theorem triple_commitSet_failed {I : TypedStore Stored → Prop} {calm : Prop} {key : Bytes}
    {value : Stored} (closed : ∀ s, I s → I (s.insert key value)) :
    Triple (Failed I calm) (commitSet key value) (fun _ => Failed I calm) (Failed I calm) := by
  rintro w ⟨rough, here, kept⟩
  have run : Triple (· = w) (commitSet key value) (fun _ => Failed I calm) (Failed I calm) :=
    (triple_commitSet (closed _ here)).consequence
      (fun _ same => ⟨congrArg _ same, here, same ▸ kept, fun still => absurd still rough⟩)
      (fun _ _ done => ⟨rough, done.db ▸ done.here, done.kept⟩) fun _ failed => failed
  exact run w rfl

section

variable (m : Migration) (collection : Bytes) (change : Change)

def Migration.record (state : MigrationState) : Stored :=
  .migration ⟨m.version, m.description, state⟩

def operated (d : TypedStore Stored) : TypedStore Stored :=
  ((change.applied collection (d.insert (migrationKey m.version) (m.record (.inProgress 0)))).insert
    (migrationKey m.version) (m.record (.inProgress 100))).insert (migrationKey m.version)
    (m.record .applied)

def migrated (d : TypedStore Stored) : TypedStore Stored :=
  (operated m collection change d).insert versionKey (.version m.version)

/-- A database on the way, before the new version: each document is as it was or as it will be. -/
def OnTheWay (d s : TypedStore Stored) : Prop :=
  s.get? versionKey = d.get? versionKey ∧ ∀ key, key ≠ migrationKey m.version → key ≠ versionKey →
    s.get? key = d.get? key ∨ s.get? key = (change.applied collection d).get? key

variable {m collection change} {d : TypedStore Stored} {s : TypedStore Stored}

theorem OnTheWay.insert_record (way : OnTheWay m collection change d s)
    (value : Stored) :
    OnTheWay m collection change d (s.insert (migrationKey m.version) value) := by
  constructor
  · rw [get?_insert, if_neg (migrationKey_ne_versionKey _).symm, way.1]
  · intro key other notVersion
    rw [get?_insert, if_neg other]
    exact way.2 key other notVersion

theorem OnTheWay.insertAll_of_record (plain : IsPlain collection) {value : Stored}
    {front : List (Bytes × Stored)}
    (part : front <+: change.written ((d.insert (migrationKey m.version) value).range
      (scanStart collection) (scanStop collection))) :
    OnTheWay m collection change d (insertAll (d.insert (migrationKey m.version) value) front) := by
  have before : ∀ key, key ≠ migrationKey m.version →
      (d.insert (migrationKey m.version) value).get? key = d.get? key := by
    intro key other
    rw [get?_insert, if_neg other]
  constructor
  · obtain same | changed := get?_insertAll part versionKey
    · rw [same, before _ (migrationKey_ne_versionKey _).symm]
    · exact absurd (isPlain_of_scan plain ⟨changed.1, changed.2.1⟩) not_isPlain_versionKey
  · intro key other _
    obtain same | ⟨start, stop, changed⟩ := get?_insertAll part key
    · exact .inl (same.trans (before key other))
    · refine .inr ?_
      rw [changed, before key other, get?_applied, if_pos ⟨start, stop⟩]

theorem onTheWay_operated (plain : IsPlain collection) :
    OnTheWay m collection change d (operated m collection change d) :=
  ((OnTheWay.insertAll_of_record plain (List.prefix_refl _)).insert_record _).insert_record _

theorem get?_migrated (key : Bytes) : (migrated m collection change d).get? key =
      if key = versionKey then some (.version m.version)
      else if key = migrationKey m.version then some (m.record .applied)
      else (change.applied collection d).get? key := by
  rw [migrated, get?_insert, operated, get?_insert]
  split_ifs with version record
  · rfl
  · rfl
  · rw [get?_insert, if_neg record, get?_applied, get?_applied, get?_insert, if_neg record]

variable {calm : Prop}

theorem triple_applyOps (fields : ChangesFields m.up collection change) :
    Triple (At (OnTheWay m collection change d) calm (d.insert (migrationKey m.version)
      (m.record (.inProgress 0))))
      (applyOps m 0 m.up) (fun _ => At (OnTheWay m collection change d) calm
        ((change.applied collection (d.insert (migrationKey m.version)
          (m.record (.inProgress 0)))).insert
          (migrationKey m.version) (m.record (.inProgress 100))))
      (Failed (OnTheWay m collection change d) calm) := by
  obtain ⟨plain, op, one, fields⟩ := fields
  have percent : (0 + 1) * 100 / m.up.length = 100 := by simp [one]
  rw [one]
  refine .attempt_bind (Q := fun _ => At (OnTheWay m collection change d) calm
    (change.applied collection (d.insert (migrationKey m.version) (m.record (.inProgress 0)))))
    (F := Failed (OnTheWay m collection change d) calm) ?_ (fun _ => ?_) fun err => ?_
  · rw [executeOp_of_fieldChange fields]
    exact triple_changeDocuments change collection fun front part => .insertAll_of_record plain part
  · rw [percent]
    exact .bind (triple_commitSet (.insert_record (.insertAll_of_record plain (List.prefix_refl _))
      _)) fun _ _ h => h
  · exact .bind (triple_commitSet_failed fun s way => way.insert_record _) fun _ => .throw err

/-- A migration of fields to a new version: every durable database is on the way or the last. -/
theorem triple_migrateUp (calm : Prop) (fields : ChangesFields m.up collection change) {current : ℕ}
    (version : storedVersion d = .ok current) (newer : current < m.version) :
    Triple (fun w => w.db = d ∧ (calm → w.faults = [])) (migrateUp m)
      (fun _ => At (fun s => OnTheWay m collection change d s ∨ s = migrated m collection change d)
        calm (migrated m collection change d))
      (Failed (fun s => OnTheWay m collection change d s ∨ s = migrated m collection change d)
      calm) := by
  have failed : ∀ w, Failed (OnTheWay m collection change d) calm w →
      Failed (fun s => OnTheWay m collection change d s ∨ s = migrated m collection change d) calm
      w :=
    fun w failed => ⟨failed.1, .inl failed.2.1, fun s member => .inl (failed.2.2 s member)⟩
  have start : OnTheWay m collection change d d := ⟨rfl, fun _ _ _ => .inl rfl⟩
  rintro w ⟨rfl, quiet⟩
  rw [migrateUp_eq version newer]
  refine Triple.bind ((triple_commitSet (start.insert_record _)).weaken failed) (fun _ =>
    .bind ((triple_applyOps fields).weaken failed) fun _ =>
      .bind ((triple_commitSet (onTheWay_operated fields.1)).weaken failed) fun _ => ?_) _
    ⟨rfl, start, nofun, quiet⟩
  exact (triple_commitSet (.inr rfl)).consequence
    (fun w h => ⟨h.db, .inl h.here, fun s member => .inl (h.kept s member), h.quiet⟩)
    (fun _ _ h => h) fun _ h => h

/-- Running the change twice is running it once. -/
def Change.Idempotent (change : Change) : Prop :=
  ∀ value, change.stored (change.stored value) = change.stored value

/-- From a database on the way the migration leads to the same end. -/
theorem OnTheWay.migrated_eq (way : OnTheWay m collection change d s)
    (again : change.Idempotent) :
    migrated m collection change s = migrated m collection change d := by
  refine ext_get? fun key => ?_
  rw [get?_migrated, get?_migrated]
  split_ifs with version record
  · rfl
  · rfl
  · rw [get?_applied, get?_applied]
    split_ifs with inside
    · obtain same | changed := way.2 key record version
      · rw [same]
      · rw [changed, get?_applied, if_pos inside, Option.map_map]
        exact congrArg (Option.map · (d.get? key)) (funext again)
    · obtain same | changed := way.2 key record version
      · exact same
      · rw [changed, get?_applied, if_neg inside]

theorem alreadyApplied_migrated : alreadyApplied m m.version (migrated m collection change d) =
    true := by
  have logged : (migrated m collection change d).get? (migrationKey m.version) =
      some (m.record .applied) := by
    rw [get?_migrated, if_neg (migrationKey_ne_versionKey _), if_pos rfl]
  have below : Bytes.padded 6 m.version ≤ [126] := by
    cases digits : Bytes.padded 6 m.version with
    | nil => exact Bytes.nil_le _
    | cons b rest =>
      refine Bytes.cons_le_cons_iff.mpr (.inl ?_)
      by_contra high
      have other := Bytes.not_mem_padded (b := b) (.inr ?_) 6 m.version
      · exact other (digits ▸ List.mem_cons_self)
      · have := UInt8.le_iff_toNat_le.mp (not_lt.mp high)
        exact lt_of_lt_of_le (by decide) this
  obtain ⟨start, stop⟩ := Bytes.between_append_iff.mpr ⟨_, rfl, below⟩
  have member : (⟨m.version, m.description, .applied⟩ : MigrationRecord) ∈
      loggedRecords (migrated m collection change d) := by
    rw [loggedRecords, List.mem_insertionSort, List.mem_filterMap]
    exact ⟨_, mem_range.mpr ⟨start, stop, logged⟩, rfl⟩
  rw [alreadyApplied, decide_eq_true le_rfl, Bool.true_and, List.any_eq_true]
  exact ⟨_, member, by simp⟩

/-- A process runs the migration on a database on the way, or on the last one. -/
theorem exists_migrateUp (fields : ChangesFields m.up collection change) (again : change.Idempotent)
    {current : ℕ} (version : storedVersion d = .ok current) (newer : current < m.version)
    (reached : OnTheWay m collection change d s ∨ s = migrated m collection change d)
    (catalog : Index.IndexCatalog) :
    ∃ w, migrateUp m ⟨s, catalog, [], []⟩ = .ok () w ∧ w.db = migrated m collection change d := by
  obtain way | rfl := reached
  · have same : storedVersion s = .ok current :=
      by rw [storedVersion, way.1, ← version, storedVersion]
    obtain ⟨u, w, done, ended⟩ := exists_ok_of_calm (triple_migrateUp True fields same newer)
      (w := ⟨s, catalog, [], []⟩) ⟨rfl, fun _ => rfl⟩
    exact ⟨w, done, ended.db.trans (way.migrated_eq again)⟩
  · refine ⟨⟨migrated m collection change d, catalog, [], []⟩, ?_, rfl⟩
    have read : storedVersion (migrated m collection change d) = .ok m.version := by
      rw [storedVersion, get?_migrated, if_pos rfl]
    refine (EStateM.bind_of_ok (currentVersion_eq read)).trans ?_
    exact congrFun (if_pos alreadyApplied_migrated) _

end

def hasField (field : Bytes) : Stored → Bool
  | .document doc => (doc.get field).isSome
  | _ => false

theorem idempotent_addField (field : Bytes) (value : Json) :
    Change.Idempotent (backfill field (some value)) := by
  intro stored
  obtain ⟨fields | v⟩ | _ := stored
  · simp only [Change.stored, backfill]
    by_cases there : (fields.get? field).isNone = true
    · simp [there, get?_insert]
    · simp [there]
  all_goals rfl

theorem idempotent_rename (oldName newName : Bytes) :
    Change.Idempotent (rename oldName newName) := by
  intro stored
  obtain ⟨fields | v⟩ | _ := stored
  · simp only [Change.stored, rename]
    cases there : fields.get? oldName with
    | none => simp [there]
    | some value =>
      by_cases same : oldName = newName
      · subst same
        have again : ((fields.erase oldName).insert oldName value).erase oldName =
            fields.erase oldName := by
          refine ext_get? fun key => ?_
          rw [get?_erase, get?_insert, get?_erase]
          split_ifs <;> rfl
        simp [get?_insert, again]
      · simp [get?_insert, same]
  all_goals rfl

/-- Removing a field that was added restores the document, if the field was new. -/
theorem remove_add {field : Bytes} {value : Json} {stored : Stored}
    (new : hasField field stored = false) :
    Change.stored (backfill field none) (Change.stored (backfill field (some value)) stored) =
      stored := by
  obtain ⟨fields | v⟩ | _ := stored
  · have missing : fields.get? field = none := by simpa [hasField, Document.get] using new
    have restored : (fields.insert field value).erase field = fields := by
      refine ext_get? fun key => ?_
      rw [get?_erase, get?_insert]
      split_ifs with here
      · rw [here, missing]
      · rfl
    simp [Change.stored, backfill, missing, restored]
  all_goals rfl

theorem rename_rename {oldName newName : Bytes} {stored : Stored}
    (new : hasField newName stored = false) :
    Change.stored (rename newName oldName) (Change.stored (rename oldName newName) stored) =
      stored := by
  obtain ⟨fields | v⟩ | _ := stored
  · have missing : fields.get? newName = none := by simpa [hasField, Document.get] using new
    cases there : fields.get? oldName with
    | none => simp [Change.stored, rename, there, missing]
    | some value =>
      have restored : ((((fields.erase oldName).insert newName value).erase newName).insert oldName
          value) = fields := by
        refine ext_get? fun key => ?_
        rw [get?_insert, get?_erase, get?_insert, get?_erase]
        split_ifs with old new
        · rw [old, there]
        · rw [new, missing]
        · rfl
      simp [Change.stored, rename, there, get?_insert, restored]
  all_goals rfl

theorem hasField_remove (field : Bytes) (stored : Stored) :
    hasField field (Change.stored (backfill field none) stored) = false := by
  obtain ⟨fields | v⟩ | _ := stored
  · simp [Change.stored, backfill, hasField, Document.get]
  all_goals rfl

theorem hasField_rename {oldName newName : Bytes} (other : oldName ≠ newName) (stored : Stored) :
    hasField oldName (Change.stored (rename oldName newName) stored) = false := by
  obtain ⟨fields | v⟩ | _ := stored
  · cases there : fields.get? oldName with
    | none => simp [Change.stored, rename, there, hasField, Document.get]
    | some value =>
      simp [Change.stored, rename, there, hasField, Document.get, get?_insert, other]
  all_goals rfl

end OmniKV.Schema
