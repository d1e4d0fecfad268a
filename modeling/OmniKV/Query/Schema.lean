import Mathlib.Data.List.Sort
import OmniKV.Data.Triple
import OmniKV.Query.Index

/-!
# Schema migrations

A migration has operations to apply and operations to undo them, and its progress is recorded under
its version. Documents are rewritten and indexed in batches. A call can be interrupted at every
commit, so the state has the databases on the way.
-/

namespace OmniKV.Schema

open Index (IndexCatalog indexNotFound)

inductive SchemaOp
  | createIndex (name collection : Bytes) (fields : List (Bytes × IndexFieldType)) (unique : Bool)
  | dropIndex (name : Bytes)
  | addField (collection fieldName : Bytes) (defaultValue : Json)
  | removeField (collection fieldName : Bytes)
  | renameField (collection oldName newName : Bytes)

structure Migration where
  version : ℕ
  description : Bytes
  up : List SchemaOp
  down : List SchemaOp

variable (version : ℕ)

def createIndexMigration (description indexName collection : Bytes)
    (fields : List (Bytes × IndexFieldType)) (unique : Bool) : Migration where
  version := version
  description := description
  up := [.createIndex indexName collection fields unique]
  down := [.dropIndex indexName]

def addFieldMigration (description collection fieldName : Bytes) (defaultValue : Json) :
    Migration where
  version := version
  description := description
  up := [.addField collection fieldName defaultValue]
  down := [.removeField collection fieldName]

def renameFieldMigration (description collection oldName newName : Bytes) : Migration where
  version := version
  description := description
  up := [.renameField collection oldName newName]
  down := [.renameField collection newName oldName]

structure World where
  db : TypedStore Stored
  /-- The definitions in memory. -/
  catalog : IndexCatalog
  /-- For each of the next commits, whether it fails; the later ones succeed. -/
  faults : List Bool
  /-- The databases after the commits of the current call. -/
  durable : List (TypedStore Stored)

abbrev Action (α : Type) := EStateM OmniError World α

def ofExcept {α : Type} : Except OmniError α → Action α
  | .ok a => pure a
  | .error err => throw err

def commitBatch (batch : TypedBatch Stored) : Action Unit := fun w =>
  if w.faults.headD false then .error (.ioError "commit failed") { w with faults := w.faults.tail }
  else .ok () { w with
    db := w.db.commit batch
    faults := w.faults.tail
    durable := w.durable ++ [w.db.commit batch] }

def startCall : Action Unit := modify fun w => { w with durable := [] }

def commitSet (key : Bytes) (value : Stored) : Action Unit := do
  let batch ← ofExcept (TypedBatch.new.set key value)
  commitBatch batch

variable (db : TypedStore Stored)

/-- The definitions that a new process reads. -/
def loadCatalog : IndexCatalog :=
  (db.range Index.catalogPrefix (Index.catalogPrefix ++ Index.rangeStop)).foldl
      (fun catalog entry =>
    match entry.2 with
    | .index d => { catalog with nextId := max catalog.nextId (d.id + 1) }.registerInMemory d
    | _ => catalog) .empty

/-- A new process on a database. -/
def restart : World := ⟨db, loadCatalog db, [], []⟩

def catalogKey (id : ℕ) : Bytes := Index.catalogPrefix ++ Bytes.decimal id

def createIndex (name collection : Bytes) (fields : List (Bytes × IndexFieldType)) (unique : Bool) :
    Action ℕ := do
  let w ← get
  if (w.catalog.getByName name).isSome then
    let name := Bytes.text name
    throw (.ioError s!"Index '{name}' already exists")
  else
    let id := w.catalog.nextId
    modify fun w => { w with catalog := { w.catalog with nextId := id + 1 } }
    let d : IndexDefinition := ⟨id, name, collection, fields, unique⟩
    commitSet (catalogKey id) (.index d)
    modify fun w => { w with catalog := w.catalog.registerInMemory d }
    return id

def dropIndex (name : Bytes) : Action Unit := do
  let w ← get
  match w.catalog.getByName name with
  | none => throw (indexNotFound name)
  | some d =>
    let lead := Index.buildIndexScanPrefix d.id
    let keys := catalogKey d.id :: (w.db.range lead (lead ++ Index.rangeStop)).map Prod.fst
    let batch ← ofExcept (keys.foldlM TypedBatch.delete .new)
    commitBatch batch
    modify fun w => { w with catalog := w.catalog.remove d.id }

/-- The loop over the scanned documents, with the batch and the number of documents so far. -/
def rebuildLoop (collection : Bytes) : List (Bytes × Stored) → TypedBatch Stored → ℕ → Action ℕ
  | [], batch, count =>
    if batch.sets.isEmpty then return count
    else do
      commitBatch batch
      return count
  | (key, .document doc) :: rest, batch, count => do
      let lead := collection ++ [58]
      let pk := if lead <+: key then key.drop lead.length else key
      let w ← get
      let batch ← ofExcept (Index.indexDocument w.catalog w.db collection pk doc batch)
      if (count + 1) % 1000 = 0 then
        commitBatch batch
        rebuildLoop collection rest .new (count + 1)
      else rebuildLoop collection rest batch (count + 1)
  | _ :: rest, batch, count => rebuildLoop collection rest batch count

def rebuildIndex (name : Bytes) : Action ℕ := do
  let w ← get
  match w.catalog.getByName name with
  | none => throw (indexNotFound name)
  | some d =>
    let lead := d.collection ++ [58]
    rebuildLoop d.collection (w.db.range lead (lead ++ Index.rangeStop)) .new 0

/-- The documents of a collection are looked for from `collection:` to `collection:~`. -/
def scanStart (collection : Bytes) : Bytes := collection ++ [58]

def scanStop (collection : Bytes) : Bytes := scanStart collection ++ [126]

/-- The loop over the scanned entries; every five hundred objects are one batch. -/
def backfillLoop (change : SortedMap Bytes Json → Option (SortedMap Bytes Json)) :
    List (Bytes × Stored) → TypedBatch Stored → ℕ → Action Unit
  | [], batch, _ => if batch.sets.isEmpty then pure () else commitBatch batch
  | (key, .document (.object fields)) :: rest, batch, count =>
    match change fields with
    | none => backfillLoop change rest batch count
    | some fields' => do
        let batch ← ofExcept (batch.set key (.document (.object fields')))
        if (count + 1) % 500 = 0 then
          commitBatch batch
          backfillLoop change rest .new (count + 1)
        else backfillLoop change rest batch (count + 1)
  | _ :: rest, batch, count => backfillLoop change rest batch count

def changeDocuments (collection : Bytes) (change : SortedMap Bytes Json →
    Option (SortedMap Bytes Json)) : Action Unit := do
  let w ← get
  backfillLoop change (w.db.range (scanStart collection) (scanStop collection)) .new 0

/-- Add a field where it is missing, or remove it. -/
def backfill (fieldName : Bytes) (defaultValue : Option Json) (fields : SortedMap Bytes Json) :
    Option (SortedMap Bytes Json) :=
  match defaultValue with
  | some value =>
    if (fields.get? fieldName).isNone then some (fields.insert fieldName value) else some fields
  | none => some (fields.erase fieldName)

def backfillField (collection fieldName : Bytes) (defaultValue : Option Json) : Action Unit :=
  changeDocuments collection (backfill fieldName defaultValue)

def rename (oldName newName : Bytes) (fields : SortedMap Bytes Json) :
    Option (SortedMap Bytes Json) :=
  (fields.get? oldName).map fun value => (fields.erase oldName).insert newName value

def renameFieldOnline (collection oldName newName : Bytes) : Action Unit :=
  changeDocuments collection (rename oldName newName)

/-- `\0SCHEMA\0__version__` -/
def versionKey : Bytes := [0, 83, 67, 72, 69, 77, 65, 0] ++ Bytes.ofString "__version__"

/-- `\0SCHEMA\0migration:` -/
def migrationPrefix : Bytes := [0, 83, 67, 72, 69, 77, 65, 0] ++ Bytes.ofString "migration:"

def migrationKey : Bytes := migrationPrefix ++ Bytes.padded 6 version

def storedVersion : Except OmniError ℕ :=
  match db.get? versionKey with
  | none => .ok 0
  | some (.version v) => .ok v
  | some _ => .error (.ioError "Invalid schema version: invalid digit found in string")

def currentVersion : Action ℕ := do ofExcept (storedVersion (← get).db)

def loggedRecords : List MigrationRecord :=
  let records := (db.range migrationPrefix (migrationPrefix ++ [126])).filterMap fun entry =>
    match entry.2 with
    | .migration record => some record
    | _ => none
  records.insertionSort fun r s => r.version ≤ s.version

def executeOp : SchemaOp → Action Unit
  | .createIndex name collection fields unique => do
      let _ ← createIndex name collection fields unique
      let _ ← rebuildIndex name
      return ()
  | .dropIndex name => dropIndex name
  | .addField collection fieldName defaultValue =>
    backfillField collection fieldName (some defaultValue)
  | .removeField collection fieldName => backfillField collection fieldName none
  | .renameField collection oldName newName => renameFieldOnline collection oldName newName

def saveMigrationRecord (m : Migration) (state : MigrationState) : Action Unit :=
  commitSet (migrationKey m.version) (.migration ⟨m.version, m.description, state⟩)

def setVersion : Action Unit := commitSet versionKey (.version version)

/-- Execute the operations from the one with number `i`, each followed by its record. -/
def applyOps (m : Migration) : ℕ → List SchemaOp → Action Unit
  | _, [] => pure ()
  | i, op :: rest => do
      match ← EStateM.attempt (executeOp op) with
      | .ok () =>
        saveMigrationRecord m (.inProgress ((i + 1) * 100 / m.up.length))
        applyOps m (i + 1) rest
      | .error err =>
        saveMigrationRecord m (.failed err.text)
        throw err

/-- The migration is recorded as applied, at a version that the schema has reached. -/
def alreadyApplied (m : Migration) (current : ℕ) (db : TypedStore Stored) : Bool :=
  m.version ≤ current &&
    (loggedRecords db).any fun record => record.version = m.version && record.state = .applied

def migrateUp (m : Migration) : Action Unit := do
  startCall
  let current ← currentVersion
  let w ← get
  if alreadyApplied m current w.db then return ()
  else
    saveMigrationRecord m (.inProgress 0)
    applyOps m 0 m.up
    saveMigrationRecord m .applied
    setVersion m.version

def undoOps : List SchemaOp → Action Unit
  | [] => pure ()
  | op :: rest => do
      executeOp op
      undoOps rest

def migrateDown (m : Migration) : Action Unit := do
  startCall
  let current ← currentVersion
  if m.version > current then
    let version := m.version
    throw (.ioError s!"Cannot rollback v{version}: current version is v{current}")
  else
    undoOps m.down.reverse
    saveMigrationRecord m .rolledBack
    setVersion (m.version - 1)

end OmniKV.Schema
