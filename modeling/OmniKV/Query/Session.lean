import OmniKV.Data.Triple
import OmniKV.Query.Sql

/-!
# Sessions of the SQL executor

An executor reads a database at one point, has the definitions of tables in a cache and, inside a
transaction, the writes of the earlier statements. The definition that a statement uses is read by a
scan from its key, not from the cache.
-/

namespace OmniKV.Sql

/-- `\0CATALOG\0` -/
def catalogPrefix : Bytes := [0, 67, 65, 84, 65, 76, 79, 71, 0]

/-- Scans of a prefix end at the prefix followed by `\x7F`. -/
def scanStop : Bytes := [127]

structure Session where
  /-- The database at the read point of the statement. -/
  db : TypedStore SqlStored
  /-- Definitions by the lower-case names of their tables. -/
  cache : SortedMap Bytes TableDef
  /-- The writes of the open transaction, if there is one. -/
  pending : Option (TypedBatch SqlStored)

abbrev Exec (α : Type) := EStateM String Session α

def ofExcept {α : Type} : Except String α → Exec α
  | .ok a => pure a
  | .error err => throw err

variable {α : Type} {s s' : Session}

theorem ofExcept_eq_ok {x : Except String α} {a : α} (done : ofExcept x s = .ok a s') :
    x = .ok a ∧ s' = s := by
  cases x with
  | error err => cases done
  | ok b =>
    cases done
    exact ⟨rfl, rfl⟩

theorem ofExcept_bind_eq_ok {β : Type} {x : Except String α} {f : α → Exec β} {b : β}
    (done : (ofExcept x >>= f) s = .ok b s') : ∃ a, x = .ok a ∧ f a s = .ok b s' := by
  obtain ⟨a, s₁, first, rest⟩ := EStateM.bind_eq_ok done
  obtain ⟨ok, rfl⟩ := ofExcept_eq_ok first
  exact ⟨a, ok, rest⟩

/-- A failed operation of a batch, with the error as a text. -/
def storage {α : Type} : Except OmniError α → Except String α := Except.mapError OmniError.text

theorem storage_eq_ok {x : Except OmniError α} {a : α} (done : storage x = .ok a) :
    x = .ok a := Except.mapError_eq_ok done

namespace Session

def isTransactional (s : Session) : Bool := s.pending.isSome

/-- The staged writes by their keys; a key that is staged for deletion has no value. -/
def pendingOverlay (s : Session) : SortedMap Bytes (Option SqlStored) :=
  match s.pending with
  | none => .empty
  | some batch =>
    batch.deletes.foldl (fun overlay key => overlay.insert key none)
      (batch.sets.foldl (fun overlay entry => overlay.insert entry.1 (some entry.2)) .empty)

/-- What the statements of the session see: the database with the staged writes over it. -/
def view (s : Session) : TypedStore SqlStored :=
  match s.pending with
  | none => s.db
  | some batch => s.db.commit batch

theorem get?_pendingOverlay_of_none {s : Session} (auto : s.pending = none) (key : Bytes) :
    s.pendingOverlay.get? key = none := by
  rw [pendingOverlay, auto]
  rfl

theorem get?_pendingOverlay {s : Session} {batch : TypedBatch SqlStored}
    (open_ : s.pending = some batch) (key : Bytes) :
    s.pendingOverlay.get? key =
      if key ∈ batch.deletes then some none else (batch.lastSet? key).map some := by
  rw [pendingOverlay, open_]
  rw [SortedMap.get?_foldl_insert (fun key : Bytes => key) (fun _ => none) batch.deletes,
    SortedMap.get?_foldl_insert Prod.fst (fun entry => some entry.2) batch.sets]
  by_cases deleted : key ∈ batch.deletes
  · have found : (batch.deletes.reverse.find? fun k => decide (k = key)) = some key := by
      cases here : batch.deletes.reverse.find? fun k => decide (k = key) with
      | none => simpa using List.find?_eq_none.mp here key (List.mem_reverse.mpr deleted)
      | some k =>
        obtain rfl : k = key := by simpa using List.find?_some here
        rfl
    rw [found, if_pos deleted]
    rfl
  · have missing : (batch.deletes.reverse.find? fun k => decide (k = key)) = none := by
      refine List.find?_eq_none.mpr fun k member same => deleted ?_
      rw [← of_decide_eq_true same]
      exact List.mem_reverse.mp member
    rw [missing, if_neg deleted, TypedBatch.lastSet?, Option.map_map, SortedMap.get?_empty,
      Option.or_none]
    rfl

/-- Staged writes hide what is stored. -/
theorem get?_view (s : Session) (key : Bytes) :
    s.view.get? key = (s.pendingOverlay.get? key).getD (s.db.get? key) := by
  cases open_ : s.pending with
  | none =>
    rw [get?_pendingOverlay_of_none open_, view, open_]
    rfl
  | some batch =>
    rw [get?_pendingOverlay open_, view, open_]
    rw [TypedStore.get?_commit]
    split_ifs with deleted
    · rfl
    · cases batch.lastSet? key with
      | none | some value => rfl

end Session

/-- A set replaces the earlier writes of its key. -/
def stageSet (entry : Bytes × SqlStored) : Exec Unit := fun s =>
  match s.pending with
  | none => .ok () s
  | some pending =>
    let pending := (pending.withoutSets entry.1).withoutDeletes entry.1
    match pending.set entry.1 entry.2 with
    | .ok pending => .ok () { s with pending := some pending }
    | .error err => .error err.text { s with pending := some pending }

def stageDelete (key : Bytes) : Exec Unit := fun s =>
  match s.pending with
  | none => .ok () s
  | some pending =>
    let pending := pending.withoutSets key
    match pending.delete key with
    | .ok pending => .ok () { s with pending := some pending }
    | .error err => .error err.text { s with pending := some pending }

def stageOrCommit (batch : TypedBatch SqlStored) : Exec Unit := do
  let s ← get
  match s.pending with
  | some _ =>
    batch.sets.forM stageSet
    batch.deletes.forM stageDelete
  | none => set { s with db := s.db.commit batch }

structure Session.Written (s s' : Session) (batch : TypedBatch SqlStored) : Prop where
  view : s'.view = s.view.commit batch
  cache : s'.cache = s.cache
  mode : s'.isTransactional = s.isTransactional
  /-- A transaction leaves the database alone. -/
  db : s.isTransactional = true → s'.db = s.db

theorem forM_stage {stage : α → Exec Unit} {f : TypedStore SqlStored → α → TypedStore SqlStored}
    (step : ∀ {a s s'}, s.isTransactional = true → stage a s = .ok () s' →
      s'.view = f s.view a ∧ s'.cache = s.cache ∧ s'.isTransactional = true ∧ s'.db = s.db)
    {l : List α} (open_ : s.isTransactional = true) (done : l.forM stage s = .ok () s') :
    s'.view = l.foldl f s.view ∧ s'.cache = s.cache ∧ s'.isTransactional = true ∧ s'.db = s.db := by
  induction l generalizing s with
  | nil =>
    cases done
    exact ⟨rfl, rfl, open_, rfl⟩
  | cons a l ih =>
    obtain ⟨u, s₁, first, rest⟩ := EStateM.bind_eq_ok done
    obtain ⟨view, cache, mode, db⟩ := step open_ first
    obtain ⟨view', cache', mode', db'⟩ := ih mode rest
    exact ⟨by rw [view', view, List.foldl_cons], cache'.trans cache, mode', db'.trans db⟩

theorem stageSet_eq_ok {entry : Bytes × SqlStored} (open_ : s.isTransactional = true)
    (done : stageSet entry s = .ok () s') :
    s'.view = s.view.insert entry.1 entry.2 ∧ s'.cache = s.cache ∧ s'.isTransactional = true ∧
      s'.db = s.db := by
  obtain ⟨db, cache, pending⟩ := s
  cases pending with
  | none => cases open_
  | some pending =>
    simp only [stageSet] at done
    split at done
    · rename_i staged here
      cases done
      exact ⟨TypedStore.commit_of_set here, rfl, rfl, rfl⟩
    · cases done

theorem stageDelete_eq_ok {key : Bytes} (open_ : s.isTransactional = true)
    (done : stageDelete key s = .ok () s') :
    s'.view = s.view.erase key ∧ s'.cache = s.cache ∧ s'.isTransactional = true ∧ s'.db = s.db := by
  obtain ⟨db, cache, pending⟩ := s
  cases pending with
  | none => cases open_
  | some pending =>
    simp only [stageDelete] at done
    split at done
    · rename_i staged here
      cases done
      exact ⟨TypedStore.commit_of_delete here, rfl, rfl, rfl⟩
    · cases done

theorem stageOrCommit_of_none (auto : s.pending = none) (batch : TypedBatch SqlStored) :
    stageOrCommit batch s = .ok () { s with db := s.db.commit batch } := by
  obtain ⟨db, cache, pending⟩ := s
  cases auto
  rfl

theorem stageOrCommit_eq_ok {batch : TypedBatch SqlStored}
    (done : stageOrCommit batch s = .ok () s') : s.Written s' batch := by
  cases mode : s.pending with
  | none =>
    rw [stageOrCommit_of_none mode] at done
    cases done
    have view : s.view = s.db := by rw [Session.view, mode]
    exact ⟨by rw [view, Session.view, mode], rfl, rfl, by simp [Session.isTransactional, mode]⟩
  | some pending =>
    have open_ : s.isTransactional = true := by rw [Session.isTransactional, mode]; rfl
    have staged : (do
        batch.sets.forM stageSet
        batch.deletes.forM stageDelete) s = .ok () s' := by
      obtain ⟨db, cache, pending'⟩ := s
      cases mode
      exact done
    obtain ⟨u, s₁, sets, deletes⟩ := EStateM.bind_eq_ok staged
    obtain ⟨view, cache, mode, db⟩ := forM_stage
      (f := fun view entry => view.insert entry.1 entry.2) stageSet_eq_ok open_ sets
    obtain ⟨view', cache', mode', db'⟩ := forM_stage stageDelete_eq_ok mode deletes
    exact ⟨by rw [view', view]; rfl, cache'.trans cache, mode'.trans open_.symm,
      fun _ => db'.trans db⟩

section

variable [TextFunctions] (name : Bytes)

def catalogKey : Bytes := catalogPrefix ++ lower name

def Session.getTable (s : Session) (name : Bytes) : Option TableDef := s.cache.get? (lower name)

def insertStaged (table : TableDef) : Exec Unit :=
  modify fun s => { s with cache := s.cache.insert (lower table.name) table }

def removeStaged : Exec Unit :=
  modify fun s => { s with cache := s.cache.erase (lower name) }

/-- The staged definitions replace the cached ones, and staged deletions remove them. -/
def applyTxnOverlay : Exec Unit :=
  modify fun s =>
    { s with
      cache := s.pendingOverlay.entries.foldl (fun cache entry =>
        match catalogPrefix.isPrefixOf? entry.1, entry.2 with
        | none, _ => cache
        | some name, none => cache.erase name
        | some _, some stored =>
          match stored.asTable with
          | some table => cache.insert (lower table.name) table
          | none => cache) s.cache }

/-- The staged entry at the key of the name, or the first stored entry in the range of that key. -/
def Session.effectiveTable (s : Session) (name : Bytes) : Option TableDef :=
  match s.pendingOverlay.get? (catalogKey name) with
  | some staged => staged.bind SqlStored.asTable
  | none =>
    (s.db.range (catalogKey name) (catalogKey name ++ scanStop)).head?.bind fun entry =>
      entry.2.asTable

theorem Session.effectiveTable_congr {s : Session} {t name : Bytes} (same : lower name = lower t) :
    s.effectiveTable name = s.effectiveTable t := by
  rw [effectiveTable, effectiveTable, catalogKey, catalogKey, same]

omit [TextFunctions] in
def doesNotExist : String :=
  let name := Bytes.text name
  s!"Table '{name}' does not exist"

/-- The stored definition, which the cache takes over. -/
def persistedTable : Exec TableDef := do
  let s ← get
  match s.effectiveTable name with
  | none => throw (doesNotExist name)
  | some persisted =>
    insertStaged persisted
    return persisted

/-- A cached definition is looked up again under its own name. -/
def effectiveDmlTable (table : TableDef) : Exec TableDef := persistedTable table.name

def resolveDmlTable : Exec TableDef := do
  let s ← get
  match s.getTable name with
  | some cached => effectiveDmlTable cached
  | none => persistedTable name

end

namespace Session

def storedEntries (s : Session) (table : TableDef) : List (Bytes × SqlStored) :=
  (s.db.range table.rowPrefix (table.rowPrefix ++ scanStop)).filter fun entry =>
    (s.pendingOverlay.get? entry.1).isNone

def stagedEntries (s : Session) (table : TableDef) : List (Bytes × SqlStored) :=
  s.pendingOverlay.entries.filterMap fun entry =>
    if table.rowPrefix.isPrefixOf entry.1 && entry.1.length > table.rowPrefix.length then
      entry.2.map (entry.1, ·)
    else none

def tableEntries (s : Session) (table : TableDef) : List (Bytes × SqlStored) :=
  s.storedEntries table ++ s.stagedEntries table

def loadTableRows (s : Session) (table : TableDef) : Except String (List Row) :=
  (s.tableEntries table).mapM fun entry =>
    (deserializeRowChecked table.rowFormat entry.2).mapError fun error =>
      let name := Bytes.text table.name
      s!"table '{name}' holds a row that cannot be decoded: {error}"

end Session

end OmniKV.Sql
