import OmniKV.Data.Triple
import OmniKV.Storage.Engine
import OmniKV.Storage.Reference

/-!
# Restoring a backup

The names in an archive and the paths in its manifest come from outside. Both are walked component
by component before they are joined to the restore directory.
-/

namespace OmniKV.Restore

open EStateM List

/-- What `Path::components` reports on Unix. -/
inductive Component
  | rootDir
  | curDir
  | parentDir
  | normal (name : Bytes)
deriving DecidableEq

abbrev Location := List Component

def slash : UInt8 := 47

def isAbsolute (path : Bytes) : Bool := path.head? = some slash

def component? (part : Bytes) : Option Component :=
  if part = [] ∨ part = .ofString "." then none
  else if part = .ofString ".." then some .parentDir
  else some (.normal part)

/-- Empty parts are dropped, and so are dots unless the path starts with one. -/
def components (path : Bytes) : Location :=
  let parts := path.splitOn slash
  (if isAbsolute path then [.rootDir] else if parts.head? = some (Bytes.ofString ".") then
  [.curDir] else []) ++
    parts.filterMap component?

def fileName (path : Bytes) : Option Bytes :=
  match (components path).getLast? with
  | some (.normal name) => some name
  | _ => none

/-- `Path::join`: an absolute path takes the place of the one it is joined to. -/
def join (root path : Location) : Location :=
  if path.head? = some .rootDir then path else root ++ path

inductive RestoreError
  | readEntry | emptyPath | createDirectory | readMetadata | parseMetadata | loadManifest
    | rewriteManifest
  | unsafePath (path : Bytes)
  | unsupportedType (path : Bytes)
  | unpack (path : Bytes)
  | unsupportedVersion (found : ℕ)
  | readRestored (path : Bytes)
  | restoredBytes (path : Bytes) (found expected : ℕ)
  | restoredCrc (path : Bytes) (found expected : UInt32)
  | cannotRebase (path : Bytes)

def validateArchivePath (path : Bytes) : Except RestoreError Location := do
  let safe ← (components path).foldlM (fun safe component =>
    match component with
    | .normal part => .ok (safe ++ [.normal part])
    | .curDir => .ok safe
    | .parentDir | .rootDir => .error (.unsafePath path)) []
  if safe = [] then .error .emptyPath else .ok safe

def rebaseRestoredPath (root : Location) (stored : Bytes) : Except RestoreError Location := do
  let relative ← (if isAbsolute stored then
      (fileName stored).elim (.error (.cannotRebase stored)) fun name => .ok [.normal name]
    else validateArchivePath stored : Except RestoreError Location)
  .ok (join root relative)

inductive Node
  | directory
  | file (contents : Bytes)

/-- The file tree, with the places that were created or overwritten so far. -/
structure Restoring where
  tree : Location → Option Node
  written : List Location

abbrev RestoreM := EStateM RestoreError Restoring

def put (path : Location) (node : Node) : RestoreM Unit := modify fun s =>
  { tree := Function.update s.tree path (some node), written := s.written ++ [path] }

def createDirAll (path : Location) : RestoreM Unit := path.inits.forM fun dir => do
  match (← get).tree dir with
  | none => put dir .directory
  | some .directory => pure ()
  | some (.file _) => throw .createDirectory

inductive EntryType
  | regular
  | directory
  | other

structure Entry where
  path : Bytes
  entryType : EntryType
  contents : Bytes
  truncated : Bool

structure BackupFileMetadata where
  path : Bytes
  bytes : ℕ
  crc32 : UInt32

structure BackupMetadata where
  formatVersion : ℕ
  files : List BackupFileMetadata

/-- The manifest of a backup names its files by texts, the restored one by places. -/
structure BackupManifest (α : Type) where
  heapPath : α
  basePath : α
  sstables : List α
  l1Sstables : List α
  maxSeq : ℕ
  formatVersion : ℕ

def BackupManifest.paths {α : Type} (m : BackupManifest α) : List α :=
  m.heapPath :: m.basePath :: (m.sstables ++ m.l1Sstables)

/-- The formats of the archive, whose entries are unpacked by a crate that writes their destinations
only, and of the two JSON files in it. -/
structure Formats where
  unpack : Location → Entry → RestoreM Unit
  destination : ∀ path entry s, (∀ place ≠ path, (unpack path entry s).state.tree place =
    s.tree place) ∧
      ∀ place ∈ (unpack path entry s).state.written, place ∈ s.written ∨ place = path
  parseMetadata : Bytes → Option BackupMetadata
  parseManifest : Bytes → Option (BackupManifest Bytes)
  printManifest : BackupManifest Location → Bytes

def backupFormatVersion : ℕ := 1

def manifestEntry : Bytes := .ofString "manifest.json"

def metadataEntry : Bytes := .ofString "omnikv-backup.json"

section

variable [External] (formats : Formats) (root : Location)

/-- One turn of the loop over the archive, where `none` is an entry that cannot be read. -/
def restoreEntry : Option Entry → RestoreM Unit
  | none => throw .readEntry
  | some entry => do
    let safePath ← ofExcept (validateArchivePath entry.path)
    let outputPath := join root safePath
    match entry.entryType with
    | .directory => createDirAll outputPath
    | .other => throw (.unsupportedType entry.path)
    | .regular => do
      createDirAll outputPath.dropLast
      formats.unpack outputPath entry

def verifyFile (s : Restoring) (file : BackupFileMetadata) : Except RestoreError Unit :=
  if file.path = metadataEntry then .ok ()
  else do
    let relative ← validateArchivePath file.path
    match s.tree (join root relative) with
    | some (.file bytes) =>
      if bytes.length ≠ file.bytes then .error (.restoredBytes file.path bytes.length file.bytes)
      else if crc32 bytes ≠ file.crc32 then .error (.restoredCrc file.path (crc32 bytes) file.crc32)
      else .ok ()
    | _ => .error (.readRestored file.path)

def verifyRestoredMetadata (s : Restoring) : Except RestoreError Unit :=
  match s.tree (join root [.normal metadataEntry]) with
  | none => .ok ()
  | some .directory => .error .readMetadata
  | some (.file contents) =>
    match formats.parseMetadata contents with
    | none => .error .parseMetadata
    | some metadata =>
      if metadata.formatVersion ≠ backupFormatVersion then
        .error (.unsupportedVersion metadata.formatVersion)
      else metadata.files.forM (verifyFile root s)

def loadRestored (s : Restoring) : Except RestoreError (BackupManifest Bytes) :=
  match s.tree (join root [.normal manifestEntry]) with
  | some (.file contents) =>
    match formats.parseManifest contents with
    | some manifest => if manifest.formatVersion > manifestFormatVersion then .error .loadManifest
      else .ok manifest
    | none => .error .loadManifest
  | _ => .error .loadManifest

/-- A manifest is saved with the current format version. -/
def rebaseManifest (manifest : BackupManifest Bytes) :
    Except RestoreError (BackupManifest Location) := do
  let heapPath ← rebaseRestoredPath root manifest.heapPath
  let basePath ← rebaseRestoredPath root manifest.basePath
  let sstables ← manifest.sstables.mapM (rebaseRestoredPath root)
  let l1Sstables ← manifest.l1Sstables.mapM (rebaseRestoredPath root)
  .ok ⟨heapPath, basePath, sstables, l1Sstables, manifest.maxSeq, manifestFormatVersion⟩

/-- `atomic_replace` of the manifest. -/
def replaceManifest (contents : Bytes) : RestoreM Unit := do
  let tmpPath := join root [.normal (manifestEntry ++ .ofString ".tmp")]
  match (← get).tree tmpPath with
  | some .directory => throw .rewriteManifest
  | _ =>
    put tmpPath (.file contents)
    modify fun s => { s with tree := Function.update s.tree tmpPath none }
    put (join root [.normal manifestEntry]) (.file contents)

def rewriteRestoredManifest : RestoreM Unit := do
  let manifest ← ofExcept (loadRestored formats root (← get))
  let rebased ← ofExcept (rebaseManifest root manifest)
  replaceManifest root (formats.printManifest rebased)

def restoreBackupReader (archive : List (Option Entry)) : RestoreM Unit := do
  archive.forM (restoreEntry formats root)
  ofExcept (verifyRestoredMetadata formats root (← get))
  rewriteRestoredManifest formats root

end

def Names (path : Location) : Prop := path ≠ [] ∧ ∀ c ∈ path, ∃ name, c = .normal name

def Under (root path : Location) : Prop := ∃ names, Names names ∧ path = root ++ names

structure EmptyDirectory (root : Location) (tree : Location → Option Node) : Prop where
  exists_ : ∀ dir, dir <+: root → tree dir = some .directory
  empty : ∀ path, Under root path → tree path = none

/-- The restore directory stays where it is, and every write was to a place under it. -/
structure Inside (root : Location) (s : Restoring) : Prop where
  root_exists : ∀ dir, dir <+: root → s.tree dir = some .directory
  written : ∀ path ∈ s.written, Under root path

variable {root path names : Location} {α β : Type}

theorem Names.join (ok : Names names) : join root names = root ++ names := by
  rw [Restore.join, if_neg]
  intro first
  obtain ⟨name, same⟩ := ok.2 _ (mem_of_head? first)
  cases same

theorem Names.under (ok : Names names) : Under root (Restore.join root names) :=
  ⟨names, ok, ok.join⟩

theorem names_single (name : Bytes) : Names [.normal name] :=
  ⟨by simp, fun c member => ⟨name, mem_singleton.mp member⟩⟩

theorem Under.not_above (inside : Under root path) : ¬path <+: root := by
  obtain ⟨names, ok, rfl⟩ := inside
  intro lead
  have := lead.length_le
  rw [length_append] at this
  exact ok.1 (eq_nil_of_length_eq_zero (by omega))

/-- On the way to a place under the root are the directories above it and places under it. -/
theorem Under.of_leads (inside : Under root path) {dir : Location} (lead : dir <+: path) :
    dir <+: root ∨ Under root dir := by
  obtain ⟨names, ok, rfl⟩ := inside
  obtain above | ⟨rest, rfl⟩ := prefix_or_prefix_of_prefix lead (prefix_append root names)
  · exact .inl above
  · by_cases none : rest = []
    · exact .inl (by simp [none])
    · exact .inr ⟨rest, ⟨none, fun c member =>
        ok.2 c (((prefix_append_right_inj root).mp lead).subset member)⟩, rfl⟩

theorem names_of_validate {path : Bytes} {safe : Location}
    (done : validateArchivePath path = .ok safe) : Names safe := by
  obtain ⟨found, walked, nonempty⟩ := Except.bind_eq_ok done
  split_ifs at nonempty with none
  obtain rfl := Except.ok.inj nonempty
  refine ⟨none, Except.foldlM_induction (I := fun _ safe => ∀ c ∈ safe, ∃ name, c = .normal name)
    walked nofun ?_⟩
  intro before c safe safe' _ inv step
  match c, step with
  | .normal part, step =>
    obtain rfl := Except.ok.inj step
    intro c member
    obtain old | new := mem_append.mp member
    · exact inv c old
    · exact ⟨part, mem_singleton.mp new⟩
  | .curDir, step =>
    obtain rfl := Except.ok.inj step
    exact inv

theorem under_of_rebase {stored : Bytes} (done : rebaseRestoredPath root stored = .ok path) :
    Under root path := by
  obtain ⟨relative, found, joined⟩ := Except.bind_eq_ok done
  obtain rfl := Except.ok.inj joined
  apply Names.under
  split_ifs at found
  · cases last : fileName stored with
    | none =>
      rw [last] at found
      cases found
    | some name =>
      rw [last] at found
      exact Except.ok.inj found ▸ names_single name
  · exact names_of_validate found

theorem under_of_rebaseManifest {manifest : BackupManifest Bytes}
    {rebased : BackupManifest Location}
    (done : rebaseManifest root manifest = .ok rebased) :
    ∀ path ∈ rebased.paths, Under root path := by
  obtain ⟨heapPath, heap, done⟩ := Except.bind_eq_ok done
  obtain ⟨basePath, base, done⟩ := Except.bind_eq_ok done
  obtain ⟨sstables, l0, done⟩ := Except.bind_eq_ok done
  obtain ⟨l1Sstables, l1, done⟩ := Except.bind_eq_ok done
  obtain rfl := Except.ok.inj done
  refine forall_mem_cons.mpr ⟨under_of_rebase heap, forall_mem_cons.mpr ⟨under_of_rebase base,
    fun path member => ?_⟩⟩
  obtain member | member := mem_append.mp member
  · obtain ⟨_, -, rebased⟩ := Except.exists_of_mem_mapM l0 member
    exact under_of_rebase rebased
  · obtain ⟨_, -, rebased⟩ := Except.exists_of_mem_mapM l1 member
    exact under_of_rebase rebased

variable {P : Restoring → Prop} {Q : β → Restoring → Prop}

theorem triple_ofExcept {x : Except RestoreError α} {f : α → RestoreM β}
    (next : ∀ a, x = .ok a → Triple P (f a) Q P) : Triple P (ofExcept x >>= f) Q P := by
  cases x with
  | ok a => exact next a rfl
  | error err => exact fun _ start => start

theorem triple_get {f : Restoring → RestoreM β} (next : ∀ s, P s → Triple P (f s) Q P) :
    Triple P (get >>= f) Q P :=
  fun s start => next s start s start

theorem triple_forM {f : α → RestoreM Unit} {l : List α}
    (each : ∀ a ∈ l, Triple P (f a) (fun _ => P) P) : Triple P (l.forM f) (fun _ => P) P := by
  induction l with
  | nil => exact .skip ()
  | cons a l ih =>
    obtain ⟨first, later⟩ := forall_mem_cons.mp each
    exact first.bind fun _ => ih later

theorem Inside.update {s : Restoring} (inv : Inside root s) (inside : Under root path)
    (node : Option Node) :
    ∀ dir, dir <+: root → Function.update s.tree path node dir = some .directory := by
  intro dir above
  have other : dir ≠ path := by
    rintro rfl
    exact inside.not_above above
  exact (Function.update_of_ne other ..).trans (inv.root_exists dir above)

theorem triple_put (inside : Under root path) (node : Node) :
    Triple (Inside root) (put path node) (fun _ => Inside root) (Inside root) := by
  refine fun s inv => ⟨inv.update inside _, fun place member => ?_⟩
  obtain old | new := mem_append.mp member
  · exact inv.written place old
  · exact mem_singleton.mp new ▸ inside

theorem triple_createDirAll (reach : ∀ dir, dir <+: path → dir <+: root ∨ Under root dir) :
    Triple (Inside root) (createDirAll path) (fun _ => Inside root) (Inside root) := by
  refine triple_forM fun dir member => triple_get fun s inv => ?_
  split
  · next missing =>
    obtain above | inside := reach dir ((mem_inits _ _).mp member)
    · rw [inv.root_exists dir above] at missing
      cases missing
    · exact triple_put inside _
  · exact .skip ()
  · exact .throw _

theorem triple_unpack (formats : Formats) (inside : Under root path) (entry : Entry) :
    Triple (Inside root) (formats.unpack path entry) (fun _ => Inside root) (Inside root) := by
  intro s inv
  obtain ⟨others, written⟩ := formats.destination path entry s
  have after : Inside root (formats.unpack path entry s).state := by
    refine ⟨fun dir above => ?_, fun place member => ?_⟩
    · rw [others dir (by rintro rfl; exact inside.not_above above), inv.root_exists dir above]
    · obtain old | rfl := written place member
      · exact inv.written place old
      · exact inside
  revert after
  cases formats.unpack path entry s with
  | ok _ _ | error _ _ => exact id

theorem triple_restoreEntry (formats : Formats) (entry : Option Entry) :
    Triple (Inside root) (restoreEntry formats root entry) (fun _ => Inside root)
      (Inside root) := by
  cases entry with
  | none => exact .throw _
  | some entry =>
    refine triple_ofExcept fun safe accepted => ?_
    have inside : Under root (join root safe) := (names_of_validate accepted).under
    match entry.entryType with
    | .directory => exact triple_createDirAll fun _ => inside.of_leads
    | .other => exact .throw _
    | .regular =>
      refine (triple_createDirAll fun _ lead =>
        inside.of_leads (lead.trans ( dropLast_prefix _))).bind fun _ => ?_
      exact triple_unpack formats inside entry

def Rebased (formats : Formats) (root : Location) (s : Restoring) : Prop :=
  ∃ manifest, s.tree (join root [.normal manifestEntry]) =
    some (.file (formats.printManifest manifest)) ∧
    ∀ path ∈ BackupManifest.paths manifest, Under root path

theorem triple_replaceManifest (contents : Bytes) :
    Triple (Inside root) (replaceManifest root contents)
    (fun _ s => Inside root s ∧ s.tree (join root [.normal manifestEntry]) = some (.file contents))
      (Inside root) := by
  refine triple_get fun s _ => ?_
  split
  · exact .throw _
  have tmp : Under root (join root [.normal (manifestEntry ++ .ofString ".tmp")]) :=
    (names_single _).under
  refine (triple_put tmp _).bind fun _ => .bind (Q := fun _ => Inside root) ?_ fun _ s inv => ?_
  · exact fun s inv => ⟨inv.update tmp none, inv.written⟩
  · exact ⟨triple_put (names_single _).under _ s inv, Function.update_self ..⟩

theorem triple_restoreBackupReader [External] (formats : Formats) (archive : List (Option Entry)) :
    Triple (Inside root) (restoreBackupReader formats root archive)
      (fun _ s => Inside root s ∧ Rebased formats root s) (Inside root) := by
  refine (triple_forM fun entry _ => triple_restoreEntry formats entry).bind fun _ => ?_
  refine triple_get fun s _ => triple_ofExcept fun _ _ => ?_
  refine triple_get fun s _ => triple_ofExcept fun manifest _ =>
    triple_ofExcept fun rebased accepted => ?_
  exact (triple_replaceManifest _).consequence (fun _ => id)
    (fun _ _ done => ⟨done.1, rebased, done.2, under_of_rebaseManifest accepted⟩) fun _ => id

def StaysInside (formats : Formats) (root : Location) : Result RestoreError Restoring Unit → Prop
  | .ok _ s => (∀ path ∈ s.written, Under root path) ∧ Rebased formats root s
  | .error _ s => ∀ path ∈ s.written, Under root path

/-- Whatever the archive contains, a restore into an empty directory writes only under it, and a
manifest that it leaves names places under it. -/
theorem restoreBackupReader_stays_inside [External] (formats : Formats) (root : Location)
    (archive : List (Option Entry)) (tree : Location → Option Node)
    (start : EmptyDirectory root tree) :
    StaysInside formats root (restoreBackupReader formats root archive ⟨tree, []⟩) := by
  have done := triple_restoreBackupReader formats archive ⟨tree, []⟩ ⟨start.exists_, nofun⟩
  revert done
  cases restoreBackupReader formats root archive ⟨tree, []⟩ with
  | ok _ s => exact fun done => ⟨done.1.written, done.2⟩
  | error _ s => exact Inside.written

/-- Unpacking fails on a directory, and behind the contents of an entry that is cut off. -/
def unpackFile (path : Location) (entry : Entry) : RestoreM Unit := fun s =>
  if s.tree path matches some .directory then .error (.unpack entry.path) s
  else
    let s := ⟨Function.update s.tree path (some (.file entry.contents)), s.written ++ [path]⟩
    if entry.truncated then .error (.unpack entry.path) s else .ok () s

theorem unpackFile_destination (path : Location) (entry : Entry) (s : Restoring) :
    (∀ place ≠ path, (unpackFile path entry s).state.tree place = s.tree place) ∧
      ∀ place ∈ (unpackFile path entry s).state.written, place ∈ s.written ∨ place = path := by
  unfold unpackFile
  split_ifs <;> simp +contextual [Result.state]

open Reference in
theorem manifest_restored_inside :
    let root : Location := [.rootDir, .normal (.ofString "r")]
    let tree : Location → Option Node := fun dir => if dir <+: root then some .directory else none
    let formats : Formats := ⟨unpackFile, unpackFile_destination, fun _ => none,
      fun _ => some ⟨.ofString "/db/heap", .ofString "base", [], [], 0, 1⟩, fun _ => []⟩
    EmptyDirectory root tree ∧
      StaysInside formats root (restoreBackupReader formats root [some ⟨manifestEntry, .regular, [],
      false⟩] ⟨tree, []⟩) := by
  intro root tree formats
  have start : EmptyDirectory root tree := ⟨fun _ above => if_pos above, fun _ inside =>
    if_neg inside.not_above⟩
  exact ⟨start, restoreBackupReader_stays_inside formats root _ tree start⟩

end OmniKV.Restore
