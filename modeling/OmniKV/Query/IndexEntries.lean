import OmniKV.Query.Index

/-!
# Index entries and the current documents

A writer stages the removal of the entries of the old document, the entries of the new one and the
document into one batch. Deletes are applied after sets, so an entry that the old and the new
document share is set and then removed.
-/

namespace OmniKV.Index

open TypedStore

inductive DocumentOp
  | insert (collection pk : Bytes) (doc : Document)
  | update (collection pk : Bytes) (doc : Document)
  | delete (collection pk : Bytes)

namespace DocumentOp

def collection : DocumentOp → Bytes
  | insert collection _ _ => collection
  | update collection _ _ => collection
  | delete collection _ => collection

end DocumentOp

variable (catalog : IndexCatalog)

def stageOp (db : TypedStore Stored) (old : Option Document) :
    DocumentOp → Except OmniError (TypedBatch Stored)
  | .insert collection pk doc => do
      let batch ← indexDocument catalog db collection pk doc .new
      batch.set (documentKey collection pk) (.document doc)
  | .update collection pk doc => do
      let removed ← match old with
        | some old => removeDocumentIndexes catalog collection pk old .new
        | none => .ok .new
      let batch ← indexDocument catalog db collection pk doc removed
      batch.set (documentKey collection pk) (.document doc)
  | .delete collection pk => do
      let removed ← match old with
        | some old => removeDocumentIndexes catalog collection pk old .new
        | none => .ok .new
      removed.delete (documentKey collection pk)

def documentAt (db : TypedStore Stored) (collection pk : Bytes) : Option Document :=
  match db.get? (documentKey collection pk) with
  | some (.document doc) => some doc
  | _ => none

/-- Inserts are of new keys, updates and deletes of documents that are there. -/
def nextOp (db : TypedStore Stored) (op : DocumentOp) : Option (TypedStore Stored) :=
  let commit old := match stageOp catalog db old op with
    | .ok batch => db.commit batch
    | .error _ => db
  match op with
  | .insert collection pk _ =>
    if db.get? (documentKey collection pk) = none then some (commit none) else none
  | .update collection pk _ => (documentAt db collection pk).map fun old => commit (some old)
  | .delete collection pk => (documentAt db collection pk).map fun old => commit (some old)

structure Replaces (collection pk : Bytes) (old new : Option Document) (batch : TypedBatch Stored) :
    Prop where
  mem_deletes : ∀ key, key ∈ batch.deletes ↔
    (∃ doc ∈ old, ∃ d, catalog.Has d ∧ d.collection = collection ∧ entryKey d pk doc = some key) ∨
      new = none ∧ key = documentKey collection pk
  mem_sets : ∀ entry, entry ∈ batch.sets ↔ ∃ doc ∈ new,
    (∃ d, catalog.Has d ∧ d.collection = collection ∧ entryKey d pk doc = some entry.1 ∧
      entry.2 = .text pk) ∨ entry = (documentKey collection pk, .document doc)

variable {catalog} {db db' : TypedStore Stored} {collection pk : Bytes}

theorem replaces_of_set {old : Option Document} {doc : Document}
    {removed batch batch' : TypedBatch Stored}
    (nothing : removed.sets = []) (removal : ∀ key, key ∈ removed.deletes ↔ ∃ doc ∈ old, ∃ d,
    catalog.Has d ∧ d.collection = collection ∧ entryKey d pk doc = some key)
    (indexed : indexDocument catalog db collection pk doc removed = .ok batch)
    (written : batch.set (documentKey collection pk) (.document doc) = .ok batch') :
    Replaces catalog collection pk old (some doc) batch' := by
  obtain ⟨entries, deletes, -⟩ := indexDocument_eq_ok indexed
  obtain ⟨sets', deletes'⟩ := TypedBatch.set_eq_ok written
  constructor
  · intro key
    rw [deletes', deletes, removal]
    simp
  · intro entry
    rw [sets', List.mem_append, entries, nothing]
    simp

theorem removal_of_remove {doc : Document} {removed : TypedBatch Stored}
    (done : removeDocumentIndexes catalog collection pk doc .new = .ok removed) :
    removed.sets = [] ∧ ∀ key, key ∈ removed.deletes ↔ ∃ doc' ∈ some doc, ∃ d, catalog.Has d ∧
      d.collection = collection ∧ entryKey d pk doc' = some key := by
  obtain ⟨sets, deletes⟩ := removeDocumentIndexes_eq_ok done
  refine ⟨sets, fun key => ?_⟩
  rw [deletes]
  simp [TypedBatch.new]

theorem nextOp_cases {op : DocumentOp} (step : nextOp catalog db op = some db') :
    db' = db ∨ ∃ pk old new batch, db' = db.commit batch ∧ Replaces catalog op.collection pk old new
      batch ∧ db.get? (documentKey op.collection pk) = old.map .document ∧
      ∀ before ∈ old, ∀ doc ∈ new, op = .update op.collection pk doc := by
  have stored : ∀ {collection pk : Bytes} {old : Document}, documentAt db collection pk = some old →
      db.get? (documentKey collection pk) = (some old).map .document := by
    intro collection pk old found
    rw [documentAt] at found
    split at found
    · rename_i doc here
      cases found
      exact here
    · cases found
  cases op with
  | insert collection pk doc =>
    simp only [nextOp] at step
    split_ifs at step with new
    cases step
    cases staged : stageOp catalog db none (.insert collection pk doc) with
    | error err => exact .inl rfl
    | ok batch =>
      obtain ⟨entries, indexed, written⟩ := Except.bind_eq_ok staged
      exact .inr ⟨pk, none, some doc, batch, rfl,
        replaces_of_set rfl (by simp [TypedBatch.new]) indexed written, new, by simp⟩
  | update collection pk doc =>
    obtain ⟨old, found, rfl⟩ := Option.map_eq_some_iff.mp step
    dsimp only
    cases staged : stageOp catalog db (some old) (.update collection pk doc) with
    | error err => exact .inl rfl
    | ok batch =>
      obtain ⟨removed, first, rest⟩ := Except.bind_eq_ok staged
      obtain ⟨entries, indexed, written⟩ := Except.bind_eq_ok rest
      obtain ⟨nothing, removal⟩ := removal_of_remove first
      refine .inr ⟨pk, some old, some doc, batch, rfl,
        replaces_of_set nothing removal indexed written, stored found, fun _ _ doc' same => ?_⟩
      rw [Option.some.inj same]
      rfl
  | delete collection pk =>
    obtain ⟨old, found, rfl⟩ := Option.map_eq_some_iff.mp step
    dsimp only
    cases staged : stageOp catalog db (some old) (.delete collection pk) with
    | error err => exact .inl rfl
    | ok batch =>
      obtain ⟨removed, first, deleted⟩ := Except.bind_eq_ok staged
      obtain ⟨nothing, removal⟩ := removal_of_remove first
      obtain ⟨sets, deletes⟩ := TypedBatch.delete_eq_ok deleted
      refine .inr ⟨pk, some old, none, batch, rfl, ⟨fun key => ?_, fun entry => ?_⟩, stored found,
        ?_⟩
      · rw [deletes, List.mem_append, removal]
        simp [DocumentOp.collection]
      · rw [sets, nothing]
        simp
      · simp

def Exact (catalog : IndexCatalog) (db : TypedStore Stored) : Prop :=
  ∀ d, catalog.Has d → ∀ key, buildIndexScanPrefix d.id <+: key → ∀ value,
    db.get? key = some value ↔ ∃ pk doc, db.get? (documentKey d.collection pk) =
    some (.document doc) ∧
      entryKey d pk doc = some key ∧ value = .text pk

/-- The collections have plain names, and an update keeps no entry of the old document. -/
def Disjoint (catalog : IndexCatalog) (db : TypedStore Stored) (op : DocumentOp) : Prop :=
  (∀ entry ∈ catalog.indexes.entries, PlainName entry.2.collection) ∧ PlainName op.collection ∧
    match op with
    | .update collection pk doc => ∀ d ∈ catalog.indexesForCollection collection,
        ∀ old ∈ documentAt db collection pk, ∀ key ∈ entryKey d pk old, entryKey d pk doc ≠ some key
    | _ => True

instance (catalog : IndexCatalog) (db : TypedStore Stored) :
    ∀ op, Decidable (Disjoint catalog db op)
  | .insert _ _ _ => inferInstanceAs (Decidable (_ ∧ _ ∧ _))
  | .update _ _ _ => inferInstanceAs (Decidable (_ ∧ _ ∧ _))
  | .delete _ _ => inferInstanceAs (Decidable (_ ∧ _ ∧ _))

namespace Replaces

variable {old new : Option Document} {batch : TypedBatch Stored}
  (replaces : Replaces catalog collection pk old new batch) (plain : PlainName collection)

include replaces plain

theorem get?_document : (db.commit batch).get? (documentKey collection pk) = new.map .document := by
  have noEntry : ∀ d doc, entryKey d pk doc ≠ some (documentKey collection pk) :=
    fun d doc entry => plain.not_entry d.id (scanPrefix_of_entryKey entry)
  cases new with
  | none =>
    rw [get?_commit, if_pos ((replaces.mem_deletes _).mpr (.inr ⟨rfl, rfl⟩))]
    rfl
  | some doc =>
    have kept : documentKey collection pk ∉ batch.deletes := by
      intro deleted
      obtain ⟨doc, -, d, -, -, entry⟩ | gone := (replaces.mem_deletes _).mp deleted
      · exact noEntry d doc entry
      · exact nomatch gone.1
    refine get?_commit_of_mem ((replaces.mem_sets _).mpr ⟨doc, rfl, .inr rfl⟩) ?_ kept
    intro value member
    obtain ⟨doc', same, entry | whole⟩ := (replaces.mem_sets _).mp member
    · obtain ⟨d, -, -, entry, -⟩ := entry
      exact absurd entry (noEntry d doc')
    · rw [(Prod.mk.inj whole).2, Option.some.inj same]

theorem get?_other {collection' pk' : Bytes} (plain' : PlainName collection')
    (other : ¬(collection' = collection ∧ pk' = pk)) :
    (db.commit batch).get? (documentKey collection' pk') = db.get?
      (documentKey collection' pk') := by
  have noEntry : ∀ d doc, entryKey d pk doc ≠ some (documentKey collection' pk') :=
    fun d doc entry => plain'.not_entry d.id (scanPrefix_of_entryKey entry)
  refine get?_commit_of_not_mem (fun value member => ?_) fun deleted => ?_
  · obtain ⟨doc, -, entry | whole⟩ := (replaces.mem_sets _).mp member
    · obtain ⟨d, -, -, entry, -⟩ := entry
      exact noEntry d doc entry
    · exact other (plain'.documentKey_inj plain (Prod.mk.inj whole).1)
  · obtain ⟨doc, -, d, -, -, entry⟩ | gone := (replaces.mem_deletes _).mp deleted
    · exact noEntry d doc entry
    · exact other (plain'.documentKey_inj plain gone.2)

/-- What is at a key of an index afterwards: no entry of the old document, those of the new one, and
what was there otherwise. -/
theorem get?_entry
    {d : IndexDefinition} (has : catalog.Has d) {key : Bytes}
    (behind : buildIndexScanPrefix d.id <+: key) :
    (d.collection = collection ∧ (∃ doc ∈ old, entryKey d pk doc = some key) →
      (db.commit batch).get? key = none) ∧
      (¬(d.collection = collection ∧ ∃ doc ∈ old, entryKey d pk doc = some key) →
        if d.collection = collection ∧ ∃ doc ∈ new, entryKey d pk doc = some key
        then (db.commit batch).get? key = some (.text pk)
        else (db.commit batch).get? key = db.get? key) := by
  have this : ∀ d' doc, catalog.Has d' → entryKey d' pk doc = some key → d' = d :=
    fun d' doc has' entry => has'.eq_of_id_eq has (id_eq_of_entryKey entry behind)
  have notDocument : key ≠ documentKey collection pk := fun same =>
    plain.not_entry d.id (same ▸ behind)
  have deleted : key ∈ batch.deletes ↔ d.collection = collection ∧ ∃ doc ∈ old,
      entryKey d pk doc = some key := by
    rw [replaces.mem_deletes]
    constructor
    · rintro (⟨doc, member, d', has', here, entry⟩ | ⟨-, same⟩)
      · obtain rfl := this d' doc has' entry
        exact ⟨here, doc, member, entry⟩
      · exact absurd same notDocument
    · rintro ⟨here, doc, member, entry⟩
      exact .inl ⟨doc, member, d, has, here, entry⟩
  have set : ∀ value, (key, value) ∈ batch.sets ↔
      d.collection = collection ∧ (∃ doc ∈ new, entryKey d pk doc = some key) ∧
      value = .text pk := by
    intro value
    rw [replaces.mem_sets]
    constructor
    · rintro ⟨doc, member, ⟨d', has', here, entry, rfl⟩ | whole⟩
      · obtain rfl := this d' doc has' entry
        exact ⟨here, ⟨doc, member, entry⟩, rfl⟩
      · exact absurd (Prod.mk.inj whole).1 notDocument
    · rintro ⟨here, ⟨doc, member, entry⟩, rfl⟩
      exact ⟨doc, member, .inl ⟨d, has, here, entry, rfl⟩⟩
  refine ⟨fun gone => ?_, fun kept => ?_⟩
  · rw [get?_commit, if_pos (deleted.mpr gone)]
  · split_ifs with new
    · exact get?_commit_of_mem ((set _).mpr ⟨new.1, new.2, rfl⟩)
        (fun value member => ((set value).mp member).2.2) fun gone => kept (deleted.mp gone)
    · refine get?_commit_of_not_mem (fun value member => new ?_) fun gone => kept (deleted.mp gone)
      exact ⟨((set value).mp member).1, ((set value).mp member).2.1⟩

omit plain

/-- A batch that replaces a document, and keeps none of its entries, keeps the indexes exact. -/
theorem exact (before : db.get? (documentKey collection pk) = old.map .document)
    (plain : PlainName collection) (names : ∀ d, catalog.Has d → PlainName d.collection)
    (disjoint : ∀ d, catalog.Has d → d.collection = collection → ∀ doc ∈ old, ∀ doc' ∈ new,
      ∀ key, entryKey d pk doc = some key → entryKey d pk doc' ≠ some key)
    (exact : Exact catalog db) : Exact catalog (db.commit batch) := by
  intro d has key behind value
  obtain ⟨gone, kept⟩ := @get?_entry catalog db _ _ _ _ _ replaces plain d has key behind
  -- The documents whose entry the key can be, before and after.
  have current : ∀ pk' doc', (db.commit batch).get? (documentKey d.collection pk') =
    some (.document doc') ↔
      (d.collection = collection ∧ pk' = pk ∧ doc' ∈ new) ∨ ¬(d.collection = collection ∧
      pk' = pk) ∧
          db.get? (documentKey d.collection pk') = some (.document doc') := by
    intro pk' doc'
    by_cases same : d.collection = collection ∧ pk' = pk
    · obtain ⟨rfl, rfl⟩ := same
      rw [replaces.get?_document plain]
      cases new with
      | none => simp
      | some doc => simp [eq_comm]
    · rw [replaces.get?_other plain (names d has) same]
      constructor
      · exact fun found => .inr ⟨same, found⟩
      · rintro (⟨here, key, -⟩ | ⟨-, found⟩)
        · exact absurd ⟨here, key⟩ same
        · exact found
  by_cases was : d.collection = collection ∧ ∃ doc ∈ old, entryKey d pk doc = some key
  · rw [gone was]
    refine ⟨nofun, ?_⟩
    rintro ⟨pk', doc', found, entry, -⟩
    obtain ⟨here, doc, member, entry'⟩ := was
    obtain rfl := (entryKey_inj entry entry').1
    obtain new | other := (current pk' doc').mp found
    · exact absurd entry (disjoint d has here doc member doc' new.2.2 key entry')
    · exact absurd ⟨here, rfl⟩ other.1
  · have after := kept was
    split_ifs at after with is
    · rw [after, Option.some.injEq]
      obtain ⟨here, doc, member, entry⟩ := is
      constructor
      · rintro rfl
        exact ⟨pk, doc, (current pk doc).mpr (.inl ⟨here, rfl, member⟩), entry, rfl⟩
      · rintro ⟨pk', doc', found, entry', rfl⟩
        rw [(entryKey_inj entry' entry).1]
    · rw [after, exact d has key behind value]
      refine exists_congr fun pk' => exists_congr fun doc' => and_congr_left fun ⟨entry, _⟩ => ?_
      rw [current]
      constructor
      · intro found
        refine .inr ⟨?_, found⟩
        rintro ⟨here, rfl⟩
        rw [here, before] at found
        obtain ⟨doc, member, same⟩ := Option.map_eq_some_iff.mp found
        obtain rfl := Stored.document.inj same
        exact was ⟨here, doc, member, entry⟩
      · rintro (⟨here, rfl, member⟩ | ⟨-, found⟩)
        · exact absurd ⟨here, doc', member, entry⟩ is
        · exact found

end Replaces

theorem Exact.nextOp {op : DocumentOp} (exact : Exact catalog db)
    (disjoint : Disjoint catalog db op)
    (step : nextOp catalog db op = some db') : Exact catalog db' := by
  obtain ⟨names, plain, apart⟩ := disjoint
  have named : ∀ d, catalog.Has d → PlainName d.collection :=
    fun d has => names (d.id, d) (SortedMap.get?_eq_some_iff.mp has)
  obtain rfl | ⟨pk, old, new, batch, rfl, replaces, before, update⟩ := nextOp_cases step
  · exact exact
  · refine replaces.exact before plain named (fun d has here doc was doc' is key entry => ?_) exact
    have same := update doc was doc' is
    rw [same] at apart
    refine apart d (IndexCatalog.mem_indexesForCollection.mpr ⟨has, here⟩) doc ?_ key entry
    rw [documentAt, before, Option.mem_def.mp was]
    rfl

/-- As long as no update keeps an entry of the old document, the entries of every index are those of
the current documents. -/
theorem exact_of_run (start : Exact catalog db)
    (run : Relation.ReflTransGen (Run.SafeStep (Disjoint catalog) (nextOp catalog)) db db') :
    Exact catalog db' :=
  Run.invariant run start fun exact disjoint step => exact.nextOp disjoint step

/-- An index on the field `age` of the collection `users`. -/
def sampleIndex : IndexDefinition where
  id := 1
  name := .ofString "by_age"
  collection := .ofString "users"
  fields := [(.ofString "age", .integer)]
  unique := false

def sampleCatalog : IndexCatalog := IndexCatalog.empty.registerInMemory sampleIndex

def sampleUser (name : String) (age : ℤ) : Document :=
  .object ((SortedMap.empty.insert (.ofString "name") (.string (.ofString name))).insert
    (.ofString "age") (.integer age))

/-- The user changes their name and keeps their age. -/
def sampleRename : List DocumentOp :=
  [.insert (.ofString "users") (.ofString "1") (sampleUser "Ann" 30),
    .update (.ofString "users") (.ofString "1") (sampleUser "Anna" 30)]

/-- Two users of one age, until one of them has a birthday. -/
def sampleBirthday : List DocumentOp :=
  [.insert (.ofString "users") (.ofString "1") (sampleUser "Ann" 30),
    .insert (.ofString "users") (.ofString "2") (sampleUser "Bob" 30),
    .update (.ofString "users") (.ofString "1") (sampleUser "Ann" 31)]

theorem exact_empty (catalog : IndexCatalog) : Exact catalog .empty := by
  intro d has key behind value
  refine ⟨nofun, ?_⟩
  rintro ⟨pk, doc, found, -⟩
  cases found

/-- An update that leaves the indexed value as it was removes the entry of the document. -/
theorem unchanged_value_loses_entry :
    ∃ db, sampleRename.foldlM (nextOp sampleCatalog) .empty = some db ∧
      documentAt db (.ofString "users") (.ofString "1") = some (sampleUser "Anna" 30) ∧
      (db.range (buildIndexScanPrefix 1) (buildIndexScanPrefix 1 ++ rangeStop)) = [] ∧
      ¬Exact sampleCatalog db := by
  have runs : ∃ db, sampleRename.foldlM (nextOp sampleCatalog) .empty = some db ∧
      documentAt db (.ofString "users") (.ofString "1") = some (sampleUser "Anna" 30) ∧
      db.get? (documentKey (.ofString "users") (.ofString "1")) =
      some (.document (sampleUser "Anna" 30)) ∧
      (db.range (buildIndexScanPrefix 1) (buildIndexScanPrefix 1 ++ rangeStop)) = [] ∧
      ∃ key ∈ entryKey sampleIndex (.ofString "1") (sampleUser "Anna" 30), db.get? key = none := by
    decide +kernel
  obtain ⟨db, run, current, stored, none, key, entry, gone⟩ := runs
  refine ⟨db, run, current, none, fun exact => ?_⟩
  have found := (exact sampleIndex rfl key (scanPrefix_of_entryKey entry) _).mpr
    ⟨.ofString "1", _, stored, entry, rfl⟩
  rw [gone] at found
  cases found

theorem exact_after_birthday :
    ∃ db, Run.guarded (Disjoint sampleCatalog) (nextOp sampleCatalog) .empty sampleBirthday =
      some db ∧
      documentAt db (.ofString "users") (.ofString "1") = some (sampleUser "Ann" 31) ∧
      Exact sampleCatalog db := by
  have run := Run.safeStep_get (Disjoint sampleCatalog) (nextOp sampleCatalog) .empty sampleBirthday
    (by decide +kernel)
  exact ⟨_, (Option.some_get _).symm, by decide +kernel, exact_of_run (exact_empty _) run⟩

end OmniKV.Index
