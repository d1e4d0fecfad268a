import OmniKV.Query.Index

/-!
# Uniqueness of indexed values

Before an entry of a unique index is staged, the committed entries with the same values are scanned.
The scan ends at the byte `7f`, the primary key is what stands behind the last zero byte of a key,
and the entries that the batch has staged are not looked at.
-/

namespace OmniKV.Index

open List

structure NewDocument where
  collection : Bytes
  pk : Bytes
  doc : Document
deriving DecidableEq

variable (catalog : IndexCatalog)

def stageDocument (db : TypedStore Stored) (batch : TypedBatch Stored) (x : NewDocument) :
    Except OmniError (TypedBatch Stored) := do
  let batch ← indexDocument catalog db x.collection x.pk x.doc batch
  batch.set (documentKey x.collection x.pk) (.document x.doc)

def commitDocuments (db : TypedStore Stored) (docs : List NewDocument) :
    Option (TypedStore Stored) :=
  ((docs.foldlM (stageDocument catalog db) .new).map db.commit).toOption

/-- The batch has documents and entries, and unique indexes had no entry of another document. -/
structure Stages (db : TypedStore Stored) (docs : List NewDocument) (batch : TypedBatch Stored) :
    Prop where
  deletes : batch.deletes = []
  mem_sets : ∀ entry, entry ∈ batch.sets ↔ ∃ x ∈ docs,
    (∃ d, catalog.Has d ∧ d.collection = x.collection ∧ entryKey d x.pk x.doc = some entry.1 ∧
      entry.2 = .text x.pk) ∨ entry = (documentKey x.collection x.pk, .document x.doc)
  free : ∀ x ∈ docs, ∀ d, catalog.Has d → d.collection = x.collection → d.unique = true →
    ∀ values, encodedValues d x.doc = some values → taken db d values x.pk = false

variable {catalog} {db db' : TypedStore Stored}
  {docs : List NewDocument} {batch : TypedBatch Stored} {d : IndexDefinition}
  {doc : Document} {pk : Bytes}

theorem Stages.stageDocument {batch' : TypedBatch Stored} {x : NewDocument}
    (stages : Stages catalog db docs batch) (done : stageDocument catalog db batch x = .ok batch') :
    Stages catalog db (docs ++ [x]) batch' := by
  obtain ⟨entries, indexed, written⟩ := Except.bind_eq_ok done
  obtain ⟨added, deletes, free⟩ := indexDocument_eq_ok indexed
  obtain ⟨sets, deletes'⟩ := TypedBatch.set_eq_ok written
  refine ⟨deletes'.trans (deletes.trans stages.deletes), fun entry => ?_,
    fun y member d has here unique => ?_⟩
  · rw [sets, mem_append, added, stages.mem_sets, mem_singleton]
    simp only [mem_append, mem_singleton, or_and_right, exists_or, exists_eq_left, or_assoc]
  · intro values encoded
    obtain old | new := mem_append.mp member
    · exact stages.free y old d has here unique values encoded
    · obtain rfl := mem_singleton.mp new
      exact free d has here values encoded unique

theorem stages_of_foldlM
    (done : docs.foldlM (stageDocument catalog db) .new = .ok batch) :
    Stages catalog db docs batch :=
  Except.foldlM_induction (I := Stages catalog db) done ⟨rfl, by simp [TypedBatch.new], nofun⟩
    fun _ stages first => stages.stageDocument first

def SameValues (d : IndexDefinition) (doc doc' : Document) : Prop :=
  ∀ field ∈ d.fields, ∃ value ∈ doc.get field.1, ∃ value' ∈ doc'.get field.1,
    value.equal value' = true
deriving Decidable

/-- No two documents have equal values in the fields of a unique index of their collection. -/
def Unique (catalog : IndexCatalog) (db : TypedStore Stored) : Prop :=
  ∀ d, catalog.Has d → d.unique = true → ∀ pk pk' doc doc',
    db.get? (documentKey d.collection pk) = some (.document doc) →
    db.get? (documentKey d.collection pk') = some (.document doc') → pk ≠ pk' →
    ¬SameValues d doc doc'

/-- A primary key that is read back from an entry and found by the scan. -/
def PlainKey (pk : Bytes) : Prop := 0 ∉ pk ∧ pk ≤ rangeStop
deriving Decidable

def PlainValues (d : IndexDefinition) (doc : Document) : Prop :=
  ∀ field ∈ d.fields, doc.get field.1 ≠ some (.float Json.negativeZero)
deriving Decidable

/-- Names, keys and values are plain, and no two documents have the same values in a unique index.
-/
def Distinct (catalog : IndexCatalog) (_ : TypedStore Stored) (docs : List NewDocument) : Prop :=
  (∀ entry ∈ catalog.indexes.entries, PlainName entry.2.collection) ∧
    (∀ x ∈ docs, PlainName x.collection ∧ PlainKey x.pk ∧
      ∀ d ∈ catalog.indexesForCollection x.collection, PlainValues d x.doc) ∧
    ∀ x ∈ docs, ∀ y ∈ docs, x.collection = y.collection → x.pk ≠ y.pk →
      ∀ d ∈ catalog.indexesForCollection x.collection, d.unique = true → ¬SameValues d x.doc y.doc
deriving Decidable

theorem SameValues.encodedValues_eq {doc' : Document} (same : SameValues d doc doc')
    (plain : PlainValues d doc) (plain' : PlainValues d doc') :
    ∃ values, encodedValues d doc = some values ∧ encodedValues d doc' = some values := by
  rw [encodedValues, encodedValues]
  rw [SameValues] at same
  rw [PlainValues] at plain plain'
  generalize d.fields = fields at same plain plain' ⊢
  induction fields with
  | nil => exact ⟨[], rfl, rfl⟩
  | cons field fields ih =>
    obtain ⟨values, rest, rest'⟩ := ih (fun f hf => same f (mem_cons_of_mem _ hf))
      (fun f hf => plain f (mem_cons_of_mem _ hf)) fun f hf => plain' f (mem_cons_of_mem _ hf)
    obtain ⟨value, found, value', found', equal⟩ := same field mem_cons_self
    have here := plain field mem_cons_self
    have here' := plain' field mem_cons_self
    rw [found] at here
    rw [found'] at here'
    obtain rfl := Json.eq_of_equal equal (fun neg => here (congrArg some neg)) fun neg =>
      here' (congrArg some neg)
    refine ⟨encodeIndexValue value field.2 :: values, ?_, ?_⟩
    · rw [mapM_cons, found, rest]
      rfl
    · rw [mapM_cons, found', rest']
      rfl

theorem SameValues.symm {doc' : Document} (same : SameValues d doc doc') :
    SameValues d doc' doc := by
  have swap : ∀ a b : Json, a.equal b = true → b.equal a = true := by
    intro a b equal
    cases a <;> cases b <;>
      simp only [Json.equal, Bool.or_eq_true, Bool.and_eq_true, decide_eq_true_eq, reduceCtorEq]
        at equal ⊢
    · exact equal.symm
    · exact equal.symm
    · exact equal.imp Eq.symm And.symm
    · exact equal.symm
    · exact equal.symm
  intro field member
  obtain ⟨value, found, value', found', equal⟩ := same field member
  exact ⟨value', found', value, found, swap value value' equal⟩

theorem afterLastZero_append {lead : Bytes} (free : 0 ∉ pk) :
    afterLastZero (lead ++ 0 :: pk) = pk := by
  have all : ∀ b ∈ pk.reverse, decide (b ≠ 0) = true := by
    intro b member
    rw [decide_eq_true_eq]
    rintro rfl
    exact free (mem_reverse.mp member)
  rw [afterLastZero, reverse_append, reverse_cons, append_assoc, takeWhile_append_of_pos all]
  simp

theorem taken_of_entry {values : List Bytes} {pk' : Bytes} (plain : PlainKey pk')
    (stored : db.get? (buildIndexKey d.id values pk') ≠ none) (other : pk' ≠ pk) :
    taken db d values pk = true := by
  obtain ⟨value, found⟩ := Option.ne_none_iff_exists'.mp stored
  have key : buildIndexKey d.id values pk' = buildExactIndexValuePrefix d.id values ++ pk' := by
    simp [buildIndexKey, buildExactIndexValuePrefix, buildIndexValuePrefix]
  obtain ⟨start, stop⟩ := Bytes.between_append_iff.mpr ⟨pk', key, plain.2⟩
  rw [taken, any_eq_true]
  refine ⟨(_, value), SortedMap.mem_range.mpr ⟨start, stop, found⟩, ?_⟩
  rw [decide_eq_true_eq, buildIndexKey, ← append_assoc, afterLastZero_append plain.1]
  exact other

/-- Every document has its entries, plain keys and plain values, and values are unique. -/
structure Indexed (catalog : IndexCatalog) (db : TypedStore Stored) : Prop where
  names : ∀ d, catalog.Has d → PlainName d.collection
  plain : ∀ d, catalog.Has d → ∀ pk doc, db.get? (documentKey d.collection pk) =
    some (.document doc) →
      PlainKey pk ∧ PlainValues d doc
  entries : ∀ d, catalog.Has d → ∀ pk doc, db.get? (documentKey d.collection pk) =
    some (.document doc) →
      ∀ key, entryKey d pk doc = some key → db.get? key ≠ none
  unique : Unique catalog db

theorem indexed_empty {catalog : IndexCatalog} (names : ∀ d, catalog.Has d →
    PlainName d.collection) : Indexed catalog .empty :=
  ⟨names, nofun, nofun, nofun⟩

theorem Stages.document (stages : Stages catalog db docs batch) {collection : Bytes}
    (plain : PlainName collection) (names : ∀ x ∈ docs, PlainName x.collection)
    (found : (db.commit batch).get? (documentKey collection pk) = some (.document doc)) :
    (∃ x ∈ docs, x.collection = collection ∧ x.pk = pk ∧ x.doc = doc) ∨
      db.get? (documentKey collection pk) = some (.document doc) := by
  rw [TypedStore.get?_commit, stages.deletes] at found
  cases last : batch.lastSet? (documentKey collection pk) with
  | none =>
    rw [last] at found
    exact .inr found
  | some value =>
    rw [last] at found
    cases found
    obtain ⟨x, member, entry | whole⟩ := (stages.mem_sets _).mp (TypedBatch.mem_of_lastSet? last)
    · obtain ⟨d, -, -, entry, -⟩ := entry
      exact absurd (scanPrefix_of_entryKey entry) (plain.not_entry d.id)
    · obtain ⟨key, stored⟩ := Prod.mk.inj whole
      obtain ⟨rfl, rfl⟩ := plain.documentKey_inj (names x member) key
      exact .inl ⟨x, member, rfl, rfl, (Stored.document.inj stored).symm⟩

theorem Stages.get?_ne_none (stages : Stages catalog db docs batch) {key : Bytes}
    (present : db.get? key ≠ none ∨ ∃ value, (key, value) ∈ batch.sets) :
    (db.commit batch).get? key ≠ none := by
  rw [TypedStore.get?_commit, stages.deletes, if_neg not_mem_nil, ne_eq, Option.or_eq_none_iff,
    TypedBatch.lastSet?_eq_none_iff]
  rintro ⟨absent, missing⟩
  obtain old | ⟨value, member⟩ := present
  · exact old missing
  · exact absent value member

theorem Indexed.commitDocuments (indexed : Indexed catalog db)
    (distinct : Distinct catalog db docs) (done : commitDocuments catalog db docs = some db') :
    Indexed catalog db' := by
  obtain ⟨-, plain, apart⟩ := distinct
  obtain ⟨batch, staged, rfl⟩ : ∃ batch, docs.foldlM (stageDocument catalog db) .new = .ok batch ∧
      db.commit batch = db' := by
    rw [Index.commitDocuments] at done
    cases staged : docs.foldlM (stageDocument catalog db) .new with
    | error err =>
      rw [staged] at done
      cases done
    | ok batch =>
      rw [staged] at done
      exact ⟨batch, rfl, Option.some.inj done⟩
  have stages := stages_of_foldlM staged
  have origin : ∀ d, catalog.Has d → ∀ pk doc,
      (db.commit batch).get? (documentKey d.collection pk) = some (.document doc) →
      (∃ x ∈ docs, x.collection = d.collection ∧ x.pk = pk ∧ x.doc = doc) ∨
        db.get? (documentKey d.collection pk) = some (.document doc) :=
    fun d has pk doc found => stages.document (indexed.names d has) (fun x member =>
      (plain x member).1) found
  have listed : ∀ d, catalog.Has d → d ∈ catalog.indexesForCollection d.collection :=
    fun d has => IndexCatalog.mem_indexesForCollection.mpr ⟨has, rfl⟩
  have plain' : ∀ d, catalog.Has d → ∀ pk doc,
      (db.commit batch).get? (documentKey d.collection pk) = some (.document doc) →
      PlainKey pk ∧ PlainValues d doc := by
    intro d has pk doc found
    obtain ⟨x, member, here, rfl, rfl⟩ | old := origin d has pk doc found
    · exact ⟨(plain x member).2.1, (plain x member).2.2 d (here ▸ listed d has)⟩
    · exact indexed.plain d has pk doc old
  -- A staged document and one that was there before differ: the scan saw the entry.
  have fresh : ∀ d, catalog.Has d → d.unique = true → ∀ x ∈ docs, x.collection = d.collection →
      ∀ pk doc, db.get? (documentKey d.collection pk) = some (.document doc) → x.pk ≠ pk →
      ¬SameValues d x.doc doc := by
    intro d has unique x member here pk doc old other same
    obtain ⟨plainKey, plainValues⟩ := indexed.plain d has pk doc old
    obtain ⟨values, encoded, encoded'⟩ :=
      same.encodedValues_eq ((plain x member).2.2 d (here ▸ listed d has)) plainValues
    have entry := indexed.entries d has pk doc old _ (entryKey_eq_some_iff.mpr ⟨values, encoded',
      rfl⟩)
    have seen : taken db d values x.pk = true := taken_of_entry plainKey entry other.symm
    rw [stages.free x member d has here.symm unique values encoded] at seen
    cases seen
  refine ⟨indexed.names, plain', fun d has pk doc found key entry => ?_, ?_⟩
  · obtain ⟨x, member, here, rfl, rfl⟩ | old := origin d has pk doc found
    · exact stages.get?_ne_none (.inr ⟨.text x.pk,
        (stages.mem_sets _).mpr ⟨x, member, .inl ⟨d, has, here.symm, entry, rfl⟩⟩⟩)
    · exact stages.get?_ne_none (.inl (indexed.entries d has pk doc old key entry))
  · intro d has unique pk pk' doc doc' found found' other same
    obtain ⟨x, member, here, rfl, rfl⟩ | old := origin d has pk doc found
    · obtain ⟨y, member', here', rfl, rfl⟩ | old' := origin d has pk' doc' found'
      · exact apart x member y member' (here.trans here'.symm) other d (here ▸ listed d has) unique
          same
      · exact fresh d has unique x member here pk' doc' old' other same
    · obtain ⟨y, member', here', rfl, rfl⟩ | old' := origin d has pk' doc' found'
      · exact fresh d has unique y member' here' pk doc old other.symm same.symm
      · exact indexed.unique d has unique pk pk' doc doc' old old' other same

/-- With plain keys and values and batches without duplicates, the values of unique indexes stay
unique. -/
theorem unique_of_run (start : Indexed catalog db)
    (run : Relation.ReflTransGen (Run.SafeStep (Distinct catalog) (commitDocuments catalog)) db
    db') : Unique catalog db' := by
  have indexed : Indexed catalog db' :=
    Run.invariant run start fun indexed distinct step => indexed.commitDocuments distinct step
  exact indexed.unique

/-- A unique index on the field `email` of the collection `users`. -/
def sampleUnique : IndexDefinition where
  id := 1
  name := .ofString "by_email"
  collection := .ofString "users"
  fields := [(.ofString "email", .string)]
  unique := true

def sampleUniqueCatalog : IndexCatalog := IndexCatalog.empty.registerInMemory sampleUnique

def sampleAccount (pk : Bytes) (email : String) : NewDocument where
  collection := .ofString "users"
  pk := pk
  doc := .object (SortedMap.empty.insert (.ofString "email") (.string (.ofString email)))

def AcceptsDuplicate (batches : List (List NewDocument)) : Prop :=
  ∃ db, batches.foldlM (commitDocuments sampleUniqueCatalog) .empty = some db ∧
    ¬Unique sampleUniqueCatalog db

theorem acceptsDuplicate_of_run {batches : List (List NewDocument)} {x y : NewDocument}
    (runs : ∃ db, batches.foldlM (commitDocuments sampleUniqueCatalog) .empty = some db ∧
      db.get? (documentKey (.ofString "users") x.pk) = some (.document x.doc) ∧
      db.get? (documentKey (.ofString "users") y.pk) = some (.document y.doc) ∧ x.pk ≠ y.pk ∧
      SameValues sampleUnique x.doc y.doc) : AcceptsDuplicate batches := by
  obtain ⟨db, run, first, second, other, same⟩ := runs
  exact ⟨db, run, fun unique => unique sampleUnique rfl rfl _ _ _ _ first second other same⟩

/-- Two keys with one email address are accepted: in one batch, after a key above `7f`, and after
one with a zero byte. -/
theorem duplicates_accepted :
    AcceptsDuplicate [[sampleAccount [97] "a@x", sampleAccount [98] "a@x"]] ∧
      AcceptsDuplicate [[sampleAccount [195, 169] "a@x"], [sampleAccount [98] "a@x"]] ∧
      AcceptsDuplicate [[sampleAccount [97, 0, 98] "a@x"], [sampleAccount [98] "a@x"]] := by
  refine ⟨acceptsDuplicate_of_run (x := sampleAccount [97] "a@x") (y := sampleAccount [98] "a@x")
    ?_,
    acceptsDuplicate_of_run (x := sampleAccount [195, 169] "a@x")
    (y := sampleAccount [98] "a@x") ?_,
    acceptsDuplicate_of_run (x := sampleAccount [97, 0, 98] "a@x")
    (y := sampleAccount [98] "a@x") ?_⟩
  · decide +kernel
  · decide +kernel
  · decide +kernel

theorem unique_after_batches :
    ∃ db, Run.guarded (Distinct sampleUniqueCatalog) (commitDocuments sampleUniqueCatalog) .empty
        [[sampleAccount [97] "a@x", sampleAccount [98] "b@x"], [sampleAccount [99] "c@x"]] =
          some db ∧ Unique sampleUniqueCatalog db := by
  have run := Run.safeStep_get (Distinct sampleUniqueCatalog) (commitDocuments sampleUniqueCatalog)
    .empty
    [[sampleAccount [97] "a@x", sampleAccount [98] "b@x"], [sampleAccount [99] "c@x"]]
    (by decide +kernel)
  refine ⟨_, (Option.some_get _).symm, unique_of_run (indexed_empty fun d has => ?_) run⟩
  have only : ∀ entry ∈ sampleUniqueCatalog.indexes.entries, PlainName entry.2.collection :=
    by decide
  exact only (d.id, d) (SortedMap.get?_eq_some_iff.mp has)

end OmniKV.Index
