import OmniKV.Query.Documents

/-!
# Secondary indexes

The key of an entry is made of the number of the index, the values of the fields in hexadecimal and
the primary key, with a zero byte after each of them; its value is the primary key. Entries are
staged into the batch that writes the document.
-/

namespace OmniKV.Index

open List Bytes

def encodeIndexValue (value : Json) : IndexFieldType → Bytes
  | .string => (value.asStr.getD []).flatMap fun b => if b = 0 then [0, 1] else [b]
  | .integer =>
    (Bytes.le 8 (BitVec.ofInt 64 (value.asI64.getD 0) ^^^ BitVec.intMin 64).toNat).reverse
  | .float =>
    let bits := value.asF64.getD 0
    let sortable := if bits ≥ 0x8000000000000000 then ~~~bits else bits ^^^ 0x8000000000000000
    (Bytes.le 8 sortable.toNat).reverse

/-- `\0IDX\0` -/
def indexPrefix : Bytes := [0, 73, 68, 88, 0]

/-- `\0IDX_CATALOG\0` -/
def catalogPrefix : Bytes := [0, 73, 68, 88, 95, 67, 65, 84, 65, 76, 79, 71, 0]

def buildIndexScanPrefix (id : ℕ) : Bytes := indexPrefix ++ (Bytes.padded 8 id ++ [0])

def joinValues : List Bytes → Bytes
  | [] => []
  | [value] => Bytes.hexEncode value
  | value :: rest => Bytes.hexEncode value ++ 0 :: joinValues rest

def buildIndexValuePrefix (id : ℕ) (values : List Bytes) : Bytes :=
  buildIndexScanPrefix id ++ joinValues values

def buildExactIndexValuePrefix (id : ℕ) (values : List Bytes) : Bytes :=
  buildIndexValuePrefix id values ++ [0]

def buildIndexKey (id : ℕ) (values : List Bytes) (pk : Bytes) : Bytes :=
  buildIndexScanPrefix id ++ (joinValues values ++ 0 :: pk)

/-- `\x7f`, after which no key of a scanned range is looked for. -/
def rangeStop : Bytes := [127]

def afterLastZero (key : Bytes) : Bytes := (key.reverse.takeWhile (· ≠ 0)).reverse

/-- The encoded values of the fields of an index, unless one of them is missing. -/
def encodedValues (d : IndexDefinition) (doc : Document) : Option (List Bytes) :=
  d.fields.mapM fun field => (doc.get field.1).map fun value => encodeIndexValue value field.2

def entryKey (d : IndexDefinition) (pk : Bytes) (doc : Document) : Option Bytes :=
  (encodedValues d doc).map fun values => buildIndexKey d.id values pk

structure IndexCatalog where
  indexes : SortedMap ℕ IndexDefinition
  nextId : ℕ
  ids : ∀ id d, indexes.get? id = some d → d.id = id

def indexNotFound (name : Bytes) : OmniError :=
  let name := Bytes.text name
  .ioError s!"Index '{name}' not found"

namespace IndexCatalog

def empty : IndexCatalog := ⟨.empty, 1, nofun⟩

variable (catalog : IndexCatalog)

def registerInMemory (d : IndexDefinition) : IndexCatalog where
  indexes := catalog.indexes.insert d.id d
  nextId := catalog.nextId
  ids := by
    intro id found at_id
    rw [SortedMap.get?_insert] at at_id
    split_ifs at at_id with same
    · cases at_id
      exact same.symm
    · exact catalog.ids id found at_id

def remove (id : ℕ) : IndexCatalog where
  indexes := catalog.indexes.erase id
  nextId := catalog.nextId
  ids := by
    intro id' found at_id
    rw [SortedMap.get?_erase] at at_id
    split_ifs at at_id
    exact catalog.ids id' found at_id

def indexesForCollection (collection : Bytes) : List IndexDefinition :=
  (catalog.indexes.entries.map Prod.snd).filter fun d => d.collection = collection

def getByName (name : Bytes) : Option IndexDefinition :=
  (catalog.indexes.entries.map Prod.snd).find? fun d => d.name = name

def Has (d : IndexDefinition) : Prop := catalog.indexes.get? d.id = some d

theorem has_of_mem {catalog : IndexCatalog} {d : IndexDefinition}
    (member : d ∈ catalog.indexes.entries.map Prod.snd) : catalog.Has d := by
  obtain ⟨⟨id, d'⟩, inside, rfl⟩ := mem_map.mp member
  have found : catalog.indexes.get? id = some d' := SortedMap.get?_eq_some_iff.mpr inside
  show catalog.indexes.get? d'.id = some d'
  rw [catalog.ids id d' found, found]

theorem mem_indexesForCollection {catalog : IndexCatalog} {collection : Bytes}
    {d : IndexDefinition} :
    d ∈ catalog.indexesForCollection collection ↔ catalog.Has d ∧ d.collection = collection := by
  rw [indexesForCollection, mem_filter, decide_eq_true_eq]
  refine and_congr_left fun _ => ⟨has_of_mem, fun has => ?_⟩
  exact mem_map.mpr ⟨(d.id, d), SortedMap.get?_eq_some_iff.mp has, rfl⟩

/-- An index is determined by its number. -/
theorem Has.eq_of_id_eq {catalog : IndexCatalog} {d d' : IndexDefinition} (has : catalog.Has d)
    (has' : catalog.Has d') (same : d.id = d'.id) : d = d' := by
  rw [Has, same] at has
  exact Option.some.inj (has.symm.trans has')

end IndexCatalog

variable (catalog : IndexCatalog) (db : TypedStore Stored)

def uniqueViolation (d : IndexDefinition) : OmniError :=
  let name := Bytes.text d.name
  let fields := ", ".intercalate (d.fields.map fun field => "\"" ++ Bytes.text field.1 ++ "\"")
  .ioError s!"UNIQUE CONSTRAINT VIOLATION: index '{name}' on [{fields}]"

/-- Some entry with the values belongs, by its key, to another document. -/
def taken (d : IndexDefinition) (values : List Bytes) (pk : Bytes) : Bool :=
  let lead := buildExactIndexValuePrefix d.id values
  (db.range lead (lead ++ rangeStop)).any fun entry => afterLastZero entry.1 ≠ pk

def indexIn (pk : Bytes) (doc : Document) (batch : TypedBatch Stored) (d : IndexDefinition) :
    Except OmniError (TypedBatch Stored) :=
  match encodedValues d doc with
  | none => .ok batch
  | some values =>
    if d.unique && taken db d values pk then .error (uniqueViolation d)
    else batch.set (buildIndexKey d.id values pk) (.text pk)

def indexDocument (collection pk : Bytes) (doc : Document) (batch : TypedBatch Stored) :
    Except OmniError (TypedBatch Stored) :=
  (catalog.indexesForCollection collection).foldlM (indexIn db pk doc) batch

def removeFrom (pk : Bytes) (doc : Document) (batch : TypedBatch Stored) (d : IndexDefinition) :
    Except OmniError (TypedBatch Stored) :=
  match encodedValues d doc with
  | none => .ok batch
  | some values => batch.delete (buildIndexKey d.id values pk)

def removeDocumentIndexes (collection pk : Bytes) (oldDoc : Document) (batch : TypedBatch Stored) :
    Except OmniError (TypedBatch Stored) :=
  (catalog.indexesForCollection collection).foldlM (removeFrom pk oldDoc) batch

section

variable {catalog db} {pk : Bytes} {doc : Document} {batch batch' : TypedBatch Stored}

theorem indexIn_eq_ok {d : IndexDefinition} (done : indexIn db pk doc batch d = .ok batch') :
    batch'.sets = batch.sets ++ ((entryKey d pk doc).map fun key => (key, Stored.text pk)).toList ∧
      batch'.deletes = batch.deletes ∧
      ∀ values, encodedValues d doc = some values → d.unique = true →
      taken db d values pk = false := by
  rw [indexIn] at done
  rw [entryKey]
  cases encoded : encodedValues d doc with
  | none =>
    rw [encoded] at done
    cases done
    exact ⟨(append_nil _).symm, rfl, nofun⟩
  | some values =>
    rw [encoded] at done
    dsimp only at done
    split_ifs at done with violated
    obtain ⟨sets, deletes⟩ := TypedBatch.set_eq_ok done
    refine ⟨sets, deletes, fun values' same unique => ?_⟩
    cases same
    rw [unique, Bool.not_eq_true] at violated
    exact violated

theorem foldlM_indexIn_eq_ok {ds : List IndexDefinition}
    (done : ds.foldlM (indexIn db pk doc) batch = .ok batch') : batch'.sets = batch.sets ++
        ds.filterMap (fun d => (entryKey d pk doc).map fun key => (key, Stored.text pk)) ∧
      batch'.deletes = batch.deletes ∧ ∀ d ∈ ds, ∀ values, encodedValues d doc = some values →
        d.unique = true → taken db d values pk = false := by
  induction ds generalizing batch with
  | nil =>
    cases done
    exact ⟨(append_nil _).symm, rfl, nofun⟩
  | cons d ds ih =>
    obtain ⟨middle, first, rest⟩ := Except.bind_eq_ok done
    obtain ⟨sets, deletes, free⟩ := indexIn_eq_ok first
    obtain ⟨sets', deletes', free'⟩ := ih rest
    refine ⟨?_, deletes'.trans deletes, fun d' member => ?_⟩
    · rw [sets', sets, append_assoc, filterMap_cons]
      cases (entryKey d pk doc).map fun key => (key, Stored.text pk) with
      | none | some entry => rfl
    · obtain here | later := mem_cons.mp member
      · exact here ▸ free
      · exact free' d' later

theorem removeFrom_eq_ok {d : IndexDefinition} (done : removeFrom pk doc batch d = .ok batch') :
    batch'.sets = batch.sets ∧ batch'.deletes = batch.deletes ++ (entryKey d pk doc).toList := by
  rw [removeFrom] at done
  rw [entryKey]
  cases encoded : encodedValues d doc with
  | none =>
    rw [encoded] at done
    cases done
    exact ⟨rfl, (append_nil _).symm⟩
  | some values =>
    rw [encoded] at done
    exact TypedBatch.delete_eq_ok done

theorem foldlM_removeFrom_eq_ok {ds : List IndexDefinition}
    (done : ds.foldlM (removeFrom pk doc) batch = .ok batch') :
    batch'.sets = batch.sets ∧ batch'.deletes = batch.deletes ++ ds.filterMap
      (entryKey · pk doc) := by
  induction ds generalizing batch with
  | nil =>
    cases done
    exact ⟨rfl, (append_nil _).symm⟩
  | cons d ds ih =>
    obtain ⟨middle, first, rest⟩ := Except.bind_eq_ok done
    obtain ⟨sets, deletes⟩ := removeFrom_eq_ok first
    obtain ⟨sets', deletes'⟩ := ih rest
    refine ⟨sets'.trans sets, ?_⟩
    rw [deletes', deletes, append_assoc, filterMap_cons]
    cases entryKey d pk doc with
    | none | some key => rfl

/-- The entries that a document adds to a batch, and what the unique indexes had then. -/
theorem indexDocument_eq_ok {collection : Bytes}
    (done : indexDocument catalog db collection pk doc batch = .ok batch') :
    (∀ entry, entry ∈ batch'.sets ↔ entry ∈ batch.sets ∨
        ∃ d, catalog.Has d ∧ d.collection = collection ∧ entryKey d pk doc = some entry.1 ∧
          entry.2 = .text pk) ∧ batch'.deletes = batch.deletes ∧
      ∀ d, catalog.Has d → d.collection = collection → ∀ values, encodedValues d doc = some values →
        d.unique = true → taken db d values pk = false := by
  obtain ⟨sets, deletes, free⟩ := foldlM_indexIn_eq_ok done
  refine ⟨fun entry => ?_, deletes, fun d has here =>
    free d (IndexCatalog.mem_indexesForCollection.mpr ⟨has, here⟩)⟩
  obtain ⟨key, value⟩ := entry
  simp only [sets, mem_append, mem_filterMap, IndexCatalog.mem_indexesForCollection,
    Option.map_eq_some_iff, Prod.mk.injEq]
  refine or_congr_right ⟨?_, ?_⟩
  · rintro ⟨d, ⟨has, here⟩, k, entry, rfl, rfl⟩
    exact ⟨d, has, here, entry, rfl⟩
  · rintro ⟨d, has, here, entry, rfl⟩
    exact ⟨d, ⟨has, here⟩, key, entry, rfl, rfl⟩

theorem removeDocumentIndexes_eq_ok {collection : Bytes}
    (done : removeDocumentIndexes catalog collection pk doc batch = .ok batch') :
    batch'.sets = batch.sets ∧ ∀ key, key ∈ batch'.deletes ↔ key ∈ batch.deletes ∨
      ∃ d, catalog.Has d ∧ d.collection = collection ∧ entryKey d pk doc = some key := by
  obtain ⟨sets, deletes⟩ := foldlM_removeFrom_eq_ok done
  refine ⟨sets, fun key => ?_⟩
  simp only [deletes, mem_append, mem_filterMap, IndexCatalog.mem_indexesForCollection, and_assoc]

end

variable {key pk pk' : Bytes} {d : IndexDefinition} {doc : Document}

theorem joinValues_inj {values values' : List Bytes} (length : values.length = values'.length)
    (same : joinValues values ++ 0 :: pk = joinValues values' ++ 0 :: pk') :
    values = values' ∧ pk = pk' := by
  induction values using joinValues.induct generalizing values' with
  | case1 =>
    obtain rfl := eq_nil_of_length_eq_zero length.symm
    exact ⟨rfl, (List.cons.inj same).2⟩
  | case2 value =>
    obtain ⟨value', rfl⟩ := length_eq_one_iff.mp length.symm
    obtain ⟨first, rest⟩ := append_cons_inj (zero_not_mem_hexEncode value)
      (zero_not_mem_hexEncode value') same
    exact ⟨congrArg (fun v => [v]) (hexEncode_inj first), rest⟩
  | case3 value rest more ih =>
    obtain ⟨value', rest', rfl⟩ := exists_cons_of_length_eq_add_one length.symm
    have filled : rest' ≠ [] := by
      rintro rfl
      exact more (eq_nil_of_length_eq_zero (Nat.succ.inj length))
    rw [joinValues.eq_3 value rest more, joinValues.eq_3 value' rest' filled, append_assoc,
      append_assoc] at same
    obtain ⟨first, later⟩ := append_cons_inj (zero_not_mem_hexEncode value)
      (zero_not_mem_hexEncode value') same
    obtain ⟨values, key⟩ := ih (Nat.succ.inj length) later
    exact ⟨congrArg₂ List.cons (hexEncode_inj first) values, key⟩

theorem length_of_encodedValues {values : List Bytes}
    (encoded : encodedValues d doc = some values) : values.length = d.fields.length := by
  rw [encodedValues] at encoded
  generalize d.fields = fields at encoded ⊢
  induction fields generalizing values with
  | nil =>
    cases encoded
    rfl
  | cons field fields ih =>
    rw [mapM_cons] at encoded
    obtain ⟨value, -, more⟩ := Option.bind_eq_some_iff.mp encoded
    obtain ⟨rest, found, same⟩ := Option.bind_eq_some_iff.mp more
    cases same
    exact congrArg Nat.succ (ih found)

theorem scanPrefix_inj {id id' : ℕ} {rest rest' : Bytes}
    (same : buildIndexScanPrefix id ++ rest = buildIndexScanPrefix id' ++ rest') :
    id = id' ∧ rest = rest' := by
  rw [buildIndexScanPrefix, buildIndexScanPrefix, append_assoc, append_assoc, append_assoc,
    append_assoc] at same
  obtain ⟨number, tail⟩ := append_cons_inj (not_mem_padded (by decide) 8 id)
    (not_mem_padded (by decide) 8 id') (append_cancel_left same)
  exact ⟨padded_inj number, tail⟩

theorem entryKey_eq_some_iff : entryKey d pk doc = some key ↔
      ∃ values, encodedValues d doc = some values ∧ buildIndexKey d.id values pk = key :=
  Option.map_eq_some_iff

variable (entry : entryKey d pk doc = some key)

include entry

theorem scanPrefix_of_entryKey : buildIndexScanPrefix d.id <+: key := by
  obtain ⟨values, -, rfl⟩ := entryKey_eq_some_iff.mp entry
  exact prefix_append _ _

/-- An entry of an index belongs to one primary key and one list of values. -/
theorem entryKey_inj {doc' : Document} (entry' : entryKey d pk' doc' = some key) :
    pk = pk' ∧ encodedValues d doc = encodedValues d doc' := by
  obtain ⟨values, encoded, rfl⟩ := entryKey_eq_some_iff.mp entry
  obtain ⟨values', encoded', same⟩ := entryKey_eq_some_iff.mp entry'
  have length : values'.length = values.length :=
    (length_of_encodedValues encoded').trans (length_of_encodedValues encoded).symm
  obtain ⟨rfl, rfl⟩ := joinValues_inj length (scanPrefix_inj same).2
  exact ⟨rfl, encoded.trans encoded'.symm⟩

theorem id_eq_of_entryKey {d' : IndexDefinition} (behind : buildIndexScanPrefix d'.id <+: key) :
    d.id = d'.id := by
  obtain ⟨rest, rfl⟩ := behind
  obtain ⟨rest', same⟩ := scanPrefix_of_entryKey entry
  exact (scanPrefix_inj same).1

omit entry

/-- A name of a collection without a colon, which does not begin with a zero byte. -/
def PlainName (collection : Bytes) : Prop := 58 ∉ collection ∧ collection.head? ≠ some 0
deriving Decidable

theorem PlainName.documentKey_inj {collection collection' : Bytes} (plain : PlainName collection)
    (plain' : PlainName collection')
    (same : documentKey collection pk = documentKey collection' pk') :
    collection = collection' ∧ pk = pk' := append_cons_inj plain.1 plain'.1 same

theorem PlainName.not_entry {collection : Bytes} (plain : PlainName collection) (id : ℕ) :
    ¬buildIndexScanPrefix id <+: documentKey collection pk := by
  rintro ⟨rest, same⟩
  cases collection with
  | nil => cases same
  | cons b collection =>
    have first : (0 : UInt8) = b := (List.cons.inj same).1
    exact plain.2 (by rw [← first]; rfl)

end OmniKV.Index
