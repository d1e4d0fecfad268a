import OmniKV.Query.IndexEntries

/-!
# Reading an index

A lookup reads the entries from the encoded values up to the byte `7f`; a range scan up to the
encoded upper value with `~~` behind it. A value that is not of the declared type is encoded as the
empty string or as zero.
-/

namespace OmniKV.Index

open List Bytes

def primaryKeys (entries : List (Bytes × Stored)) : List Bytes :=
  entries.filterMap fun entry => match entry.2 with
    | .text pk => some pk
    | _ => none

def encodeAll (d : IndexDefinition) (values : List Json) : List Bytes :=
  (values.zip d.fields).map fun x => encodeIndexValue x.1 x.2.2

variable (catalog : IndexCatalog) (db : TypedStore Stored)

def lookup (name : Bytes) (values : List Json) : Except OmniError (List Bytes) :=
  match catalog.getByName name with
  | none => .error (indexNotFound name)
  | some d =>
    if values.length = d.fields.length then
      let lead := buildExactIndexValuePrefix d.id (encodeAll d values)
      .ok (primaryKeys (db.range lead (lead ++ rangeStop)))
    else
      let (expected, name, got) := (d.fields.length, Bytes.text name, values.length)
      .error (.ioError s!"Expected {expected} values for index '{name}', got {got}")

def rangeScan (name : Bytes) (startValue endValue : Json) : Except OmniError (List Bytes) :=
  match catalog.getByName name with
  | none => .error (indexNotFound name)
  | some d =>
    match d.fields with
    | [(_, fieldType)] =>
      let startKey := buildIndexValuePrefix d.id [encodeIndexValue startValue fieldType]
      let endKey := buildIndexValuePrefix d.id [encodeIndexValue endValue fieldType] ++ [126, 126]
      .ok (primaryKeys (db.range startKey endKey))
    | _ => .error (.ioError "Range scan only supported on single-field indexes")

variable {catalog db} {d : IndexDefinition} {name pk key a b : Bytes}

theorem IndexCatalog.has_of_getByName (named : catalog.getByName name = some d) :
    catalog.Has d := by
  exact has_of_mem (mem_of_find?_eq_some named)

theorem documentAt_eq_some_iff {collection : Bytes} {doc : Document} :
    documentAt db collection pk = some doc ↔ db.get? (documentKey collection pk) =
      some (.document doc) := by
  rw [documentAt]
  split
  · next stored => rw [stored, Option.some.injEq, Option.some.injEq, Stored.document.injEq]
  · next other => exact iff_of_false (by simp) (other doc)

/-- The entry of the current document has the key behind the prefix of the index. -/
def EntryAt (db : TypedStore Stored) (d : IndexDefinition) (pk key : Bytes) : Prop :=
  ∃ doc ∈ documentAt db d.collection pk, entryKey d pk doc = some (buildIndexScanPrefix d.id ++ key)

theorem EntryAt.eq {key' : Bytes} (entry : EntryAt db d pk key) (entry' : EntryAt db d pk key') :
    key = key' := by
  obtain ⟨doc, current, here⟩ := entry
  obtain ⟨doc', current', here'⟩ := entry'
  cases Option.some.inj (current.symm.trans current')
  exact append_cancel_left (Option.some.inj (here.symm.trans here'))

theorem mem_range_iff (exact : Exact catalog db) (has : catalog.Has d) {entry : Bytes × Stored} :
    entry ∈ db.range (buildIndexScanPrefix d.id ++ a) (buildIndexScanPrefix d.id ++ b) ↔
      ∃ pk key, EntryAt db d pk key ∧ a ≤ key ∧ key ≤ b ∧
      entry = (buildIndexScanPrefix d.id ++ key, .text pk) := by
  obtain ⟨key, value⟩ := entry
  rw [SortedMap.mem_range]
  constructor
  · rintro ⟨above, below, stored⟩
    obtain ⟨rest, rfl, -⟩ := between_append_iff.mp ⟨(le_append _ _).trans above, below⟩
    obtain ⟨pk, doc, current, entry, rfl⟩ := (exact d has _ (List.prefix_append _ _) _).mp stored
    exact ⟨pk, rest, ⟨doc, documentAt_eq_some_iff.mpr current, entry⟩,
      append_le_append_iff.mp above, append_le_append_iff.mp below, rfl⟩
  · rintro ⟨pk, rest, ⟨doc, current, entry⟩, above, below, same⟩
    cases same
    exact ⟨append_le_append_iff.mpr above, append_le_append_iff.mpr below,
      (exact d has _ (List.prefix_append _ _) _).mpr ⟨pk, doc, documentAt_eq_some_iff.mp current,
      entry, rfl⟩⟩

/-- A range has the primary keys of its entries, each once and in the order of the entries. -/
theorem primaryKeys_range (exact : Exact catalog db) (has : catalog.Has d) (a b : Bytes) :
    let pks :=
      primaryKeys (db.range (buildIndexScanPrefix d.id ++ a) (buildIndexScanPrefix d.id ++ b))
    pks.Nodup ∧ (∀ pk, pk ∈ pks ↔ ∃ key, EntryAt db d pk key ∧ a ≤ key ∧ key ≤ b) ∧
      pks.Pairwise fun pk pk' => ∃ key key', EntryAt db d pk key ∧ EntryAt db d pk' key' ∧
      key ≤ key' := by
  have ordered : (primaryKeys (db.range (buildIndexScanPrefix d.id ++ a)
      (buildIndexScanPrefix d.id ++ b))).Pairwise fun pk pk' =>
        ∃ key key', EntryAt db d pk key ∧ EntryAt db d pk' key' ∧ key ≤ key' ∧ key ≠ key' := by
    rw [primaryKeys, pairwise_filterMap]
    refine (SortedMap.pairwise_range db _ _).imp_of_mem fun memberX memberY less => ?_
    obtain ⟨pk, key, entry, -, -, rfl⟩ := (mem_range_iff exact has).mp memberX
    obtain ⟨pk', key', entry', -, -, rfl⟩ := (mem_range_iff exact has).mp memberY
    rintro _ ⟨⟩ _ ⟨⟩
    exact ⟨key, key', entry, entry', append_le_append_iff.mp less.le, fun same =>
      less.ne (by rw [same])⟩
  refine ⟨ordered.imp ?_, fun pk => ?_, ordered.imp ?_⟩
  · rintro pk _ ⟨key, key', entry, entry', -, other⟩ rfl
    exact other (entry.eq entry')
  · rw [primaryKeys, mem_filterMap]
    constructor
    · rintro ⟨entry, member, read⟩
      obtain ⟨pk', key, current, above, below, rfl⟩ := (mem_range_iff exact has).mp member
      cases read
      exact ⟨key, current, above, below⟩
    · rintro ⟨key, current, above, below⟩
      exact ⟨_, (mem_range_iff exact has).mpr ⟨pk, key, current, above, below, rfl⟩, rfl⟩
  · rintro pk pk' ⟨key, key', entry, entry', le, -⟩
    exact ⟨key, key', entry, entry', le⟩

/-- After the birthday the entries agree with the two documents. -/
theorem exists_birthday :
    ∃ db, Run.guarded (Disjoint sampleCatalog) (nextOp sampleCatalog) .empty sampleBirthday =
      some db ∧ Exact sampleCatalog db ∧ (∀ pk, ∀ doc ∈ documentAt db (.ofString "users") pk,
        (pk, doc) ∈ [(.ofString "1", sampleUser "Ann" 31), (.ofString "2", sampleUser "Bob" 30)]) ∧
      lookup sampleCatalog db sampleIndex.name [.integer 31] = .ok [.ofString "1"] ∧
      rangeScan sampleCatalog db sampleIndex.name (.integer 18) (.integer 30) =
      .ok [.ofString "2"] := by
  have runs : ∃ db,
      Run.guarded (Disjoint sampleCatalog) (nextOp sampleCatalog) .empty sampleBirthday = some db ∧
      (∀ entry ∈ db.entries, entry.2 ∈ [.text (.ofString "1"), .text (.ofString "2")] ∨
        entry ∈ [(documentKey (.ofString "users") (.ofString "1"), .document (sampleUser "Ann" 31)),
          (documentKey (.ofString "users") (.ofString "2"), .document (sampleUser "Bob" 30))]) ∧
      lookup sampleCatalog db sampleIndex.name [.integer 31] = .ok [.ofString "1"] ∧
      rangeScan sampleCatalog db sampleIndex.name (.integer 18) (.integer 30) =
      .ok [.ofString "2"] := by
    decide +kernel
  obtain ⟨db, run, entries, found⟩ := runs
  refine ⟨db, run, exact_of_run (exact_empty _) (Run.safeStep_of_guarded run),
    fun pk doc current => ?_, found⟩
  have entry := entries _ (SortedMap.get?_eq_some_iff.mp (documentAt_eq_some_iff.mp current))
  simpa [documentKey] using entry

/-- A string, or an integer that fits a signed word, in a field declared so. -/
def OfType : IndexFieldType → Json → Prop
  | .string, .string _ => True
  | .integer, .integer n => -2 ^ 63 ≤ n ∧ n < 2 ^ 63
  | _, _ => False

def ValueLe : Json → Json → Prop
  | .string s, .string t => s ≤ t
  | .integer m, .integer n => m ≤ n
  | _, _ => False

/-- The second string begins with the first. -/
def Leads : Json → Json → Prop
  | .string s, .string t => s <+: t
  | _, _ => False

def defaultValue : IndexFieldType → Json
  | .string => .string []
  | _ => .integer 0

def fieldAt (db : TypedStore Stored) (d : IndexDefinition) (field pk : Bytes) : Option Json :=
  (documentAt db d.collection pk).bind (·.get field)

/-- No value in range goes on behind the upper one, and the default is out of range if it stands for
a value. -/
def ScanSafe (db : TypedStore Stored) (d : IndexDefinition) (field : Bytes)
    (fieldType : IndexFieldType) (lo hi : Json) : Prop :=
  ∀ pk, ∀ v ∈ fieldAt db d field pk, (OfType fieldType v → ValueLe lo v → Leads hi v → v = hi) ∧
      (¬OfType fieldType v → ValueLe lo (defaultValue fieldType) →
      ¬ValueLe (defaultValue fieldType) hi)

variable {field : Bytes} {fieldType : IndexFieldType} {lo hi v : Json}

theorem hexEncode_string (s : Bytes) : hexEncode (encodeIndexValue (.string s) .string) =
    s.flatMap fun b => hexEncode (if b = 0 then [0, 1] else [b]) := flatMap_assoc

/-- The sign bit is flipped. -/
theorem encodeIndexValue_integer {n : ℤ} (typed : OfType .integer (.integer n)) :
    encodeIndexValue (.integer n) .integer = (le 8 (n + 2 ^ 63).toNat).reverse := by
  obtain ⟨least, most⟩ := typed
  have flipped : (BitVec.ofInt 64 n ^^^ BitVec.intMin 64).toNat = (n + 2 ^ 63).toNat := by
    rw [BitVec.toNat_xor, BitVec.toNat_ofInt, show (BitVec.intMin 64).toNat = 2 ^ 63 from rfl]
    obtain ⟨m, word⟩ : ∃ m, m = (n % (2 ^ 64 : ℕ)).toNat := ⟨_, rfl⟩
    have high := Nat.xor_div_two_pow (a := m) (b := 2 ^ 63) (n := 63)
    have low := Nat.xor_mod_two_pow (a := m) (b := 2 ^ 63) (n := 63)
    have bit : m / 2 ^ 63 = 0 ∧ 0 ≤ n ∨ m / 2 ^ 63 = 1 ∧ n < 0 := by omega
    rw [Nat.mod_self, Nat.xor_zero] at low
    rw [← word]
    obtain ⟨clear, positive⟩ | ⟨set, negative⟩ := bit
    · rw [clear, Nat.zero_xor] at high
      omega
    · rw [set, Nat.div_self (by decide), Nat.xor_self] at high
      omega
  simp only [encodeIndexValue, Json.asI64, if_pos most, Option.getD_some, flipped]

theorem hexEncode_le_iff (typed : OfType fieldType lo) (typed' : OfType fieldType v) :
    hexEncode (encodeIndexValue lo fieldType) ≤ hexEncode (encodeIndexValue v fieldType) ++ 0 ::
      pk ↔ ValueLe lo v := by
  match fieldType, lo, v, typed, typed' with
  | .string, .string s, .string t, _, _ =>
    rw [hexEncode_string, hexEncode_string]
    exact orderedCode_hex.escaped.le_separated_iff s t pk
  | .integer, .integer m, .integer n, typed, typed' =>
    rw [hexEncode, hexEncode, orderedCode_hex.le_separated_iff, encodeIndexValue_integer typed,
      encodeIndexValue_integer typed']
    obtain ⟨least, most⟩ := typed
    obtain ⟨least', most'⟩ := typed'
    rw [reverse_le_iff (by omega) (by omega), ValueLe]
    omega

theorem le_hexEncode_stop_iff (typed : OfType fieldType v) (typed' : OfType fieldType hi) :
    hexEncode (encodeIndexValue v fieldType) ++ 0 :: pk ≤
        hexEncode (encodeIndexValue hi fieldType) ++ [126, 126] ↔ ValueLe v hi ∨ Leads hi v := by
  match fieldType, v, hi, typed, typed' with
  | .string, .string s, .string t, _, _ =>
    rw [hexEncode_string, hexEncode_string]
    exact orderedCode_hex.escaped.separated_le_stop_iff s t pk
  | .integer, .integer m, .integer n, typed, typed' =>
    rw [hexEncode, hexEncode, orderedCode_hex.separated_le_stop_iff, encodeIndexValue_integer typed,
      encodeIndexValue_integer typed']
    obtain ⟨least, most⟩ := typed
    obtain ⟨least', most'⟩ := typed'
    -- Words of one length that begin with each other are the same.
    have equal : ∀ a b, (le 8 a).reverse <+: (le 8 b).reverse →
        (le 8 b).reverse ≤ (le 8 a).reverse :=
      fun a b leads => (leads.eq_of_length (by simp)).ge
    rw [or_iff_left_of_imp (equal _ _), reverse_le_iff (by omega) (by omega)]
    simp only [ValueLe, Leads, or_false]
    omega

theorem encodeIndexValue_eq (lo_typed : OfType fieldType lo)
    (number : ∀ n, v = .integer n → -2 ^ 63 ≤ n) (other : ¬OfType fieldType v) :
    encodeIndexValue v fieldType = encodeIndexValue (defaultValue fieldType) fieldType := by
  match fieldType, lo, v, lo_typed, number, other with
  | .string, _, v, _, _, other =>
    cases v with
    | string s => exact absurd trivial other
    | _ => rfl
  | .integer, _, v, _, number, other =>
    cases v with
    | integer n =>
      have large : ¬n < 2 ^ 63 := fun small => other ⟨number n rfl, small⟩
      simp only [encodeIndexValue, Json.asI64, if_neg large]
      rfl
    | _ => rfl

theorem entryAt_iff (single : d.fields = [(field, fieldType)]) :
    EntryAt db d pk key ↔ ∃ v ∈ fieldAt db d field pk,
      hexEncode (encodeIndexValue v fieldType) ++ 0 :: pk = key := by
  rw [EntryAt, fieldAt]
  cases documentAt db d.collection pk with
  | none => simp
  | some doc =>
    cases value : doc.get field with
    | none => simp [entryKey, encodedValues, single, value]
    | some v => simp [entryKey, encodedValues, single, value, buildIndexKey, joinValues]

theorem leads_default (leads : Leads hi (defaultValue fieldType)) :
    ValueLe (defaultValue fieldType) hi := by
  cases hi with
  | string s =>
    cases fieldType with
    | string => exact nil_le s
    | _ => exact leads.elim
  | _ => exact leads.elim

theorem Leads.le_iff (leads : Leads hi v) : ValueLe v hi ↔ v = hi := by
  match hi, v, leads with
  | .string s, .string t, leads =>
    obtain ⟨rest, rfl⟩ := leads
    rw [Json.string.injEq]
    exact ⟨fun le => le_antisymm le (le_append _ _), Eq.le⟩

theorem ofType_default (typed : OfType fieldType lo) :
    OfType fieldType (defaultValue fieldType) := by
  match fieldType, lo, typed with
  | .string, .string _, _ => trivial
  | .integer, .integer _, _ => exact ⟨by decide, by decide⟩

/-- A range scan is exact and in order exactly if no value in range goes on behind the upper one and
the default of a value of another type is out of range. -/
theorem rangeScan_exact_iff (exact : Exact catalog db) (named : catalog.getByName name = some d)
    (single : d.fields = [(field, fieldType)])
    (numbers : ∀ pk n, fieldAt db d field pk = some (.integer n) → -2 ^ 63 ≤ n)
    (loTyped : OfType fieldType lo) (hiTyped : OfType fieldType hi) :
    ∃ pks, rangeScan catalog db name lo hi = .ok pks ∧ pks.Nodup ∧
      (pks.Pairwise fun pk pk' => ∀ v ∈ fieldAt db d field pk, ∀ v' ∈ fieldAt db d field pk',
        OfType fieldType v → OfType fieldType v' → ValueLe v v') ∧
      ((∀ pk, pk ∈ pks ↔ ∃ v ∈ fieldAt db d field pk, OfType fieldType v ∧ ValueLe lo v ∧
      ValueLe v hi) ↔ ScanSafe db d field fieldType lo hi) := by
  obtain ⟨once, members, ordered⟩ := primaryKeys_range exact (IndexCatalog.has_of_getByName named)
    (hexEncode (encodeIndexValue lo fieldType)) (hexEncode (encodeIndexValue hi fieldType) ++ [126,
    126])
  refine ⟨_, ?_, once, ordered.imp ?_, ?_⟩
  · simp [rangeScan, named, single, buildIndexValuePrefix, joinValues]
  · rintro pk pk' ⟨key, key', entry, entry', le⟩ v here v' here' typed typed'
    obtain ⟨w, found, rfl⟩ := (entryAt_iff single).mp entry
    obtain ⟨w', found', rfl⟩ := (entryAt_iff single).mp entry'
    cases Option.some.inj (here.symm.trans found)
    cases Option.some.inj (here'.symm.trans found')
    exact (hexEncode_le_iff typed typed').mp ((le_append _ _).trans le)
  · refine forall_congr' fun pk => ?_
    rw [members]
    simp only [entryAt_iff single]
    cases value : fieldAt db d field pk with
    | none => simp
    | some v =>
      simp only [Option.mem_def, Option.some.injEq, exists_eq_left', forall_eq']
      by_cases typed : OfType fieldType v
      · have upper : Leads hi v → _ := Leads.le_iff
        rw [hexEncode_le_iff loTyped typed, le_hexEncode_stop_iff typed hiTyped]
        tauto
      · have default := ofType_default loTyped
        have upper : Leads hi (defaultValue fieldType) → _ := leads_default
        rw [encodeIndexValue_eq loTyped (fun n same => numbers pk n (same ▸ value)) typed,
          hexEncode_le_iff loTyped default, le_hexEncode_stop_iff default hiTyped]
        tauto

/-- An index on the field `name` of the collection `users`. -/
def sampleNames : IndexDefinition :=
  { sampleIndex with name := .ofString "by_name", fields := [(.ofString "name", .string)] }

def sampleNamed : List DocumentOp :=
  [.insert (.ofString "users") (.ofString "1") (sampleUser "Anna" 30),
    .insert (.ofString "users") (.ofString "2") (sampleUser "Ann" 31)]

/-- A range of names that ends at `Ann` has `Anna` in it. -/
theorem rangeScan_passes_end :
    let catalog := IndexCatalog.empty.registerInMemory sampleNames
    ∃ db, sampleNamed.foldlM (nextOp catalog) .empty = some db ∧
      rangeScan catalog db sampleNames.name (.string (.ofString "A")) (.string (.ofString "Ann")) =
        .ok [.ofString "2", .ofString "1"] ∧
      fieldAt db sampleNames (.ofString "name") (.ofString "1") =
        some (.string (.ofString "Anna")) ∧ ¬ofString "Anna" ≤ ofString "Ann" := by
  decide +kernel

/-- Of the two users only the second is not yet 31. -/
theorem rangeScan_of_sample :
    ∃ db, Run.guarded (Disjoint sampleCatalog) (nextOp sampleCatalog) .empty sampleBirthday =
      some db ∧
      rangeScan sampleCatalog db sampleIndex.name (.integer 18) (.integer 30) =
        .ok [.ofString "2"] ∧
      ∀ pk, pk ∈ [ofString "2"] ↔ ∃ v ∈ fieldAt db sampleIndex (.ofString "age") pk,
        OfType .integer v ∧ ValueLe (.integer 18) v ∧ ValueLe v (.integer 30) := by
  obtain ⟨db, run, exact, documents, -, found⟩ := exists_birthday
  have ages : ∀ pk v, fieldAt db sampleIndex (.ofString "age") pk = some v →
      v ∈ [.integer 31, .integer 30] := by
    intro pk v value
    obtain ⟨doc, current, value⟩ := Option.bind_eq_some_iff.mp value
    have documents := documents pk doc current
    simp only [mem_cons, Prod.mk.injEq, not_mem_nil, or_false] at documents
    obtain ⟨-, rfl⟩ | ⟨-, rfl⟩ := documents <;> cases value <;> decide
  obtain ⟨pks, found', -, -, iff⟩ := rangeScan_exact_iff exact
    (show sampleCatalog.getByName sampleIndex.name = some sampleIndex by decide +kernel) rfl
    (fun pk n value => by have := ages pk _ value; simp at this; omega)
    (show OfType .integer (.integer 18) from ⟨by decide, by decide⟩)
    (show OfType .integer (.integer 30) from ⟨by decide, by decide⟩)
  cases Except.ok.inj (found.symm.trans found')
  refine ⟨db, run, found, iff.mpr fun pk v value =>
    ⟨fun _ _ leads => leads.elim, fun _ least => ?_⟩⟩
  exact absurd least (by decide : ¬(18 : ℤ) ≤ 0)

variable {pk' : Bytes} {values values' : List Json} {v' : Json}

def Typed (d : IndexDefinition) (values : List Json) : Prop :=
  Forall₂ (fun field value => OfType field.2 value) d.fields values

/-- Entries are in the order of their values and then of their primary keys. -/
def EntryLe (pk pk' : Bytes) : List Json → List Json → Prop
  | v :: values, v' :: values' => ValueLe v v' ∧ v ≠ v' ∨ v = v' ∧ EntryLe pk pk' values values'
  | _, _ => pk ≤ pk'

theorem ValueLe.antisymm (le : ValueLe v v') (ge : ValueLe v' v) : v = v' := by
  match v, v', le, ge with
  | .string s, .string t, le, ge => exact congrArg Json.string (le_antisymm le ge)
  | .integer m, .integer n, le, ge => exact congrArg Json.integer (Int.le_antisymm le ge)

theorem separated_le_iff (typed : OfType fieldType v) (typed' : OfType fieldType v')
    (rest rest' : Bytes) :
    hexEncode (encodeIndexValue v fieldType) ++ 0 :: rest ≤ hexEncode
      (encodeIndexValue v' fieldType) ++ 0 :: rest' ↔
      ValueLe v v' ∧ v ≠ v' ∨ v = v' ∧ rest ≤ rest' := by
  by_cases same : v = v'
  · subst same
    simp [append_le_append_iff, cons_le_cons_iff]
  · have back := @hexEncode_le_iff rest _ _ _ typed' typed
    simp only [same, ne_eq, not_false_eq_true, and_true, false_and, or_false]
    constructor
    · exact fun le => (hexEncode_le_iff typed typed').mp ((le_append _ _).trans le)
    · intro le
      have above := not_le.mp (mt back.mp fun ge => same (le.antisymm ge))
      exact above.le.trans (le_append _ _)

theorem joinValues_le_iff (typed : Typed d values) (typed' : Typed d values') :
    joinValues (encodeAll d values) ++ 0 :: pk ≤ joinValues (encodeAll d values') ++ 0 :: pk' ↔
      EntryLe pk pk' values values' := by
  rw [Typed] at typed typed'
  rw [encodeAll, encodeAll]
  generalize d.fields = fields at *
  induction typed generalizing values' with
  | nil =>
    cases typed'
    simp [joinValues, cons_le_cons_iff, EntryLe]
  | @cons field v fields values first rest ih =>
    obtain _ | @⟨_, v', _, values', first', rest'⟩ := typed'
    cases rest with
    | nil =>
      cases rest'
      exact separated_le_iff first first' pk pk'
    | cons =>
      cases rest' with
      | cons second' more' =>
        rw [EntryLe, ← ih (.cons second' more')]
        simpa [joinValues] using separated_le_iff first first' _ _

theorem EntryLe.antisymm (length : values.length = values'.length)
    (le : EntryLe pk pk' values values')
    (ge : EntryLe pk' pk values' values) : values = values' ∧ pk = pk' := by
  induction values generalizing values' with
  | nil =>
    obtain rfl := eq_nil_of_length_eq_zero length.symm
    exact ⟨rfl, le_antisymm le ge⟩
  | cons v values ih =>
    obtain ⟨v', values', rfl⟩ := exists_cons_of_length_eq_add_one length.symm
    obtain ⟨less, other⟩ | ⟨rfl, le⟩ := le
    · obtain ⟨more, -⟩ | ⟨same, -⟩ := ge
      · exact absurd (less.antisymm more) other
      · exact absurd same.symm other
    · obtain ⟨-, other⟩ | ⟨-, ge⟩ := ge
      · exact absurd rfl other
      · obtain ⟨rfl, rfl⟩ := ih (Nat.succ.inj length) le ge
        exact ⟨rfl, rfl⟩

/-- The keys of entries are in the order of the entries, and different entries have different keys.
-/
theorem buildIndexKey_order (has : catalog.Has d) (typed : Typed d values) (pk : Bytes) :
    (∀ values' pk', Typed d values' →
      (buildIndexKey d.id (encodeAll d values) pk ≤ buildIndexKey d.id (encodeAll d values') pk' ↔
        EntryLe pk pk' values values')) ∧ ∀ d' values' pk', catalog.Has d' → Typed d' values' →
      buildIndexKey d.id (encodeAll d values) pk = buildIndexKey d'.id (encodeAll d' values') pk' →
        d = d' ∧ values = values' ∧ pk = pk' := by
  constructor
  · intro values' pk' typed'
    rw [buildIndexKey, buildIndexKey, append_le_append_iff]
    exact joinValues_le_iff typed typed'
  · intro d' values' pk' has' typed' same
    obtain ⟨number, same⟩ := scanPrefix_inj same
    obtain rfl := has.eq_of_id_eq has' number
    exact ⟨rfl, EntryLe.antisymm (typed.length_eq.symm.trans typed'.length_eq)
      ((joinValues_le_iff typed typed').mp same.le) ((joinValues_le_iff typed' typed).mp same.ge)⟩

theorem keys_of_ages_ordered : buildIndexKey sampleIndex.id (encodeAll sampleIndex [.integer (-1)])
    [98] ≤ buildIndexKey sampleIndex.id (encodeAll sampleIndex [.integer 30]) [97] := by
  have has : sampleCatalog.Has sampleIndex := IndexCatalog.has_of_getByName
    (show sampleCatalog.getByName sampleIndex.name = some sampleIndex by decide +kernel)
  have order :=
    (buildIndexKey_order has (.cons (show OfType .integer (.integer (-1))
    from ⟨by decide, by decide⟩) .nil) [98]).1
  exact (order _ _ (.cons (show OfType .integer (.integer 30) from ⟨by decide, by decide⟩)
    .nil)).mpr (.inl ⟨show (-1 : ℤ) ≤ 30 by decide, by decide⟩)

end OmniKV.Index
