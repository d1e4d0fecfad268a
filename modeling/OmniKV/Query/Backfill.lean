import OmniKV.Query.Schema

/-!
# Changing the documents of a collection

The loops that change documents commit a batch now and then. What they leave is described
key by key: after a part of the commits each document of the collection is as it was or as
the change makes it, and after all of them every document is changed.
-/

namespace OmniKV.Schema

open List
open EStateM (Triple)

/-- The database is `d`, everything durable meets `I`, and if `calm` holds no commit fails. -/
structure At (I : TypedStore Stored → Prop) (calm : Prop) (d : TypedStore Stored) (w : World) :
    Prop where
  db : w.db = d
  here : I d
  kept : ∀ s ∈ w.durable, I s
  quiet : calm → w.faults = []

def Failed (I : TypedStore Stored → Prop) (calm : Prop) (w : World) : Prop :=
  ¬calm ∧ I w.db ∧ ∀ s ∈ w.durable, I s

section

variable {I : TypedStore Stored → Prop} {calm : Prop} {d : TypedStore Stored}

theorem triple_commitBatch (batch : TypedBatch Stored) (next : I (d.commit batch)) :
    Triple (At I calm d) (commitBatch batch) (fun _ => At I calm (d.commit batch))
      (Failed I calm) := by
  rintro w ⟨rfl, here, kept, quiet⟩
  rw [commitBatch]
  split_ifs with fault
  · refine ⟨fun still => ?_, here, kept⟩
    rw [quiet still] at fault
    cases fault
  · refine ⟨rfl, next, fun s member => ?_, fun still => ?_⟩
    · obtain old | new := mem_append.mp member
      · exact kept s old
      · exact mem_singleton.mp new ▸ next
    · rw [quiet still]
      rfl

theorem triple_commitSet {key : Bytes} {value : Stored} (next : I (d.insert key value)) :
    Triple (At I calm d) (commitSet key value) (fun _ => At I calm (d.insert key value))
      (Failed I calm) :=
  triple_commitBatch ⟨[(key, value)], [], show 1 ≤ maxBatchSize by decide⟩ next

/-- If no commit fails, the call returns. -/
theorem exists_ok_of_calm {α : Type} {P : World → Prop} {x : Action α} {Q : α → World → Prop}
    (run : Triple P x Q (Failed I True)) {w : World} (start : P w) :
    ∃ a w', x w = .ok a w' ∧ Q a w' :=
  (run.weaken fun _ failed => failed.1 trivial).exists_ok start

end

def insertAll (d : TypedStore Stored) (l : List (Bytes × Stored)) : TypedStore Stored :=
  l.foldl (fun s entry => s.insert entry.1 entry.2) d

abbrev Change := SortedMap Bytes Json → Option (SortedMap Bytes Json)

variable (change : Change)

def Change.stored : Stored → Stored
  | .document (.object fields) => .document (.object ((change fields).getD fields))
  | value => value

def Change.written (l : List (Bytes × Stored)) : List (Bytes × Stored) :=
  l.filterMap fun entry => match entry.2 with
    | .document (.object fields) => (change fields).map fun fields' =>
      (entry.1, .document (.object fields'))
    | _ => none

def Change.applied (collection : Bytes) (d : TypedStore Stored) : TypedStore Stored :=
  insertAll d (change.written (d.range (scanStart collection) (scanStop collection)))

variable {d : TypedStore Stored}

theorem commit_eq_insertAll {batch : TypedBatch Stored} (none : batch.deletes = []) :
    d.commit batch = insertAll d batch.sets := by
  rw [TypedStore.commit, none]
  rfl

theorem insertAll_append (d : TypedStore Stored) (l l' : List (Bytes × Stored)) :
    insertAll d (l ++ l') = insertAll (insertAll d l) l' := foldl_append

theorem triple_backfillLoop {I : TypedStore Stored → Prop} {calm : Prop}
    (l : List (Bytes × Stored)) (batch : TypedBatch Stored) {count : ℕ}
    (noDelete : batch.deletes = []) (size : batch.sets.length = count % 500)
    (next : ∀ front, front <+: batch.sets ++ change.written l → I (insertAll d front)) :
    Triple (At I calm d) (backfillLoop change l batch count)
      (fun _ => At I calm (insertAll d (batch.sets ++ change.written l))) (Failed I calm) := by
  induction l generalizing d batch count with
  | nil =>
    refine .ite (fun empty => ?_) fun _ => ?_
    · rw [isEmpty_iff.mp empty]
      exact fun _ at_d => at_d
    · have whole : d.commit batch = insertAll d (batch.sets ++ change.written []) := by
        rw [commit_eq_insertAll noDelete]
        exact congrArg _ (append_nil _).symm
      rw [← whole]
      exact triple_commitBatch _ (whole ▸ next _ (prefix_refl _))
  | cons entry rest ih =>
    obtain ⟨key, value⟩ := entry
    have skip : change.written ((key, value) :: rest) = change.written rest →
        Triple (At I calm d) (backfillLoop change rest batch count)
          (fun _ => At I calm (insertAll d (batch.sets ++ change.written ((key, value) :: rest))))
          (Failed I calm) := by
      intro same
      rw [same] at next ⊢
      exact ih batch noDelete size next
    cases value with
    | document doc =>
      cases doc with
      | object fields =>
        rw [backfillLoop]
        cases changed : change fields with
        | none => exact skip (by simp [Change.written, changed])
        | some fields' =>
          have room : ¬batch.opCount ≥ maxBatchSize := by
            rw [TypedBatch.opCount, noDelete, length_nil, maxBatchSize]
            omega
          obtain ⟨batch', staged⟩ :
              ∃ batch', batch.set key (.document (.object fields')) = .ok batch' := by
            rw [TypedBatch.set, dif_neg room]
            exact ⟨_, rfl⟩
          obtain ⟨sets, deletes⟩ := TypedBatch.set_eq_ok staged
          have order : batch.sets ++ change.written ((key, .document (.object fields)) :: rest) =
              batch'.sets ++ change.written rest := by
            simp [Change.written, changed, sets]
          rw [order] at next ⊢
          dsimp only
          rw [staged]
          refine .ite (fun full => ?_) fun more => ?_
          · refine .bind (triple_commitBatch batch' ?_) fun _ => ?_
            · rw [commit_eq_insertAll (deletes.trans noDelete)]
              exact next _ (prefix_append _ _)
            · rw [commit_eq_insertAll (deletes.trans noDelete), insertAll_append]
              refine ih .new rfl full.symm fun front inside => ?_
              rw [← insertAll_append]
              exact next _ ((prefix_append_right_inj _).mpr inside)
          · refine ih batch' (deletes.trans noDelete) ?_ next
            rw [sets, length_append, length_singleton]
            omega
      | other value => exact skip rfl
    | index d | migration record | version v | text t => exact skip rfl

theorem triple_changeDocuments {I : TypedStore Stored → Prop} {calm : Prop} (collection : Bytes)
    (next : ∀ front, front <+: change.written (d.range (scanStart collection)
    (scanStop collection)) →
      I (insertAll d front)) : Triple (At I calm d) (changeDocuments collection change)
      (fun _ => At I calm (change.applied collection d)) (Failed I calm) := by
  refine .bind (Q := fun v w => v.db = d ∧ At I calm d w) (fun w at_d => ⟨at_d.db, at_d⟩)
    fun v w at_d => ?_
  obtain ⟨rfl, at_d⟩ := at_d
  exact triple_backfillLoop change _ .new rfl rfl next w at_d

theorem mem_written {change : Change} {l : List (Bytes × Stored)} {key : Bytes} {value : Stored} :
    (key, value) ∈ change.written l ↔ ∃ fields fields', (key, Stored.document (.object fields)) ∈
      l ∧ change fields = some fields' ∧ value = .document (.object fields') := by
  rw [Change.written, mem_filterMap]
  constructor
  · rintro ⟨⟨k, v⟩, member, shown⟩
    dsimp only at shown
    split at shown
    · rename_i fields
      obtain ⟨fields', changed, same⟩ := Option.map_eq_some_iff.mp shown
      cases same
      exact ⟨fields, fields', member, changed, rfl⟩
    · cases shown
  · rintro ⟨fields, fields', member, changed, rfl⟩
    refine ⟨_, member, ?_⟩
    dsimp only
    rw [changed]
    rfl

section

variable {change : Change} {collection : Bytes} {d : TypedStore Stored}

theorem mem_written_range {a b key : Bytes} {value : Stored}
    (member : (key, value) ∈ change.written (d.range a b)) :
    a ≤ key ∧ key ≤ b ∧ some value = (d.get? key).map change.stored := by
  obtain ⟨fields, fields', inside, changed, rfl⟩ := mem_written.mp member
  obtain ⟨start, stop, found⟩ := SortedMap.mem_range.mp inside
  refine ⟨start, stop, ?_⟩
  rw [found, Option.map_some, Change.stored, changed]
  rfl

/-- After a part of the writes every value is as it was or as the change makes it. -/
theorem get?_insertAll {a b : Bytes} {front : List (Bytes × Stored)}
    (part : front <+: change.written (d.range a b)) (key : Bytes) :
    (insertAll d front).get? key = d.get? key ∨
      a ≤ key ∧ key ≤ b ∧ (insertAll d front).get? key = (d.get? key).map change.stored := by
  rw [insertAll, SortedMap.get?_foldl_insert]
  cases found : front.reverse.find? fun entry => entry.1 = key with
  | none => exact .inl rfl
  | some entry =>
    obtain ⟨k, value⟩ := entry
    obtain rfl : k = key := by simpa using find?_some found
    have member := part.subset (mem_reverse.mp (mem_of_find?_eq_some found))
    obtain ⟨start, stop, same⟩ := mem_written_range member
    exact .inr ⟨start, stop, same⟩

theorem get?_applied (key : Bytes) : (change.applied collection d).get? key =
    if scanStart collection ≤ key ∧ key ≤ scanStop collection then (d.get? key).map change.stored
    else d.get? key := by
  split_ifs with inside
  · rw [Change.applied, insertAll, SortedMap.get?_foldl_insert]
    cases found :
      (change.written (d.range (scanStart collection) (scanStop collection))).reverse.find?
        fun entry => entry.1 = key with
    | some entry =>
      obtain ⟨k, value⟩ := entry
      obtain rfl : k = key := by simpa using find?_some found
      exact (mem_written_range (mem_reverse.mp (mem_of_find?_eq_some found))).2.2
    | none =>
      have absent : ∀ value, (key, value) ∉ change.written (d.range (scanStart collection)
          (scanStop collection)) := fun value member =>
        find?_eq_none.mp found _ (mem_reverse.mpr member) (by simp)
      cases stored : d.get? key with
      | none => rfl
      | some value =>
        refine congrArg some ?_
        have kept : ∀ fields, value = .document (.object fields) → change fields = none := by
          rintro fields rfl
          cases changed : change fields with
          | none => rfl
          | some fields' =>
            exact absurd (mem_written.mpr ⟨fields, fields',
              SortedMap.mem_range.mpr ⟨inside.1, inside.2, stored⟩, changed, rfl⟩) (absent _)
        cases value with
        | document doc =>
          cases doc with
          | object fields => rw [Change.stored, kept fields rfl, Option.getD_none]
          | other value => rfl
        | _ => rfl
  · obtain same | changed := get?_insertAll (prefix_refl _) key
    · exact same
    · exact absurd ⟨changed.1, changed.2.1⟩ inside

end

/-- The keys of the system begin with a zero byte. -/
def IsPlain (key : Bytes) : Prop := key.head? ≠ some 0
deriving Decidable

theorem not_isPlain_versionKey : ¬IsPlain versionKey := by decide

theorem not_isPlain_migrationKey (version : ℕ) : ¬IsPlain (migrationKey version) :=
  fun plain => plain rfl

theorem IsPlain.ne_versionKey {key : Bytes} (plain : IsPlain key) : key ≠ versionKey := by
  rintro rfl
  exact not_isPlain_versionKey plain

theorem IsPlain.ne_migrationKey {key : Bytes} (plain : IsPlain key) (version : ℕ) :
    key ≠ migrationKey version := by
  rintro rfl
  exact not_isPlain_migrationKey _ plain

theorem migrationKey_ne_versionKey (version : ℕ) : migrationKey version ≠ versionKey := by
  intro same
  have byte := congrArg (fun key => key[8]?) same
  have left : (migrationKey version)[8]? = some 109 := rfl
  rw [left] at byte
  revert byte
  decide

theorem isPlain_of_scan {collection key : Bytes} (plain : IsPlain collection)
    (inside : scanStart collection ≤ key ∧ key ≤ scanStop collection) : IsPlain key := by
  obtain ⟨rest, rfl, -⟩ := Bytes.between_append_iff.mp inside
  cases collection with
  | nil => exact fun first => by cases first
  | cons b collection => exact plain

end OmniKV.Schema
