import OmniKV.Storage.Store

/-!
# Stores of typed values

The query layers store rows, documents and definitions as texts. Here a database holds the values
themselves, and a batch is applied as a storage batch is: the sets, and then the deletes.
-/

namespace OmniKV

open List SortedMap

structure TypedBatch (V : Type) where
  sets : List (Bytes × V)
  deletes : List Bytes
  count : sets.length + deletes.length ≤ maxBatchSize

abbrev TypedStore (V : Type) := SortedMap Bytes V

namespace TypedBatch

variable {V : Type}

def new : TypedBatch V := ⟨[], [], by simp⟩

def single (key : Bytes) (value : V) : TypedBatch V :=
  ⟨[(key, value)], [], show 1 ≤ maxBatchSize by decide⟩

variable (b : TypedBatch V)

def opCount : ℕ := b.sets.length + b.deletes.length

def isEmpty : Bool := b.sets.isEmpty && b.deletes.isEmpty

def set (key : Bytes) (value : V) : Except OmniError (TypedBatch V) :=
  if full : b.opCount ≥ maxBatchSize then .error (.batchTooLarge maxBatchSize)
  else .ok
    { b with
      sets := b.sets ++ [(key, value)]
      count := by
        simp only [opCount] at full
        simp only [length_append, length_singleton]
        omega }

def delete (key : Bytes) : Except OmniError (TypedBatch V) :=
  if full : b.opCount ≥ maxBatchSize then .error (.batchTooLarge maxBatchSize)
  else .ok
    { b with
      deletes := b.deletes ++ [key]
      count := by
        simp only [opCount] at full
        simp only [length_append, length_singleton]
        omega }

variable {b : TypedBatch V} {key : Bytes} {value : V}

theorem set_eq_ok {b' : TypedBatch V} (done : b.set key value = .ok b') :
    b'.sets = b.sets ++ [(key, value)] ∧ b'.deletes = b.deletes := by
  rw [set] at done
  split_ifs at done
  cases done
  exact ⟨rfl, rfl⟩

theorem delete_eq_ok {b' : TypedBatch V} (done : b.delete key = .ok b') :
    b'.sets = b.sets ∧ b'.deletes = b.deletes ++ [key] := by
  rw [delete] at done
  split_ifs at done
  cases done
  exact ⟨rfl, rfl⟩

def withoutSets (b : TypedBatch V) (key : Bytes) : TypedBatch V :=
  { b with
    sets := b.sets.filter fun entry => entry.1 ≠ key
    count := (Nat.add_le_add_right (length_filter_le _ _) _).trans b.count }

def withoutDeletes (b : TypedBatch V) (key : Bytes) : TypedBatch V :=
  { b with
    deletes := b.deletes.filter fun k => k ≠ key
    count := (Nat.add_le_add_left (length_filter_le _ _) _).trans b.count }

def lastSet? (b : TypedBatch V) (key : Bytes) : Option V :=
  (b.sets.reverse.find? fun entry => entry.1 = key).map Prod.snd

theorem lastSet?_eq_none_iff : b.lastSet? key = none ↔ ∀ value, (key, value) ∉ b.sets := by
  rw [lastSet?, Option.map_eq_none_iff, find?_eq_none]
  simp only [mem_reverse, decide_eq_true_eq]
  constructor
  · exact fun absent value member => absent (key, value) member rfl
  · rintro absent ⟨k, value⟩ member rfl
    exact absent value member

theorem mem_of_lastSet? (last : b.lastSet? key = some value) : (key, value) ∈ b.sets := by
  obtain ⟨⟨k, v⟩, found, rfl⟩ := Option.map_eq_some_iff.mp last
  obtain rfl : k = key := by simpa using find?_some found
  exact mem_reverse.mp (mem_of_find?_eq_some found)

theorem lastSet?_withoutSets (b : TypedBatch V) {k : Bytes} (other : k ≠ key) :
    (b.withoutSets key).lastSet? k = b.lastSet? k := by
  rw [lastSet?, withoutSets, ← filter_reverse, find?_filter]
  congr 2
  funext entry
  by_cases same : entry.1 = k
  · simp [same, other]
  · simp [same]

theorem lastSet?_eq_some (member : (key, value) ∈ b.sets)
    (only : ∀ other, (key, other) ∈ b.sets → other = value) : b.lastSet? key = some value := by
  cases last : b.lastSet? key with
  | none => exact absurd member (lastSet?_eq_none_iff.mp last value)
  | some other => rw [only other (mem_of_lastSet? last)]

end TypedBatch

open TypedBatch

namespace TypedStore

variable {V : Type}

def commit (s : TypedStore V) (b : TypedBatch V) : TypedStore V :=
  b.deletes.foldl SortedMap.erase (b.sets.foldl (fun s entry => s.insert entry.1 entry.2) s)

/-- Deletes win over sets, later sets over earlier ones. -/
theorem get?_commit (s : TypedStore V) (b : TypedBatch V) (key : Bytes) : (s.commit b).get? key =
      if key ∈ b.deletes then none else (b.lastSet? key).or (s.get? key) := by
  rw [commit, get?_foldl_erase, get?_foldl_insert]
  rfl

variable {s : TypedStore V} {b : TypedBatch V} {key : Bytes}

/-- A key that a batch does not name keeps its value. -/
theorem get?_commit_of_not_mem (noSet : ∀ value, (key, value) ∉ b.sets)
    (noDelete : key ∉ b.deletes) : (s.commit b).get? key = s.get? key := by
  rw [get?_commit, if_neg noDelete, lastSet?_eq_none_iff.mpr noSet]
  rfl

theorem get?_commit_of_mem {value : V} (member : (key, value) ∈ b.sets)
    (only : ∀ other, (key, other) ∈ b.sets → other = value) (kept : key ∉ b.deletes) :
    (s.commit b).get? key = some value := by
  rw [get?_commit, if_neg kept, lastSet?_eq_some member only]
  rfl

section

variable {α : Type} {f : α → Bytes} {g : α → V} {l : List α} (sets : b.sets = l.map fun a =>
  (f a, g a))

include sets

/-- The values that a batch sets different keys to. -/
theorem get?_commit_map (nodup : (l.map f).Nodup) {a : α} (member : a ∈ l)
    (kept : f a ∉ b.deletes) : (s.commit b).get? (f a) = some (g a) := by
  refine get?_commit_of_mem (sets ▸ mem_map.mpr ⟨a, member, rfl⟩) (fun value other => ?_) kept
  rw [sets] at other
  obtain ⟨a', inside, same⟩ := mem_map.mp other
  obtain ⟨key, rfl⟩ := Prod.mk.inj same
  rw [inj_on_of_nodup_map nodup inside member key]

theorem get?_commit_of_unset (absent : ∀ a ∈ l, f a ≠ key) :
    (s.commit b).get? key = if key ∈ b.deletes then none else s.get? key := by
  have unset : b.lastSet? key = none := by
    refine lastSet?_eq_none_iff.mpr fun value member => ?_
    rw [sets] at member
    obtain ⟨a, inside, same⟩ := mem_map.mp member
    exact absent a inside (Prod.mk.inj same).1
  rw [get?_commit, unset, Option.none_or]

end

theorem get?_commit_of_deletes (sets : b.sets = []) :
    (s.commit b).get? key = if key ∈ b.deletes then none else s.get? key :=
  get?_commit_of_unset (f := Prod.fst) (g := Prod.snd) (l := []) sets nofun

/-- A set that takes the place of the earlier writes of its key comes last. -/
theorem commit_of_set {b' : TypedBatch V} {value : V}
    (done : ((b.withoutSets key).withoutDeletes key).set key value = .ok b') :
    s.commit b' = (s.commit b).insert key value := by
  obtain ⟨sets, deletes⟩ := set_eq_ok done
  refine ext_get? fun k => ?_
  have deleted : k ∈ b'.deletes ↔ k ∈ b.deletes ∧ k ≠ key := by
    rw [deletes, withoutDeletes, mem_filter, decide_eq_true_eq]
    rfl
  have last : b'.lastSet? k = if k = key then some value else b.lastSet? k := by
    rw [lastSet?, sets, reverse_append]
    by_cases here : k = key
    · simp [here]
    · rw [if_neg here, ← lastSet?_withoutSets b here]
      simp [Ne.symm here, lastSet?, withoutDeletes]
  rw [get?_commit, get?_insert, get?_commit, last]
  by_cases here : k = key
  · rw [if_neg fun member => (deleted.mp member).2 here, if_pos here, if_pos here]
    rfl
  · simp [deleted, here]

/-- Taking the writes of a key out of a batch changes nothing at the other keys. -/
theorem get?_commit_without {k : Bytes} (other : k ≠ key) :
    (s.commit ((b.withoutSets key).withoutDeletes key)).get? k = (s.commit b).get? k := by
  have deleted : k ∈ ((b.withoutSets key).withoutDeletes key).deletes ↔ k ∈ b.deletes := by
    simp [withoutDeletes, withoutSets, other]
  have last : ((b.withoutSets key).withoutDeletes key).lastSet? k = b.lastSet? k :=
    lastSet?_withoutSets b other
  rw [get?_commit, get?_commit, last]
  simp [deleted]

/-- A delete that takes the place of the earlier sets of its key comes last. -/
theorem commit_of_delete {b' : TypedBatch V}
    (done : (b.withoutSets key).delete key = .ok b') : s.commit b' = (s.commit b).erase key := by
  obtain ⟨sets, deletes⟩ := delete_eq_ok done
  refine ext_get? fun k => ?_
  rw [get?_commit, get?_erase, get?_commit, deletes]
  by_cases here : k = key
  · simp [here]
  · have last := lastSet?_withoutSets b here
    rw [lastSet?] at last
    rw [lastSet?, sets, last]
    simp [here, withoutSets]

end TypedStore

section

variable {V : Type} (text : V → Bytes)

/-- A storage batch holds the texts of a typed one. -/
def TypedBatch.WrittenAs (b : TypedBatch V) (tx : WriteBatch) : Prop :=
  tx.bufferedWrites = b.sets.map (fun entry => ⟨entry.1, text entry.2, 0⟩) ∧
    tx.bufferedDeletes = b.deletes

namespace TypedStore

/-- The texts of all values, which never expire. -/
def texts (s : TypedStore V) : TimedStore := s.mapValues fun v => (text v, 0)

variable {text} {s : TypedStore V}

theorem texts_commit {b : TypedBatch V} {tx : WriteBatch} (written : b.WrittenAs text tx) :
    (s.commit b).texts text = (s.texts text).commit tx := by
  refine ext_get? fun key => ?_
  have last : (tx.lastSet? key).map (fun w => (w.value, w.expiry)) =
      (b.lastSet? key).map fun v => (text v, (0 : UInt64)) := by
    rw [WriteBatch.lastSet?, written.1, ← map_reverse, find?_map, TypedBatch.lastSet?,
      Option.map_map, Option.map_map]
    rfl
  rw [texts, get?_mapValues, get?_commit, TimedStore.commit, WriteBatch.get?_applyTo, last, texts,
    get?_mapValues, written.2]
  split_ifs
  · rfl
  · cases b.lastSet? key with
    | none | some value => rfl

theorem texts_foldl {bs : List (TypedBatch V)} {txs : List WriteBatch}
    (written : Forall₂ (TypedBatch.WrittenAs text) bs txs) :
    (bs.foldl commit s).texts text = txs.foldl TimedStore.commit (s.texts text) := by
  induction written generalizing s with
  | nil => rfl
  | cons first _ ih => rw [foldl_cons, foldl_cons, ih, texts_commit first]

theorem find_texts (key : Bytes) (now : UInt64) :
    (s.texts text).find key now = (s.get? key).map text := by
  rw [TimedStore.find, texts, get?_mapValues]
  cases s.get? key with
  | none | some v => rfl

theorem scan_texts (a b : Bytes) (now : UInt64) :
    (s.texts text).scan a b now = (s.range a b).map fun entry => (entry.1, text entry.2) := by
  rw [TimedStore.scan, texts, range_mapValues, filterMap_map, ← filterMap_eq_map]
  rfl

end TypedStore

end

end OmniKV
