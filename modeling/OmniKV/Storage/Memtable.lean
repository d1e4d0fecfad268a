import Mathlib.Data.Prod.Lex
import OmniKV.Data.SortedMap
import OmniKV.Storage.Record

/-!
# Memtables

A memtable is an ordered map from key and descending sequence number to a value
pointer, so the versions of a key stand together, newest first. The source spreads it
over sixteen shards by a hash of the key; every operation on a key uses one shard and
every walk over all shards is sorted afterwards, so one map stands for them all.
-/

namespace OmniKV

open List

structure Memtable where
  map : SortedMap (Bytes ×ₗ ℕᵒᵈ) ValuePointer
deriving DecidableEq

namespace Memtable

/-- The place of a version: by key, then newest first. -/
def slot (key : Bytes) (seq : ℕ) : Bytes ×ₗ ℕᵒᵈ := toLex (key, OrderDual.toDual seq)

def ofEntry (e : (Bytes ×ₗ ℕᵒᵈ) × ValuePointer) : Version :=
  ⟨(ofLex e.1).1, OrderDual.ofDual (ofLex e.1).2, e.2⟩

def toEntry (v : Version) : (Bytes ×ₗ ℕᵒᵈ) × ValuePointer := (slot v.key v.seq, v.pointer)

def empty : Memtable := ⟨.empty⟩

variable (m : Memtable)

def insert (v : Version) : Memtable := ⟨m.map.insert (slot v.key v.seq) v.pointer⟩

def insertAll (records : List OmniRecord) : Memtable :=
  records.foldl (fun m r => m.insert r.version) m

/-- All versions, by key and newest first. -/
def versions : List Version := m.map.entries.map ofEntry

/-- The first entry at or after the place of a version of `key` at `readSeq`, if it
belongs to the key. -/
def find (m : Memtable) (key : Bytes) (readSeq : ℕ) : Option Version :=
  match m.map.entries.find? fun e => slot key readSeq ≤ e.1 with
  | some e => if (ofEntry e).key = key ∧ (ofEntry e).seq ≤ readSeq then some (ofEntry e) else none
  | none => none

instance : Membership Version Memtable := ⟨fun m v => v ∈ m.versions⟩

theorem slot_le_slot {key key' : Bytes} {seq seq' : ℕ} :
    slot key seq ≤ slot key' seq' ↔ key < key' ∨ key = key' ∧ seq' ≤ seq :=
  Prod.Lex.toLex_le_toLex

theorem slot_injective {key key' : Bytes} {seq seq' : ℕ} :
    slot key seq = slot key' seq' ↔ key = key' ∧ seq = seq' := Prod.mk.injEq .. ▸ Iff.rfl

variable {m : Memtable} {v : Version} {records : List OmniRecord}

theorem mem_iff : v ∈ m ↔ toEntry v ∈ m.map := by
  constructor
  · intro member
    obtain ⟨e, he, rfl⟩ := mem_map.mp member
    exact he
  · intro member
    exact mem_map.mpr ⟨toEntry v, member, rfl⟩

theorem mem_versions : v ∈ m.versions ↔ v ∈ m := Iff.rfl

theorem not_mem_of_versions (none : m.versions = []) (v : Version) : v ∉ m := by
  rw [← mem_versions, none]
  exact not_mem_nil

@[simp] theorem not_mem_empty (v : Version) : v ∉ empty := not_mem_nil

/-- A memtable without versions is empty. -/
theorem eq_empty (none : ∀ v, v ∉ m) : m = empty := by
  have entries : m.map.entries = [] := by
    refine eq_nil_iff_forall_not_mem.mpr fun e he => ?_
    exact none (ofEntry e) (mem_map_of_mem he)
  cases m
  exact congrArg mk (SortedMap.ext entries)

theorem mem_insert {w : Version} : v ∈ m.insert w ↔
    v = w ∨ ¬(v.key = w.key ∧ v.seq = w.seq) ∧ v ∈ m := by
  rw [mem_iff, insert, SortedMap.mem_insert, mem_iff]
  have place : (toEntry v).1 ≠ slot w.key w.seq ↔ ¬(v.key = w.key ∧ v.seq = w.seq) :=
    not_congr slot_injective
  have same : toEntry v = (slot w.key w.seq, w.pointer) ↔ v = w :=
    ⟨fun h => congrArg ofEntry h, fun h => congrArg toEntry h⟩
  rw [place, same]

theorem mem_of_mem_insertAll (member : v ∈ m.insertAll records) :
    v ∈ m ∨ ∃ r ∈ records, r.version = v := by
  induction records generalizing m with
  | nil => exact .inl member
  | cons r rs ih =>
    obtain old | ⟨r', hr', rfl⟩ := ih member
    · obtain rfl | ⟨-, older⟩ := mem_insert.mp old
      · exact .inr ⟨r, .head _, rfl⟩
      · exact .inl older
    · exact .inr ⟨r', .tail _ hr', rfl⟩

theorem exists_mem_insertAll (member : v ∈ m ∨ ∃ r ∈ records, r.version = v) :
    ∃ w ∈ m.insertAll records, w.key = v.key ∧ w.seq = v.seq := by
  induction records generalizing m v with
  | nil => exact ⟨v, member.resolve_right (by simp), rfl, rfl⟩
  | cons r rs ih =>
    obtain old | ⟨r', hr', rfl⟩ := member
    · by_cases place : v.key = r.version.key ∧ v.seq = r.version.seq
      · rw [place.1, place.2]
        exact ih (.inl (mem_insert.mpr (.inl rfl)))
      · exact ih (.inl (mem_insert.mpr (.inr ⟨place, old⟩)))
    · obtain rfl | later := mem_cons.mp hr'
      · exact ih (.inl (mem_insert.mpr (.inl rfl)))
      · exact ih (.inr ⟨r', later, rfl⟩)

/-- When no two versions have the same key and sequence number, nothing is replaced. -/
theorem mem_insertAll
    (distinct : Versioned.Unambiguous ({v | v ∈ m} ∪ {v | ∃ r ∈ records, r.version = v})) :
    v ∈ m.insertAll records ↔ v ∈ m ∨ ∃ r ∈ records, r.version = v := by
  refine ⟨mem_of_mem_insertAll, fun member => ?_⟩
  obtain ⟨w, hw, hkey, hseq⟩ := exists_mem_insertAll member
  obtain rfl := distinct w (mem_of_mem_insertAll hw) v member hkey hseq
  exact hw

/-- Leaving out the records with one key changes the memtable when there is one. -/
theorem insertAll_filter_key_eq_iff (records : List OmniRecord) (key : Bytes) :
    empty.insertAll records = empty.insertAll (records.filter (·.key ≠ key)) ↔
      key ∉ records.map OmniRecord.key := by
  constructor
  · intro same member
    obtain ⟨r, hr, rfl⟩ := mem_map.mp member
    obtain ⟨v, hv, hkey, -⟩ := exists_mem_insertAll (m := .empty) (.inr ⟨r, hr, rfl⟩)
    rw [same] at hv
    obtain old | ⟨r', hr', rfl⟩ := mem_of_mem_insertAll hv
    · exact not_mem_empty v old
    · exact of_decide_eq_true (mem_filter.mp hr').2 hkey
  · intro absent
    have all : records.filter (·.key ≠ key) = records := by
      refine filter_eq_self.mpr fun r hr => decide_eq_true fun same => absent ?_
      exact same ▸ mem_map_of_mem hr
    rw [all]

theorem unambiguous (m : Memtable) : Versioned.Unambiguous {v | v ∈ m} := by
  intro a ha b hb hkey hseq
  have place : slot a.key a.seq = slot b.key b.seq := slot_injective.mpr ⟨hkey, hseq⟩
  have atB : (slot b.key b.seq, a.pointer) ∈ m.map := place ▸ mem_iff.mp ha
  have pointer := SortedMap.eq_of_mem atB (mem_iff.mp hb)
  exact congrArg ofEntry (Prod.ext place pointer : toEntry a = toEntry b)

/-- The versions come sorted by key. -/
theorem pairwise_versions (m : Memtable) : m.versions.Pairwise fun v w => v.key ≤ w.key := by
  refine pairwise_map.mpr (m.map.sorted.imp fun {e e'} lt => ?_)
  have order := lt.le
  obtain less | same := slot_le_slot.mp order
  · exact less.le
  · exact same.1.le

theorem nodup_versions (m : Memtable) : m.versions.Nodup := by
  refine pairwise_map.mpr (m.map.sorted.imp fun {e e'} lt same => ?_)
  have order : slot (ofEntry e).key (ofEntry e).seq < slot (ofEntry e').key (ofEntry e').seq := lt
  rw [same] at order
  exact lt_irrefl _ order

/-- A lookup returns the newest visible version. -/
theorem finds (m : Memtable) : Versioned.Finds m.find {v | v ∈ m} := by
  -- The entry found is the least at or after the place asked for.
  have least : ∀ {key seq e}, m.map.entries.find? (fun e => slot key seq ≤ e.1) = some e →
      e ∈ m.map.entries ∧ slot key seq ≤ e.1 ∧ ∀ e' ∈ m.map.entries, slot key seq ≤ e'.1 →
      e.1 ≤ e'.1 := by
    intro key seq e found
    obtain ⟨reached, before, after, split, skipped⟩ := find?_eq_some_iff_append.mp found
    refine ⟨by simp [split], by simpa using reached, fun e' member hreach => ?_⟩
    have sorted := m.map.sorted
    rw [split] at sorted member
    obtain early | late := mem_append.mp member
    · exact absurd hreach (by simpa using skipped e' early)
    · obtain rfl | late := mem_cons.mp late
      · exact le_rfl
      · exact ((pairwise_cons.mp (pairwise_append.mp sorted).2.1).1 e' late).le
  constructor
  · intro key seq v found
    rw [find] at found
    split at found
    next e hit =>
      split_ifs at found with matching
      cases found
      obtain ⟨member, -, first⟩ := least hit
      refine ⟨mem_map_of_mem member, matching.1, matching.2, fun w hw hkey hseq => ?_⟩
      have later := first (toEntry w) (mem_iff.mp hw) (slot_le_slot.mpr (.inr ⟨hkey.symm, hseq⟩))
      have order : slot (ofEntry e).key (ofEntry e).seq ≤ slot w.key w.seq := later
      obtain less | ⟨-, below⟩ := slot_le_slot.mp order
      · exact absurd (matching.1.trans hkey.symm) less.ne
      · exact below
    next => cases found
  · intro key seq missing w hw hkey
    by_contra visible
    have reach : slot key seq ≤ (toEntry w).1 :=
      slot_le_slot.mpr (.inr ⟨hkey.symm, not_lt.mp visible⟩)
    rw [find] at missing
    split at missing
    next e hit =>
      obtain ⟨-, reached, first⟩ := least hit
      have lower : slot key seq ≤ slot (ofEntry e).key (ofEntry e).seq := reached
      have upper : slot (ofEntry e).key (ofEntry e).seq ≤ slot w.key w.seq :=
        first (toEntry w) (mem_iff.mp hw) reach
      have hkeyE : (ofEntry e).key = key :=
        le_antisymm (((slot_le_slot.mp upper).elim le_of_lt fun h => h.1.le).trans hkey.le)
          ((slot_le_slot.mp lower).elim le_of_lt fun h => h.1.le)
      have hseqE : (ofEntry e).seq ≤ seq :=
        (slot_le_slot.mp lower).elim (fun less => absurd hkeyE less.ne') And.right
      rw [if_pos ⟨hkeyE, hseqE⟩] at missing
      cases missing
    next none =>
      exact absurd reach (by simpa using find?_eq_none.mp none _ (mem_iff.mp hw))

end Memtable

end OmniKV
