import OmniKV.Storage.Compaction

/-!
# Reads over all tiers

The memtables and the tables of a store are tiers of versions, searched newest first.
When no tier hides a newer version below it, a point read returns the newest visible
version, and a scan returns the newest visible version of every key in its range.
-/

namespace OmniKV

open Versioned SSTableReader List Memtable

variable [External]

namespace TableHandle

def records (t : TableHandle) : List OmniRecord := allRecords t.data

def versions (t : TableHandle) : List Version := t.records.map OmniRecord.version

/-- The table is well formed and its filter rejects none of its keys. -/
structure Holds (t : TableHandle) : Prop where
  file : TableFile t.data t.records
  bloom : ∀ r ∈ t.records, t.bloom.mightContain (hashKey r.key)

structure Sound (t : TableHandle) : Prop extends t.Holds where
  aligned : Aligned t.records
  distinct : Unambiguous {v | v ∈ t.versions}

variable {t : TableHandle}

theorem mem_versions {v : Version} : v ∈ t.versions ↔ ∃ r ∈ t.records, r.version = v := mem_map

theorem records_encodeTable {records : List OmniRecord} (table : TableRecords records)
    (bloom : BloomFilter) (p : Path) :
    (⟨encodeTable records, bloom, p⟩ : TableHandle).records = records :=
  (tableFile_encodeTable table).all

theorem holds_encodeTable {records : List OmniRecord} (table : TableRecords records) (n : ℕ)
    (p : Path) : (⟨encodeTable records, tableBloom n records, p⟩ : TableHandle).Holds where
  file := by
    rw [records_encodeTable table]
    exact tableFile_encodeTable table
  bloom r member := by
    rw [records_encodeTable table] at member
    exact BloomFilter.mightContain_ofKeys (le_max_right _ _) (mem_map_of_mem member)

/-- The base of a new database. -/
theorem records_emptyPage (bloom : BloomFilter) (p : Path) :
    (⟨emptyPage, bloom, p⟩ : TableHandle).records = [] := tableFile_emptyPage.all

theorem sound_emptyPage (bloom : BloomFilter) (p : Path) :
    (⟨emptyPage, bloom, p⟩ : TableHandle).Sound where
  file := by
    rw [records_emptyPage]
    exact tableFile_emptyPage
  bloom := by simp [records_emptyPage]
  aligned := by
    rw [records_emptyPage]
    trivial
  distinct := by simp [versions, records_emptyPage, Unambiguous]

theorem Sound.finds (sound : t.Sound) : Finds t.find {v | v ∈ t.versions} := by
  have table : Finds (fun key seq => (findRecord t.data key seq).map OmniRecord.version)
      {v | v ∈ t.versions} := by
    have same : {v | v ∈ t.versions} = versionSet t.records := Set.ext fun _ => mem_versions
    exact same ▸ sound.file.finds sound.aligned
  constructor
  · intro key seq v found
    rw [find] at found
    split_ifs at found
    exact table.newest found
  · intro key seq missing v member hkey
    obtain ⟨r, hr, rfl⟩ := mem_versions.mp member
    -- The filter lets every key of the table through.
    have contains := sound.bloom r hr
    rw [show r.key = key from hkey] at contains
    rw [find, if_pos contains] at missing
    exact table.absent missing _ member hkey

/-- What a compaction reads is in the table. -/
theorem Holds.mem_versions (holds : t.Holds) {v : Version} (member : v ∈ tableVersions t.data) :
    v ∈ t.versions := by
  obtain ⟨r, hr, rfl⟩ := mem_map.mp member
  exact mem_map_of_mem (holds.file.mem_of_mem_iterFrom (mem_filter.mp hr).1)

/-- A compaction reads all of an aligned table. -/
theorem Sound.tableVersions_eq (sound : t.Sound) : tableVersions t.data = t.versions := by
  rw [tableVersions, sound.file.iterFrom_nil sound.aligned]
  congr 1
  exact filter_eq_self.mpr sound.file.table.valid

end TableHandle

namespace StorageRoots

variable (r : StorageRoots)

/-- The memtables in search order. -/
def memtables : List Memtable := r.memtable :: r.frozenMemtables.reverse

/-- The tables in search order. -/
def tables : List TableHandle :=
  r.sstables.reverse ++ r.l1Sstables.reverse ++ [r.baseTable]

def tiers : List (Set Version) :=
  (r.memtables.map fun m => {v | v ∈ m}) ++ r.tables.map fun t => {v | v ∈ t.versions}

/-- All versions that the store holds. -/
def versions : Set Version := union r.tiers

variable {r : StorageRoots} {v : Version}

omit [External] in
theorem mem_tables {t : TableHandle} : t ∈ r.tables ↔ t ∈ r.sstables ∨ t ∈ r.l1Sstables ∨
    t = r.baseTable := by
  simp [tables]

omit [External] in
theorem mem_memtables {m : Memtable} : m ∈ r.memtables ↔ m = r.memtable ∨
    m ∈ r.frozenMemtables := by
  simp [memtables]

theorem mem_versions : v ∈ r.versions ↔ (∃ m ∈ r.memtables, v ∈ m) ∨
    ∃ t ∈ r.tables, v ∈ t.versions := by
  simp only [versions, union, tiers, mem_append, mem_map]
  constructor
  · rintro ⟨S, ⟨m, hm, rfl⟩ | ⟨t, ht, rfl⟩, hv⟩
    · exact .inl ⟨m, hm, hv⟩
    · exact .inr ⟨t, ht, hv⟩
  · rintro (⟨m, hm, hv⟩ | ⟨t, ht, hv⟩)
    · exact ⟨_, .inl ⟨m, hm, rfl⟩, hv⟩
    · exact ⟨_, .inr ⟨t, ht, rfl⟩, hv⟩

def versionList (r : StorageRoots) : List Version :=
  r.memtables.flatMap Memtable.versions ++ r.tables.flatMap TableHandle.versions

theorem mem_versionList : v ∈ r.versionList ↔ v ∈ r.versions := by
  rw [mem_versions, versionList, mem_append, mem_flatMap, mem_flatMap]
  rfl

instance (r : StorageRoots) (v : Version) : Decidable (v ∈ r.versions) :=
  decidable_of_iff (v ∈ r.versionList) mem_versionList

structure Readable (r : StorageRoots) : Prop where
  sound : ∀ t ∈ r.tables, t.Sound
  layered : Layered ∅ r.tiers
  unambiguous : Unambiguous r.versions

theorem readable_of_ordered (sound : ∀ t ∈ r.tables, t.Sound) (ordered : r.tiers.Pairwise Newer) :
    r.Readable where
  sound := sound
  layered := layered_of_pairwise ordered ∅
  unambiguous := by
    refine unambiguous_of_pairwise (fun S hS => ?_) ordered
    obtain inMem | inTable := mem_append.mp hS
    · obtain ⟨m, -, rfl⟩ := mem_map.mp inMem
      exact m.unambiguous
    · obtain ⟨t, ht, rfl⟩ := mem_map.mp inTable
      exact (sound t ht).distinct

def lookups (r : StorageRoots) : List ((Bytes → ℕ → Option Version) × Set Version) :=
  (r.memtables.map fun m => (m.find, {v | v ∈ m})) ++ r.tables.map fun t =>
    (t.find, {v | v ∈ t.versions})

theorem find_eq_firstHit (r : StorageRoots) : r.find = firstHit (r.lookups.map Prod.fst) := by
  funext key seq
  simp only [find, firstHit, lookups, memtables, tables, map_append, map_map, map_cons,
    cons_append, findSome?_cons, findSome?_append, findSome?_map,
    Function.comp_def, map_nil, findSome?_nil, Option.or_assoc]
  cases r.memtable.find key seq <;> cases r.baseTable.find key seq <;> rfl

/-- A point read returns the newest visible version. -/
theorem Readable.finds (readable : r.Readable) : Finds r.find r.versions := by
  have sets : r.lookups.map Prod.snd = r.tiers := by
    simp [lookups, tiers, Function.comp_def]
  have each : ∀ t ∈ r.lookups, Finds t.1 t.2 := by
    intro t ht
    obtain inMem | inTable := mem_append.mp ht
    · obtain ⟨m, -, rfl⟩ := mem_map.mp inMem
      exact m.finds
    · obtain ⟨table, inTables, rfl⟩ := mem_map.mp inTable
      exact (readable.sound table inTables).finds
  rw [find_eq_firstHit, versions, ← sets]
  exact finds_firstHit each (sets ▸ readable.layered)

theorem Readable.find_eq_some_iff (readable : r.Readable) {key : Bytes} {seq : ℕ} :
    r.find key seq = some v ↔ IsNewest r.versions key seq v :=
  readable.finds.eq_some_iff readable.unambiguous

theorem Readable.find_of_le (readable : r.Readable) {s s' : ℕ}
    (all : ∀ v ∈ r.versions, v.seq ≤ s) (all' : ∀ v ∈ r.versions, v.seq ≤ s') (key : Bytes) :
    r.find key s' = r.find key s := by
  refine Option.ext fun v => ?_
  rw [readable.find_eq_some_iff, readable.find_eq_some_iff]
  constructor
  · intro newest
    exact ⟨newest.mem, newest.key_eq, all v newest.mem, fun w hw hk _ =>
      newest.max w hw hk (all' w hw)⟩
  · intro newest
    exact ⟨newest.mem, newest.key_eq, all' v newest.mem, fun w hw hk _ =>
      newest.max w hw hk (all w hw)⟩

end StorageRoots

variable {b : Bytes}

omit [External] in
/-- In a list that is sorted by key, a walk up to a key meets all keys up to it. -/
theorem mem_takeWhile_key_le {α : Type*} {f : α → Bytes} {l : List α} {a : α}
    (sorted : l.Pairwise fun x y => f x ≤ f y) :
    a ∈ l.takeWhile (fun x => f x ≤ b) ↔ a ∈ l ∧ f a ≤ b := by
  induction l with
  | nil => simp
  | cons x rest ih =>
    obtain ⟨below, tail⟩ := pairwise_cons.mp sorted
    by_cases within : f x ≤ b
    · rw [takeWhile_cons_of_pos (by simpa using within), mem_cons, ih tail, mem_cons]
      constructor
      · rintro (rfl | ⟨later, bound⟩)
        · exact ⟨.inl rfl, within⟩
        · exact ⟨.inr later, bound⟩
      · rintro ⟨rfl | later, bound⟩
        · exact .inl rfl
        · exact .inr ⟨later, bound⟩
    · rw [takeWhile_cons_of_neg (by simpa using within)]
      refine ⟨nofun, fun ⟨member, bound⟩ => absurd ?_ within⟩
      obtain same | later := mem_cons.mp member
      · exact same ▸ bound
      · exact (below a later).trans bound

omit [External] in
theorem Memtable.mem_scan {m : Memtable} {a : Bytes} {s : ℕ} {v : Version} :
    v ∈ m.scan a b s ↔ v ∈ m ∧ a ≤ v.key ∧ v.key ≤ b ∧ v.seq ≤ s := by
  have sorted : ((m.map.entries.filter fun e => slot a s ≤ e.1).map ofEntry).Pairwise fun v w =>
      v.key ≤ w.key :=
    m.pairwise_versions.sublist (filter_sublist.map ofEntry)
  have started : v ∈ (m.map.entries.filter fun e => slot a s ≤ e.1).map ofEntry ↔
      v ∈ m ∧ slot a s ≤ slot v.key v.seq := by
    rw [mem_map]
    constructor
    · rintro ⟨e, he, rfl⟩
      obtain ⟨member, reached⟩ := mem_filter.mp he
      exact ⟨mem_map_of_mem member, of_decide_eq_true reached⟩
    · rintro ⟨member, reached⟩
      exact ⟨toEntry v, mem_filter.mpr ⟨mem_iff.mp member, decide_eq_true reached⟩, rfl⟩
  rw [scan, mem_filter, mem_takeWhile_key_le sorted, started, slot_le_slot]
  simp only [decide_eq_true_eq]
  constructor
  · rintro ⟨⟨⟨member, start⟩, stop⟩, visible⟩
    exact ⟨member, start.elim le_of_lt fun same => same.1.le, stop, visible⟩
  · rintro ⟨member, start, stop, visible⟩
    refine ⟨⟨⟨member, ?_⟩, stop⟩, visible⟩
    exact start.lt_or_eq.imp_right fun same => ⟨same, visible⟩

theorem TableHandle.Sound.mem_scan {t : TableHandle} (sound : t.Sound) {a : Bytes} {s : ℕ}
    {v : Version} : v ∈ t.scan a b s ↔ v ∈ t.versions ∧ a ≤ v.key ∧ v.key ≤ b ∧ v.seq ≤ s := by
  rw [TableHandle.scan, mem_map, TableHandle.mem_versions]
  constructor
  · rintro ⟨r, hr, rfl⟩
    obtain ⟨walked, kept⟩ := mem_filter.mp hr
    obtain ⟨iterated, stop⟩ := (mem_takeWhile_key_le (sound.file.sorted_iterFrom a)).mp walked
    simp only [Bool.and_eq_true, decide_eq_true_eq] at kept
    exact ⟨⟨r, sound.file.mem_of_mem_iterFrom iterated, rfl⟩, kept.1.1, stop, kept.2⟩
  · rintro ⟨⟨r, member, rfl⟩, start, stop, visible⟩
    have iterated := sound.file.mem_iterFrom sound.aligned member start
    refine ⟨r, mem_filter.mpr ⟨?_, ?_⟩, rfl⟩
    · exact (mem_takeWhile_key_le (sound.file.sorted_iterFrom a)).mpr ⟨iterated, stop⟩
    · simp only [Bool.and_eq_true, decide_eq_true_eq]
      exact ⟨⟨start, sound.file.table.valid r member⟩, visible⟩

namespace StorageRoots

theorem Readable.mem_candidates {r : StorageRoots} (readable : r.Readable) {a b : Bytes} {s : ℕ}
    {v : Version} : v ∈ r.candidates a b s ↔ v ∈ r.versions ∧ a ≤ v.key ∧ v.key ≤ b ∧
    v.seq ≤ s := by
  have inTables : (∃ t ∈ r.tables, v ∈ t.scan a b s) ↔
      (∃ t ∈ r.tables, v ∈ t.versions) ∧ a ≤ v.key ∧ v.key ≤ b ∧ v.seq ≤ s := by
    rw [exists_and_right.symm]
    refine exists_congr fun t => ?_
    rw [and_assoc]
    exact and_congr_right fun ht => (readable.sound t ht).mem_scan
  have inMemtables : (∃ m ∈ r.memtables, v ∈ m.scan a b s) ↔
      (∃ m ∈ r.memtables, v ∈ m) ∧ a ≤ v.key ∧ v.key ≤ b ∧ v.seq ≤ s := by
    simp only [mem_scan]
    grind
  rw [mem_versions, or_and_right, ← inTables, ← inMemtables]
  simp only [candidates, mem_append, mem_flatMap, mem_reverse, mem_memtables, mem_tables]
  grind

end StorageRoots

/-! ## Deduplication

A scan sorts its candidates by key and newest first, and keeps the first of each key. -/

section Dedup

omit [External]

/-- By key, and newest first. -/
def SlotSorted (l : List Version) : Prop :=
  l.Pairwise fun a b => slot a.key a.seq ≤ slot b.key b.seq
deriving Decidable

variable {l : List Version} {last : Option Bytes} {v : Version}

theorem key_le_of_slot_le {a b : Version} (le : slot a.key a.seq ≤ slot b.key b.seq) :
    a.key ≤ b.key := by
  obtain less | same := Memtable.slot_le_slot.mp le
  · exact less.le
  · exact same.1.le

/-- What is kept is the newest of its key, and comes after the last key. -/
theorem mem_dedupFrom (sorted : SlotSorted l) (bounded : ∀ k ∈ last, ∀ w ∈ l, k ≤ w.key)
    (member : v ∈ dedupFrom last l) : v ∈ l ∧ (∀ k ∈ last, k < v.key) ∧ ∀ w ∈ l, w.key = v.key →
    w.seq ≤ v.seq := by
  induction l generalizing last with
  | nil => cases member
  | cons x rest ih =>
    obtain ⟨below, tail⟩ := pairwise_cons.mp sorted
    rw [dedupFrom] at member
    split_ifs at member with repeated
    · obtain ⟨inside, above, newest⟩ := ih tail (fun k hk w hw => bounded k hk w (.tail _ hw))
        member
      refine ⟨.tail _ inside, above, fun w hw same => ?_⟩
      obtain here | later := mem_cons.mp hw
      · exact absurd (here ▸ same) (above x.key (Option.mem_def.mpr repeated.symm)).ne
      · exact newest w later same
    · have above : ∀ k ∈ last, k < x.key := by
        intro k hk
        apply lt_of_le_of_ne (bounded k hk x (.head _))
        rintro rfl
        exact repeated (Option.mem_def.mp hk).symm
      obtain rfl | later := mem_cons.mp member
      · refine ⟨.head _, above, fun w hw same => ?_⟩
        obtain self | later := mem_cons.mp hw
        · exact self ▸ le_rfl
        · obtain less | order := Memtable.slot_le_slot.mp (below w later)
          · exact absurd same less.ne'
          · exact order.2
      · obtain ⟨inside, beyond, newest⟩ :=
          ih tail (by rintro k ⟨⟩ w hw; exact key_le_of_slot_le (below w hw)) later
        have beyond : x.key < v.key := beyond x.key rfl
        refine ⟨.tail _ inside, fun k hk => (above k hk).trans beyond, fun w hw same => ?_⟩
        obtain here | later := mem_cons.mp hw
        · exact absurd (here ▸ same) beyond.ne
        · exact newest w later same

/-- Every key but the last one seen keeps a version. -/
theorem exists_mem_dedupFrom (member : v ∈ l) (fresh : some v.key ≠ last) :
    ∃ w ∈ dedupFrom last l, w.key = v.key := by
  induction l generalizing last with
  | nil => cases member
  | cons x rest ih =>
    rw [dedupFrom]
    split_ifs with repeated
    · obtain here | later := mem_cons.mp member
      · exact absurd (here ▸ repeated) fresh
      · exact ih later fresh
    · by_cases same : v.key = x.key
      · exact ⟨x, .head _, same.symm⟩
      · have later := (mem_cons.mp member).resolve_left fun here => same (here ▸ rfl)
        obtain ⟨w, hw, hkey⟩ := ih later fun h => same (Option.some.inj h)
        exact ⟨w, .tail _ hw, hkey⟩

theorem pairwise_dedupFrom (sorted : SlotSorted l) (bounded : ∀ k ∈ last, ∀ w ∈ l, k ≤ w.key) :
    (dedupFrom last l).Pairwise fun a b => a.key < b.key := by
  induction l generalizing last with
  | nil => exact .nil
  | cons x rest ih =>
    obtain ⟨below, tail⟩ := pairwise_cons.mp sorted
    rw [dedupFrom]
    split_ifs with repeated
    · exact ih tail fun k hk w hw => bounded k hk w (.tail _ hw)
    · have rising : ∀ k ∈ some x.key, ∀ w ∈ rest, k ≤ w.key := by
        rintro k ⟨⟩ w hw
        exact key_le_of_slot_le (below w hw)
      exact .cons (fun w hw => (mem_dedupFrom tail rising hw).2.1 x.key rfl) (ih tail rising)

theorem mem_dedupByKey (sorted : SlotSorted l) (unambiguous : Unambiguous {v | v ∈ l}) :
    v ∈ dedupByKey l ↔ v ∈ l ∧ ∀ w ∈ l, w.key = v.key → w.seq ≤ v.seq := by
  constructor
  · intro member
    obtain ⟨inside, -, newest⟩ := mem_dedupFrom sorted (by simp) member
    exact ⟨inside, newest⟩
  · rintro ⟨inside, newest⟩
    have fresh : some v.key ≠ none := Option.some_ne_none _
    obtain ⟨w, kept, same⟩ := exists_mem_dedupFrom inside fresh
    obtain ⟨member, -, newest'⟩ := mem_dedupFrom sorted (by simp) kept
    have seq : w.seq = v.seq := le_antisymm (newest w member same) (newest' v inside same.symm)
    rw [← unambiguous w member v inside same seq]
    exact kept

end Dedup

namespace StorageRoots

omit [External] in
theorem slotSorted_mergeSort (l : List Version) :
    SlotSorted (l.mergeSort fun a b => slot a.key a.seq ≤ slot b.key b.seq) := by
  refine (pairwise_mergeSort (fun a b c ab bc => ?_) (fun a b => ?_) l).imp of_decide_eq_true
  · exact decide_eq_true ((of_decide_eq_true ab).trans (of_decide_eq_true bc))
  · simpa using le_total (slot a.key a.seq) (slot b.key b.seq)

variable {r : StorageRoots} {a b : Bytes} {s : ℕ}

/-- Candidates that are in order are not moved. -/
theorem scan_of_slotSorted (sorted : SlotSorted (r.candidates a b s)) :
    r.scan a b s = dedupByKey (r.candidates a b s) := by
  rw [scan, mergeSort_of_pairwise (sorted.imp decide_eq_true)]

/-- With one candidate there is nothing to sort. -/
theorem scan_of_length_le_one (few : (r.candidates a b s).length ≤ 1) :
    r.scan a b s = r.candidates a b s := by
  rw [scan]
  obtain none | one := Nat.le_one_iff_eq_zero_or_eq_one.mp few
  · rw [length_eq_zero_iff.mp none, mergeSort_nil]
    rfl
  · obtain ⟨v, single⟩ := length_eq_one_iff.mp one
    rw [single, mergeSort_singleton]
    rfl

/-- A scan visits the newest visible version of every key in its range. -/
theorem Readable.mem_scan (readable : r.Readable) {v : Version} :
    v ∈ r.scan a b s ↔ a ≤ v.key ∧ v.key ≤ b ∧ r.find v.key s = some v := by
  have unambiguous : Unambiguous {v | v ∈ (r.candidates a b s).mergeSort
      fun a b => slot a.key a.seq ≤ slot b.key b.seq} := by
    apply readable.unambiguous.mono
    intro w hw
    exact (readable.mem_candidates.mp (mem_mergeSort.mp hw)).1
  rw [scan, mem_dedupByKey (slotSorted_mergeSort _) unambiguous, readable.find_eq_some_iff]
  simp only [mem_mergeSort, readable.mem_candidates]
  constructor
  · rintro ⟨⟨member, start, stop, visible⟩, newest⟩
    refine ⟨start, stop, member, rfl, visible, fun w hw hkey hseq => ?_⟩
    have hkey : w.key = v.key := hkey
    exact newest w ⟨hw, hkey ▸ start, hkey ▸ stop, hseq⟩ hkey
  · rintro ⟨start, stop, newest⟩
    refine ⟨⟨newest.mem, start, stop, newest.seq_le⟩, fun w hw hkey => ?_⟩
    exact newest.max w hw.1 hkey hw.2.2.2

theorem Readable.mem_versions_of_mem_scan (readable : r.Readable) {v : Version}
    (member : v ∈ r.scan a b s) : v ∈ r.versions :=
  (readable.find_eq_some_iff.mp (readable.mem_scan.mp member).2.2).mem

/-- A scan visits keys in ascending order. -/
theorem pairwise_scan (r : StorageRoots) (a b : Bytes) (s : ℕ) :
    (r.scan a b s).Pairwise fun v w => v.key < w.key :=
  pairwise_dedupFrom (slotSorted_mergeSort _) (by simp)

end StorageRoots

end OmniKV
