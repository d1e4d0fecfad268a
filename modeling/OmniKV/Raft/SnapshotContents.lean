import OmniKV.Raft.Node
import OmniKV.Storage.Serving

/-!
# What an installed snapshot shows

The entries of a snapshot are set one after another in a temporary database, in batches of the
largest size, and the receiver recovers from its files. Every key has one version there.
-/

namespace OmniKV

open List Engine Memtable

def KvState.setAll (σ : KvState) (entries : List (Bytes × Bytes)) : KvState :=
  entries.foldl (fun σ entry => Function.update σ entry.1 (some entry.2)) σ

/-- No key has a value. -/
def KvState.nothing : KvState := fun _ => none

namespace KvState

theorem setAll_append (σ : KvState) (entries more : List (Bytes × Bytes)) :
    σ.setAll (entries ++ more) = (σ.setAll entries).setAll more := foldl_append

theorem setAll_of_not_mem (σ : KvState) {entries : List (Bytes × Bytes)} {key : Bytes}
    (absent : ∀ entry ∈ entries, entry.1 ≠ key) : σ.setAll entries key = σ key := by
  induction entries generalizing σ with
  | nil => rfl
  | cons entry entries ih =>
    obtain ⟨first, rest⟩ := forall_mem_cons.mp absent
    rw [setAll, foldl_cons, ← setAll, ih _ rest, Function.update_of_ne first.symm]

theorem setAll_of_mem (σ : KvState) {entries : List (Bytes × Bytes)}
    (distinct : (entries.map Prod.fst).Nodup) {key value : Bytes}
    (member : (key, value) ∈ entries) : σ.setAll entries key = some value := by
  induction entries generalizing σ with
  | nil => cases member
  | cons entry entries ih =>
    rw [map_cons, nodup_cons] at distinct
    rw [setAll, foldl_cons, ← setAll]
    obtain here | later := mem_cons.mp member
    · have later : ∀ other ∈ entries, other.1 ≠ key := by
        intro other hother same
        have again : other.1 = entry.1 := by rw [same, ← here]
        exact distinct.1 (again ▸ mem_map_of_mem hother)
      rw [setAll_of_not_mem _ later, ← here, Function.update_self]
    · exact ih _ distinct.2 later

end KvState

/-- Records with different keys have no key to split. -/
theorem alignedFrom_of_nodup {start : Option ℕ} {offset : ℕ} {previous : Option Bytes}
    {records : List OmniRecord} (distinct : (records.map OmniRecord.key).Nodup)
    (first : ∀ r ∈ records, previous ≠ some r.key) : AlignedFrom start offset previous records := by
  induction records generalizing start offset previous with
  | nil => exact trivial
  | cons r rs ih =>
    rw [map_cons, nodup_cons] at distinct
    refine ⟨fun _ => first r mem_cons_self, ih distinct.2 fun r' hr' same => ?_⟩
    rw [Option.some.inj same] at distinct
    exact distinct.1 (mem_map_of_mem hr')

theorem aligned_of_nodup {records : List OmniRecord}
    (distinct : (records.map OmniRecord.key).Nodup) : Aligned records := by
  rw [Aligned]
  exact alignedFrom_of_nodup distinct nofun

def Memtable.OnePerKey (m : Memtable) : Prop := ∀ v ∈ m, ∀ w ∈ m, v.key = w.key → v = w

theorem Memtable.OnePerKey.nodup {m : Memtable} (one : m.OnePerKey) :
    (m.versions.map Version.key).Nodup := by
  refine List.Nodup.map_on (fun v hv w hw same => ?_) m.nodup_versions
  exact one v (mem_versions.mp hv) w (mem_versions.mp hw) same

section

variable [External]

theorem Memtable.OnePerKey.aligned {m : Memtable} (one : m.OnePerKey) :
    Aligned (Engine.flushRecords m) := by
  refine aligned_of_nodup ?_
  have keys : (Engine.flushRecords m).map OmniRecord.key = m.versions.map Version.key := by
    rw [Engine.flushRecords, map_map]
    rfl
  rw [keys]
  exact one.nodup

namespace WriteBatch

variable {b b' : WriteBatch} {key value : Bytes}

section

omit [External]

theorem set_eq_of_room (b : WriteBatch) (key : Bytes) {value : Bytes}
    (room : b.opCount < maxBatchSize)
    (small : value.length ≤ maxValueSize) : ∃ b', b.set key value = .ok b' ∧
      b'.bufferedWrites = b.bufferedWrites ++ [⟨key, value, 0⟩] ∧
      b'.bufferedDeletes = b.bufferedDeletes := by
  rw [set, setWithExpiry, dif_neg (by omega), dif_neg (by omega)]
  exact ⟨_, rfl, rfl, rfl⟩

theorem length_of_set (done : b.set key value = .ok b') : value.length ≤ maxValueSize := by
  rw [set, setWithExpiry] at done
  split_ifs at done with full large
  exact not_lt.mp large

/-- A set behind the others has the last word. -/
theorem effect_append (writes : b'.bufferedWrites = b.bufferedWrites ++ [⟨key, value, 0⟩])
    (noDeletes : b.bufferedDeletes = []) (noDeletes' : b'.bufferedDeletes = []) (now : UInt64)
    (σ : KvState) : b'.effect now σ = Function.update (b.effect now σ) key (some value) := by
  have ops : b'.ops = b.ops ++ [(key, some ⟨key, value, 0⟩)] := by
    simp [WriteBatch.ops, writes, noDeletes, noDeletes']
  funext other
  rw [effect, ops, reverse_append, reverse_singleton, singleton_append, find?_cons,
    Function.update_apply]
  by_cases same : other = key
  · simp [same]
  · rw [if_neg same]
    simp [Ne.symm same, effect]

end

theorem totalHeapBytes_append (writes : b'.bufferedWrites = b.bufferedWrites ++ [⟨key, value, 0⟩])
    (small : value.length ≤ maxValueSize) :
    b'.totalHeapBytes = b.totalHeapBytes + (prepWrite ⟨key, value, 0⟩).bytes.length := by
  rw [← storedLength_prepWrite small]
  simp [totalHeapBytes, prepped, writes]

end WriteBatch

def entriesHeapSize (entries : List (Bytes × Bytes)) : ℕ :=
  (entries.map fun entry => (prepWrite ⟨entry.1, entry.2, 0⟩).bytes.length).sum

def entriesTableSize (entries : List (Bytes × Bytes)) : ℕ :=
  (entries.map fun entry => 42 + entry.1.length).sum

/-- The entries can be set, each key once, and nothing overflows. -/
structure Loadable (entries : List (Bytes × Bytes)) : Prop where
  keys : ∀ entry ∈ entries, entry.1.length ≤ 65535 ∧ entry.1 ≠ commitMarkerKey
  values : ∀ entry ∈ entries, entry.2.length ≤ maxValueSize
  distinct : (entries.map Prod.fst).Nodup
  count : entries.length + entries.length / maxBatchSize + 5 < 2 ^ 64
  size : entriesTableSize entries < 2 ^ 64
  heap : entriesHeapSize entries < 2 ^ 64

theorem Loadable.of_append {entries more : List (Bytes × Bytes)}
    (loadable : Loadable (entries ++ more)) : Loadable entries where
  keys entry member := loadable.keys entry (mem_append_left _ member)
  values entry member := loadable.values entry (mem_append_left _ member)
  distinct := by
    have distinct := loadable.distinct
    rw [map_append] at distinct
    exact distinct.of_append_left
  count := by
    have count := loadable.count
    rw [length_append] at count
    have fewer : entries.length / maxBatchSize ≤ (entries.length + more.length) / maxBatchSize :=
      Nat.div_le_div_right (Nat.le_add_right _ _)
    omega
  size := by
    have size := loadable.size
    rw [entriesTableSize, map_append, sum_append] at size
    exact (Nat.le_add_right _ _).trans_lt size
  heap := by
    have heap := loadable.heap
    rw [entriesHeapSize, map_append, sum_append] at heap
    exact (Nat.le_add_right _ _).trans_lt heap

variable {env : SnapshotEnvelope} {metaJson : Bytes}

theorem Loadable.sized
    (loadable : Loadable (env.entries ++ [(raftMetaKey, metaJson)]))
    (maxSeq : env.maxSeq + 2 < 2 ^ 64) : env.Sized where
  keys entry member := (loadable.of_append.keys entry member).1
  count := by
    have count : (env.entries ++ [(raftMetaKey, metaJson)]).length +
      (env.entries ++ [(raftMetaKey, metaJson)]).length / 10000 + 5 < 2 ^ 64 := loadable.count
    rw [length_append, length_singleton] at count
    show env.entries.length + env.entries.length / 10000 + 6 < 2 ^ 64
    omega
  size := by
    have size := loadable.size
    rw [entriesTableSize, map_append, sum_append, map_singleton, sum_singleton,
      show raftMetaKey.length = 17 by decide] at size
    exact size
  maxSeq := maxSeq

/-- A temporary database in which the entries are set, the last ones in a batch. -/
structure Loaded (db : Engine) (batch : WriteBatch) (entries : List (Bytes × Bytes)) : Prop where
  consistent : db.Consistent
  noFlush : db.roots.frozenMemtables = []
  noTables : db.roots.sstables = []
  threshold : db.l0WriteStallThreshold = defaultL0WriteStallThreshold
  maxSeq : db.roots.manifest.maxSeq = 0
  noFiles : ∀ token, db.files.files (.l0 token) = none
  noDeletes : batch.bufferedDeletes = []
  keys : ∀ op ∈ batch.ops, op.1 ∈ entries.map Prod.fst
  distinct : (batch.ops.map Prod.fst).Nodup
  stored : ∀ v ∈ db.roots.memtable, v.key ∈ entries.map Prod.fst ∧ ∀ op ∈ batch.ops, v.key ≠ op.1
  one : db.roots.memtable.OnePerKey
  heap : db.heapOffset + batch.totalHeapBytes = entriesHeapSize entries
  state : ∀ now, batch.effect now (db.current now) = KvState.nothing.setAll entries

namespace Loaded

variable {db : Engine} {batch : WriteBatch} {entries : List (Bytes × Bytes)}
  (loaded : Loaded db batch entries)

include loaded

/-- The new records of a loaded batch have keys of their own. -/
theorem onePerKey_committed : (db.committed batch).roots.memtable.OnePerKey := by
  have opOf : ∀ r ∈ db.newRecords batch, ∃ op ∈ batch.ops, op.1 = r.key := fun r hr =>
    Engine.Consistent.exists_op_of_mem_nextBatch (mem_filter.mp hr).1
  rw [roots_committed]
  intro v hv w hw same
  obtain old | ⟨r, hr, rfl⟩ := mem_of_mem_insertAll hv
  · obtain old' | ⟨r, hr, rfl⟩ := mem_of_mem_insertAll hw
    · exact loaded.one v old w old' same
    · obtain ⟨op, hop, key⟩ := opOf r hr
      exact absurd (same.trans key.symm) ((loaded.stored v old).2 op hop)
  · obtain old' | ⟨r', hr', rfl⟩ := mem_of_mem_insertAll hw
    · obtain ⟨op, hop, key⟩ := opOf r hr
      exact absurd (same.symm.trans key.symm) ((loaded.stored w old').2 op hop)
    · have nodup : ((db.nextBatch batch).records.map OmniRecord.key).Nodup :=
        (batch.key_userRecords db.globalSeq db.heapOffset).symm ▸ loaded.distinct
      rw [inj_on_of_nodup_map nodup (mem_filter.mp hr).1 (mem_filter.mp hr').1 same]

theorem commit (loadable : Loadable entries)
    (counter : db.globalSeq + (batch.opCount + 2) < 2 ^ 64) :
    Loaded (db.committed batch) .new entries := by
  have heapRoom : db.heapOffset + batch.totalHeapBytes < 2 ^ 64 := loaded.heap ▸ loadable.heap
  have fits : db.Fits batch := ⟨by omega, heapRoom⟩
  have keys : ∀ op ∈ batch.ops, op.1.length ≤ 65535 ∧ op.1 ≠ commitMarkerKey := by
    intro op hop
    obtain ⟨entry, member, same⟩ := mem_map.mp (loaded.keys op hop)
    exact same ▸ loadable.keys entry member
  refine ⟨loaded.consistent.committed keys counter heapRoom, ?_, ?_, ?_, ?_, fun token => ?_, rfl,
    (fun op hop => nomatch hop), nodup_nil, fun v hv => ⟨?_, fun op hop => nomatch hop⟩,
    loaded.onePerKey_committed, ?_, fun now => ?_⟩
  · exact loaded.noFlush
  · exact loaded.noTables
  · exact loaded.threshold
  · exact loaded.maxSeq
  · rw [files_committed]
    simp only [Files.sync, Files.write, Function.update_apply]
    split_ifs with here
    · rw [← here, loaded.noFiles]
      rfl
    · exact loaded.noFiles token
  · rw [roots_committed] at hv
    obtain old | ⟨r, hr, rfl⟩ := mem_of_mem_insertAll hv
    · exact (loaded.stored v old).1
    · obtain ⟨op, hop, key⟩ := Engine.Consistent.exists_op_of_mem_nextBatch (mem_filter.mp hr).1
      show r.key ∈ _
      rw [← key]
      exact loaded.keys op hop
  · rw [heapOffset_committed, wrap64_of_lt heapRoom]
    exact loaded.heap
  · rw [loaded.consistent.exact.current_committed (fun op hop => (keys op hop).2) fits,
      loaded.state]
    rfl

theorem commitBatchLocal : ∃ seq, db.commitBatchLocal batch = .ok (db.committed batch, seq) := by
  refine ⟨_, if_neg ?_⟩
  rw [loaded.noTables, loaded.threshold]
  decide

theorem set {key value : Bytes} (fresh : key ∉ entries.map Prod.fst)
    (room : batch.opCount < maxBatchSize) (small : value.length ≤ maxValueSize) :
    ∃ batch', batch.set key value = .ok batch' ∧ Loaded db batch' (entries ++ [(key, value)]) := by
  obtain ⟨batch', done, writes, deletes⟩ := batch.set_eq_of_room key room small
  have noDeletes := deletes.trans loaded.noDeletes
  have ops : batch'.ops = batch.ops ++ [(key, some ⟨key, value, 0⟩)] := by
    simp [WriteBatch.ops, writes, loaded.noDeletes, noDeletes]
  have names : (entries ++ [(key, value)]).map Prod.fst = entries.map Prod.fst ++ [key] := by simp
  refine ⟨batch', done, loaded.consistent, loaded.noFlush, loaded.noTables, loaded.threshold,
    loaded.maxSeq, loaded.noFiles, noDeletes, fun op hop => ?_, ?_, fun v hv =>
    ⟨?_, fun op hop => ?_⟩, loaded.one, ?_, fun now => ?_⟩
  · rw [names]
    rw [ops] at hop
    obtain old | new := mem_append.mp hop
    · exact mem_append_left _ (loaded.keys op old)
    · exact mem_append_right _ (by simp [mem_singleton.mp new])
  · have apart : key ∉ batch.ops.map Prod.fst := by
      intro member
      obtain ⟨op, hop, same⟩ := mem_map.mp member
      exact fresh (same ▸ loaded.keys op hop)
    rw [ops, map_append]
    exact List.Nodup.append loaded.distinct (nodup_singleton _) (by simpa using apart)
  · rw [names]
    exact mem_append_left _ (loaded.stored v hv).1
  · rw [ops] at hop
    obtain old | new := mem_append.mp hop
    · exact (loaded.stored v hv).2 op old
    · rw [mem_singleton.mp new]
      intro same
      have taken := (loaded.stored v hv).1
      rw [same] at taken
      exact fresh taken
  · rw [WriteBatch.totalHeapBytes_append writes small, ← Nat.add_assoc, loaded.heap,
      entriesHeapSize, entriesHeapSize, map_append, sum_append]
    simp
  · rw [WriteBatch.effect_append writes loaded.noDeletes noDeletes, loaded.state,
      KvState.setAll_append]
    rfl

theorem commitIfFull (loadable : Loadable entries)
    (counter : db.globalSeq + (batch.opCount + 2) < 2 ^ 64) :
    ∃ db' batch', OmniKV.commitIfFull db batch = .ok (db', batch') ∧ Loaded db' batch' entries := by
  rw [OmniKV.commitIfFull]
  split_ifs with full
  · obtain ⟨seq, done⟩ := loaded.commitBatchLocal
    rw [done]
    exact ⟨_, _, rfl, loaded.commit loadable counter⟩
  · exact ⟨_, _, rfl, loaded⟩

omit loaded in
theorem counter_of_staged {c size : ℕ} (staged : Staged db batch entries.length c size)
    (loadable : Loadable entries) : db.globalSeq + (batch.opCount + 2) < 2 ^ 64 := by
  have seq : db.globalSeq = 1 + 10001 * c := staged.seq
  have count : entries.length = 10000 * c + batch.opCount := staged.count
  have total : entries.length + entries.length / 10000 + 5 < 2 ^ 64 := loadable.count
  omega

theorem stageEntries {rest : List (Bytes × Bytes)} {c size : ℕ}
    (staged : Staged db batch entries.length c size) (loadable : Loadable (entries ++ rest)) :
    ∃ db' batch', OmniKV.stageEntries db batch rest = .ok (db', batch') ∧
      Loaded db' batch' (entries ++ rest) := by
  induction rest generalizing db batch entries c size with
  | nil =>
    rw [append_nil]
    exact ⟨db, batch, rfl, loaded⟩
  | cons entry rest ih =>
    have before := loadable.of_append
    obtain ⟨db₁, batch₁, flushed, loaded₁⟩ :=
      loaded.commitIfFull before (counter_of_staged staged before)
    have count : entries.length = 10000 * c + batch.opCount := staged.count
    have total : (entries ++ entry :: rest).length + (entries ++ entry :: rest).length / 10000 + 5 <
      2 ^ 64 := loadable.count
    rw [length_append, length_cons] at total
    obtain ⟨room, c', staged₁, -⟩ := staged.commitIfFull (by omega) flushed
    have member : entry ∈ entries ++ entry :: rest := mem_append_right _ mem_cons_self
    have fresh : entry.1 ∉ entries.map Prod.fst := by
      have distinct := loadable.distinct
      rw [map_append] at distinct
      exact fun taken => (nodup_append.mp distinct).2.2 _ taken _ mem_cons_self rfl
    obtain ⟨batch₂, added, loaded₂⟩ := loaded₁.set fresh room (loadable.values entry member)
    have staged₂ := staged₁.set (loadable.keys entry member).1 added
    rw [append_cons] at loadable ⊢
    rw [show entries.length + 1 = (entries ++ [entry]).length by simp] at staged₂
    obtain ⟨db', batch', done, loaded'⟩ := ih loaded₂ staged₂ loadable
    refine ⟨db', batch', ?_, loaded'⟩
    rw [OmniKV.stageEntries, flushed]
    show (do
      let batch ← batch₁.set entry.1 entry.2
      OmniKV.stageEntries db₁ batch rest) = _
    rw [added]
    exact done

end Loaded

/-- A new database shows nothing. -/
theorem loaded_initial : Loaded (Engine.ofRecovered (recoverFrom .empty .initial)) .new [] := by
  have opened : Engine.openDb .empty = .ok (Engine.ofRecovered (recoverFrom .empty .initial)) := rfl
  have noVersions := versions_of_openDb_empty opened
  have noStored : ∀ v, v ∉ (Engine.ofRecovered (recoverFrom .empty .initial)).roots.memtable :=
    not_mem_empty
  have c := consistent_of_openDb_empty opened
  refine ⟨c, rfl, rfl, rfl, rfl, fun _ => rfl, rfl, (fun op hop => nomatch hop), nodup_nil,
    fun v hv => absurd hv (noStored v), fun v hv => absurd hv (noStored v), rfl, fun now => ?_⟩
  funext key
  show Option.bind _ _ = none
  cases found : (Engine.ofRecovered (recoverFrom .empty .initial)).roots.find key
      (Engine.ofRecovered (recoverFrom .empty .initial)).globalSeq with
  | none => rfl
  | some v => exact absurd (c.ordered.readable.find_eq_some_iff.mp found).mem (noVersions v)

namespace Loaded

variable {db : Engine} {entries : List (Bytes × Bytes)}

/-- Flushing the loaded database leaves one table, from which it can be opened again. -/
theorem compactSstables (loaded : Loaded db .new entries)
    (size : tableSize db.roots.memtable.versions < 2 ^ 64) (token : ℕ) :
    ∃ db', db.compactSstables token = .ok db' ∧ db'.Consistent ∧ db'.roots.frozenMemtables = [] ∧
      db'.globalSeq = db.globalSeq ∧ db'.roots.manifest.maxSeq ≤ db.globalSeq ∧
      ∀ now, db'.current now = KvState.nothing.setAll entries := by
  have free : ¬(db.freeze.files.files (.l0 token)).isSome := by
    show ¬(db.files.files (.l0 token)).isSome
    rw [loaded.noFiles]
    exact Bool.false_ne_true
  have noFrozen : (db.roots.frozenMemtables ++ [db.roots.memtable]).eraseIdx
      db.roots.frozenMemtables.length = [] := by
    rw [loaded.noFlush]
    rfl
  have shown : ∀ db', db.compactSstables token = .ok db' → db'.globalSeq = db.globalSeq →
      db'.Consistent ∧ ∀ now, db'.current now = KvState.nothing.setAll entries := by
    intro db' done counter
    obtain ⟨c, same⟩ := loaded.consistent.stateAt_compactSstables loaded.noFlush loaded.one.aligned
      size done
    refine ⟨c, fun now => ?_⟩
    rw [Engine.current, counter, same]
    exact loaded.state now
  by_cases empty : Engine.flushRecords db.roots.memtable = []
  · have done : db.compactSstables token =
        .ok (db.freeze.removeFrozenMemtable db.roots.frozenMemtables.length) := by
      simp only [Engine.compactSstables, Engine.publishFrozen, empty, if_true]
    obtain ⟨c, state⟩ := shown _ done rfl
    exact ⟨_, done, c, noFrozen, rfl, loaded.maxSeq.le.trans (Nat.zero_le _), state⟩
  · obtain ⟨t, done⟩ : ∃ t, db.compactSstables token =
        .ok ((((db.freeze.writeTable t).saveManifest (db.freeze.flushManifest token)).pushL0 t
          (db.freeze.flushManifest token)).removeFrozenMemtable
          db.roots.frozenMemtables.length) := by
      refine ⟨newTable (.l0 token) (Engine.flushRecords db.roots.memtable), ?_⟩
      simp only [Engine.compactSstables, Engine.publishFrozen]
      rw [if_neg empty]
      exact if_neg free
    obtain ⟨c, state⟩ := shown _ done rfl
    refine ⟨_, done, c, noFrozen, rfl, ?_, state⟩
    show max db.roots.manifest.maxSeq db.globalSeq ≤ db.globalSeq
    rw [loaded.maxSeq]
    exact max_le (Nat.zero_le _) le_rfl

end Loaded

theorem exists_buildSnapshotStore (loadable : Loadable (env.entries ++ [(raftMetaKey, metaJson)]))
    (token : ℕ) : ∃ db, buildSnapshotStore env metaJson token = .ok db ∧ db.Consistent ∧
      db.roots.frozenMemtables = [] ∧ max db.globalSeq db.roots.manifest.maxSeq + 2 < 2 ^ 64 ∧
      ∀ now, db.current now = KvState.nothing.setAll
      (env.entries ++ [(raftMetaKey, metaJson)]) := by
  have start : Staged (Engine.ofRecovered (recoverFrom .empty .initial)) .new 0 0 0 :=
    ⟨wellFormed_initial, rfl, rfl, nofun, le_rfl⟩
  have before := loadable.of_append
  have total : (env.entries ++ [(raftMetaKey, metaJson)]).length +
    (env.entries ++ [(raftMetaKey, metaJson)]).length / 10000 + 5 < 2 ^ 64 := loadable.count
  rw [length_append, length_singleton] at total
  obtain ⟨db₁, batch₁, entries, loaded₁⟩ := loaded_initial.stageEntries start before
  obtain ⟨c₁, staged₁⟩ := start.stageEntries (fun entry member => (before.keys entry member).1)
    (by rw [show maxBatchSize = 10000 from rfl]; omega) entries
  rw [Nat.zero_add, Nat.zero_add] at staged₁
  obtain ⟨db₂, batch₂, flushed, loaded₂⟩ :=
    loaded₁.commitIfFull before (Loaded.counter_of_staged staged₁ before)
  have count₁ : env.entries.length = 10000 * c₁ + batch₁.opCount := staged₁.count
  obtain ⟨room, c₂, staged₂, -⟩ := staged₁.commitIfFull (by omega) flushed
  have last : (raftMetaKey, metaJson) ∈ env.entries ++ [(raftMetaKey, metaJson)] :=
    mem_append_right _ (mem_singleton_self _)
  have fresh : raftMetaKey ∉ env.entries.map Prod.fst := by
    have distinct := loadable.distinct
    rw [map_append] at distinct
    exact fun taken => (nodup_append.mp distinct).2.2 _ taken _ mem_cons_self rfl
  obtain ⟨batch₃, added, loaded₃⟩ := loaded₂.set fresh room (loadable.values _ last)
  have staged₃ := staged₂.set (loadable.keys _ last).1 added
  rw [show env.entries.length + 1 = (env.entries ++ [(raftMetaKey, metaJson)]).length by simp]
    at staged₃
  have counter := Loaded.counter_of_staged staged₃ loadable
  obtain ⟨seq, committed⟩ := loaded₃.commitBatchLocal
  have loaded₄ := loaded₃.commit loadable counter
  have size : tableSize (db₂.committed batch₃).roots.memtable.versions < 2 ^ 64 := by
    have grown := tableSize_committed_le db₂ batch₃
    have bound := staged₃.size
    have small := loadable.size
    rw [entriesTableSize, map_append, sum_append, map_singleton] at small
    exact (grown.trans bound).trans_lt small
  obtain ⟨db, compacted, c, noFlush, same, maxSeq, state⟩ := loaded₄.compactSstables size token
  have opened : Engine.openDb { Disk.empty with manifest := some .initial } =
    .ok (Engine.ofRecovered (recoverFrom .empty .initial)) := rfl
  have built : buildSnapshotStore env metaJson token = .ok db := by
    simp only [buildSnapshotStore, opened, entries, flushed, added, committed, bind, Except.bind]
    exact compacted
  refine ⟨db, built, c, noFlush, ?_, state⟩
  rw [globalSeq_committed_of_lt (by omega)] at same maxSeq
  have seq₃ : db₂.globalSeq = 1 + 10001 * c₂ := staged₃.seq
  have count₃ : (env.entries ++ [(raftMetaKey, metaJson)]).length = 10000 * c₂ + batch₃.opCount :=
    staged₃.count
  rw [length_append, length_singleton] at count₃
  omega

namespace Engine

theorem find_of_uncached {e : Engine} (ordered : e.roots.Ordered) (values : e.roots.ValuesIn e.heap)
    (empty : e.blockCache = fun _ => none) (key : Bytes) (seq : ℕ) (now : UInt64) :
    (e.find key seq now).1 = .ok (e.stateAt seq now key) := by
  rw [Engine.find, stateAt]
  cases found : e.roots.find key seq with
  | none => rfl
  | some v =>
    simp only [Option.bind_some]
    split_ifs with dead
    · rfl
    · have member := (ordered.readable.find_eq_some_iff.mp found).mem
      obtain ⟨value, read⟩ := values v member (not_isTombstone_of_not_dead dead)
      simp only [readFromHeap, empty, read]
      rfl

/-- Installing loadable entries succeeds and shows them, as long as the counter is not below their
numbers.
-/
theorem exists_installSnapshot (e : Engine) {env : SnapshotEnvelope} {metaJson : Bytes}
    (version : env.version = snapshotVersion)
    (loadable : Loadable (env.entries ++ [(raftMetaKey, metaJson)]))
    (maxSeq : env.maxSeq + 2 < 2 ^ 64)
    (covered : env.entries.length + env.entries.length / maxBatchSize + 1 ≤
      max e.globalSeq (env.maxSeq + 1)) (token : ℕ) :
    ∃ e', e.installSnapshot env metaJson token = .ok e' ∧ ∀ key now,
      (e'.find key e'.globalSeq now).1 =
        .ok (KvState.nothing.setAll (env.entries ++ [(raftMetaKey, metaJson)]) key) := by
  obtain ⟨db, built, c, noFlush, room, state⟩ := exists_buildSnapshotStore loadable token
  obtain ⟨-, -, numbered⟩ := buildSnapshotStore_eq_ok (loadable.sized maxSeq) built
  have manifest : loadManifest db.close = .ok db.roots.manifest := by
    refine loadManifest_eq_ok (congrArg some c.backs.manifest) ?_
    rw [c.listed.version]
  have recovery : recoverStorageRoots db.close = .ok (recoverFrom db.close db.roots.manifest) := by
    rw [recoverStorageRoots, manifest]
    rfl
  have reopened : db.reopen = .ok (ofRecovered (recoverFrom db.close db.roots.manifest)) := by
    rw [reopen, openDb, recovery]
    rfl
  obtain ⟨c', roots⟩ := c.reopen noFlush room reopened
  have installed : e.installSnapshot env metaJson token =
      .ok (e.install (recoverFrom db.close db.roots.manifest) env.maxSeq) := by
    rw [installSnapshot, if_neg (not_not.mpr version), built]
    show (recoverStorageRoots db.close >>= _) = _
    rw [recovery]
    rfl
  refine ⟨_, installed, fun key now => ?_⟩
  have counter := e.globalSeq_install (recoverFrom db.close db.roots.manifest)
    (show env.maxSeq + 1 < 2 ^ 64 by omega)
  rw [find_of_uncached (e := e.install (recoverFrom db.close db.roots.manifest) env.maxSeq)
    c'.ordered c'.values rfl, counter]
  congr 1
  show (ofRecovered (recoverFrom db.close db.roots.manifest)).stateAt _ now key = _
  rw [c.stateAt_reopen c' roots reopened, ← state now]
  refine congrFun (c.exact.stateAt_of_le now (fun v hv => ?_) fun v hv => ?_) key
  · exact (c.exact.below v hv).le
  · exact (numbered v hv).trans covered

end Engine

theorem length_of_stageEntries {db db' : Engine} {batch batch' : WriteBatch}
    {entries : List (Bytes × Bytes)} (done : stageEntries db batch entries = .ok (db', batch')) :
    ∀ entry ∈ entries, entry.2.length ≤ maxValueSize := by
  induction entries generalizing db batch with
  | nil => exact fun entry member => nomatch member
  | cons entry entries ih =>
    obtain ⟨⟨db₁, batch₁⟩, -, rest⟩ := Except.bind_eq_ok done
    obtain ⟨batch₂, added, rest⟩ := Except.bind_eq_ok rest
    exact forall_mem_cons.mpr ⟨WriteBatch.length_of_set added, ih rest⟩

theorem length_of_installSnapshot {e e' : Engine} {token : ℕ}
    (done : e.installSnapshot env metaJson token = .ok e') :
    ∀ entry ∈ env.entries, entry.2.length ≤ maxValueSize := by
  rw [Engine.installSnapshot] at done
  split_ifs at done
  obtain ⟨db, built, -⟩ := Except.bind_eq_ok done
  obtain ⟨db₀, -, rest⟩ := Except.bind_eq_ok built
  obtain ⟨⟨db₁, batch₁⟩, staged, -⟩ := Except.bind_eq_ok rest
  exact length_of_stageEntries staged

end

end OmniKV
