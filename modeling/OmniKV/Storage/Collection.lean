import OmniKV.Storage.Serving

/-!
# What garbage collection keeps readable

Garbage collection copies the values that are still needed to a new heap and writes a new base
table. The memtables keep their pointers into the old heap, so readers see the same afterwards when
the memtables are empty.
-/

namespace OmniKV

open Versioned StorageRoots
open Relation (ReflTransGen)

section

variable [External]

namespace Engine

/-- The current sequence number, or one at or above a registered snapshot or a pin. -/
def Served (e : Engine) (s : ℕ) : Prop :=
  s = e.globalSeq ∨ (∃ seq, 0 < e.registered seq ∧ seq ≤ s) ∨
    ∃ replicaId seq, (replicaId, seq) ∈ e.replicaRetentionFloors ∧ seq ≤ s

variable {e e' : Engine} {now : UInt64} {s : ℕ}

omit [External] in
theorem exists_floor_of_served (served : e.Served s) :
    s = e.globalSeq ∨ ∃ floor, e.compactionRetentionFloor = some floor ∧ floor ≤ s := by
  obtain current | ⟨seq, counted, le⟩ | ⟨replicaId, seq, pinned, le⟩ := served
  · exact .inl current
  · obtain ⟨floor, eq, below⟩ := exists_floor_of_registered counted
    exact .inr ⟨floor, eq, below.trans le⟩
  · obtain ⟨floor, eq, below⟩ := exists_floor_of_pinned pinned
    exact .inr ⟨floor, eq, below.trans le⟩

theorem Exact.covered_of_served (exact : e.Exact) (served : e.Served s) :
    Covered e.roots.versions e.compactionRetentionFloor s := by
  obtain current | floor := exists_floor_of_served served
  · exact .inr fun v hv => current ▸ (exact.below v hv).le
  · exact .inl floor

theorem Consistent.mem_gcMerged (c : e.Consistent) (empty : ∀ m ∈ e.roots.memtables, ∀ v, v ∉ m)
    {v : Version} : v ∈ e.gcMerged ↔ v ∈ e.roots.versions := by
  have held : ∀ t ∈ e.roots.tables, tableVersions t.data = t.versions := fun t ht =>
    (c.ordered.sound t ht).tableVersions_eq
  have base := held e.roots.baseTable (mem_tables.mpr (.inr (.inr rfl)))
  have listed : ∀ w, w ∈ tableVersions e.roots.baseMmap ++
      e.roots.sstables.flatMap (fun t => tableVersions t.data) ++
      e.roots.l1Sstables.flatMap (fun t => tableVersions t.data) ++ e.roots.memtable.versions ↔
        w ∈ e.roots.versions := by
    intro w
    have active : w ∉ e.roots.memtable.versions :=
      empty _ (mem_memtables.mpr (.inl rfl)) w
    rw [List.mem_append, or_iff_left active, mem_versions,
      or_iff_right (fun ⟨m, hm, hw⟩ => empty m hm w hw)]
    simp only [List.mem_append, List.mem_flatMap]
    constructor
    · rintro ((inBase | ⟨t, ht, hw⟩) | ⟨t, ht, hw⟩)
      · exact ⟨e.roots.baseTable, mem_tables.mpr (.inr (.inr rfl)), base ▸ inBase⟩
      · have inTables := mem_tables.mpr (.inl ht)
        exact ⟨t, inTables, held t inTables ▸ hw⟩
      · have inTables := mem_tables.mpr (.inr (.inl ht))
        exact ⟨t, inTables, held t inTables ▸ hw⟩
    · rintro ⟨t, ht, hw⟩
      have level := mem_tables.mp ht
      rw [← held t ht] at hw
      obtain l0 | l1 | rfl := level
      · exact .inl (.inr ⟨t, l0, hw⟩)
      · exact .inr ⟨t, l1, hw⟩
      · exact .inl (.inl hw)
  rw [gcMerged, Merged.mem_ofVersions, listed]
  exact c.ordered.readable.unambiguous.mono fun w hw => (listed w).mp hw

/-- What garbage collection keeps: what is needed, less the dead versions when there is no
floor. -/
theorem Consistent.mem_baseVersions (c : e.Consistent) (empty : ∀ m ∈ e.roots.memtables, ∀ v, v ∉ m)
    {v : Version} : v ∈ e.baseVersions e.gcMerged now ↔
    Needed e.roots.versions e.compactionRetentionFloor v ∧
        (v.dead now → e.compactionRetentionFloor.isSome) := by
  have merged : {w | w ∈ e.gcMerged} = e.roots.versions := Set.ext fun w => c.mem_gcMerged empty
  rw [baseVersions, List.mem_filter, Merged.mem_retained, merged]
  refine and_congr_right fun _ => ?_
  cases v.dead now <;> simp

/-- Versions that moved to a new heap show the same, if only dead ones were left out. -/
theorem Exact.stateAt_of_moved (exact : e.Exact) (exact' : e'.Exact) {kept : List Version}
    (relocated : List Version) {floor : Option ℕ} (members : ∀ v, v ∈ kept ↔
      Needed e.roots.versions floor v ∧ (v.dead now → floor.isSome))
    (moved : List.Forall₂ (MovedTo e.heap e'.heap) kept relocated)
    (versions : ∀ w, w ∈ e'.roots.versions ↔ w ∈ relocated)
    (covered : Covered e.roots.versions floor s) {t : UInt64} (later : now ≤ t) :
    e'.stateAt s t = e.stateAt s t := by
  have keptSet := Set.ext members
  have toNew : ∀ v ∈ kept, ∃ w ∈ e'.roots.versions, MovedTo e.heap e'.heap v w := by
    intro v hv
    obtain ⟨w, hw, related⟩ := exists_of_mem_left moved hv
    exact ⟨w, (versions w).mpr hw, related⟩
  have toOld : ∀ w ∈ e'.roots.versions, ∃ v ∈ kept, MovedTo e.heap e'.heap v w := fun w hw =>
    exists_of_mem_right moved ((versions w).mp hw)
  funext key
  rw [stateAt, stateAt]
  cases found' : e'.roots.find key s with
  | some w =>
    have newest' := exact'.ordered.readable.find_eq_some_iff.mp found'
    obtain ⟨v, hv, related⟩ := toOld w newest'.mem
    have newestKept : IsNewest {v | v ∈ kept} key s v :=
      newest'.of_rel (fun related => ⟨related.key.symm, related.seq.symm⟩) toNew hv related
    have newest := isNewest_of_kept covered (keptSet ▸ newestKept)
    rw [exact.ordered.readable.find_eq_some_iff.mpr newest, Option.bind_some, Option.bind_some,
      related.dead_eq]
    split_ifs with dead
    · rfl
    · rw [related.read (not_isTombstone_of_not_dead dead)]
  | none =>
    cases found : e.roots.find key s with
    | none => rfl
    | some v =>
      have newest := exact.ordered.readable.find_eq_some_iff.mp found
      by_cases dropped : v.dead now → floor.isSome
      · -- A version that was kept would be found.
        have needed : Needed e.roots.versions floor v :=
          newest.needed (covered.symm.imp_left fun top b hb _ => top b hb)
        have hv : v ∈ kept := (members v).mpr ⟨needed, dropped⟩
        have newestKept : IsNewest {v | v ∈ kept} key s v :=
          newest.anti (fun w hw => ((members w).mp hw).1.mem) hv
        obtain ⟨w, hw, related⟩ := toNew v hv
        have newest' : IsNewest e'.roots.versions key s w := by
          refine newestKept.of_rel ?_ toOld hw related
          exact fun related => ⟨related.key, related.seq⟩
        rw [exact'.ordered.readable.find_eq_some_iff.mpr newest'] at found'
        cases found'
      · exact (if_pos (Version.dead_mono later (Classical.not_imp.mp dropped).1)).symm

/-- Reads through the new heap after a collection that finds the memtables empty. -/
theorem Consistent.stateAt_runGarbageCollection (c : e.Consistent) (c' : e'.Consistent)
    {heapToken baseToken : ℕ} (empty : ∀ m ∈ e.roots.memtables, ∀ v, v ∉ m)
    (size : tableSize (e.baseVersions e.gcMerged now) < 2 ^ 64)
    (heapRoom : heapSize (e.baseVersions e.gcMerged now) < 2 ^ 64)
    (done : e.runGarbageCollection heapToken baseToken now = .ok e')
    (covered : Covered e.roots.versions e.compactionRetentionFloor s) {t : UInt64}
    (later : now ≤ t) : e'.stateAt s t = e.stateAt s t := by
  obtain ⟨freeHeap, -, payloads, copied, rfl⟩ := Engine.runGarbageCollection_eq_ok done
  refine c.exact.stateAt_of_moved c'.exact (relocate 0 (e.baseVersions e.gcMerged now))
    (fun v => c.mem_baseVersions empty) ?_ (fun w => ?_) covered later
  · rw [c.heap_collected rfl freeHeap, Engine.heap, c.listed.heapReader]
    exact movedTo_of_copied copied heapRoom
  · rw [mem_versions_collected empty, c.toWellFormed.versions_gcTable size]

/-- A safe garbage collection changes no read that is promised, at its time and later. -/
theorem reads_after_gc {e₀ : Engine} {heapToken baseToken : ℕ} (start : openDb .empty = .ok e₀)
    (run : ReflTransGen (Run.SafeStep Safe next) e₀ e)
    (safe : e.Safe (.garbageCollect heapToken baseToken now))
    (done : e.runGarbageCollection heapToken baseToken now = .ok e') {s : ℕ} (served : e.Served s)
    {t : UInt64} (later : now ≤ t) : (∀ key, (e'.find key s t).1 = (e.find key s t).1) ∧
      ∀ a b, (e'.scan a b s t).1 = (e.scan a b s t).1 := by
  have settled := settled_of_run start run
  have settled' := settled.runGarbageCollection safe.1 done
  obtain ⟨-, -, size, heapRoom⟩ := safe.1
  have same : e'.stateAt s t = e.stateAt s t :=
    settled.consistent.stateAt_runGarbageCollection settled'.consistent safe.1.unfilled size
      heapRoom done (settled.consistent.exact.covered_of_served served) later
  exact settled.serving.reads_congr settled'.serving same

end Engine

end

namespace Engine

open Reference

/-- Garbage collection moves the newest value of `k`, and the memtable still has it at its old
place: reading it fails. -/
theorem read_fails_after_gc : ∃ e₀ e e', openDb .empty = .ok e₀ ∧
    ReflTransGen (Run.Step next) e₀ e ∧
      e.runGarbageCollection 0 0 0 = .ok e' ∧ e.Served e.globalSeq ∧
      (e'.find (Bytes.ofString "k") e.globalSeq 0).1 ≠ (e.find (Bytes.ofString "k") e.globalSeq
      0).1 :=
  ⟨_, _, _, rfl, Run.step_get [.commit sampleWrite, .commit sampleOverwrite] (by decide +kernel),
    Except.eq_ok_get (by decide +kernel), .inl rfl, by decide +kernel⟩

/-- A flush before the collection empties the memtables. -/
theorem reads_after_flush_and_gc : ∃ e₀ e e', openDb .empty = .ok e₀ ∧
    ReflTransGen (Run.SafeStep Safe next) e₀ e ∧ e.runGarbageCollection 0 0 0 = .ok e' ∧
      (e.find (Bytes.ofString "k") e.globalSeq 0).1 = .ok (some (Bytes.ofString "w")) ∧
      (∀ key, (e'.find key e.globalSeq 0).1 = (e.find key e.globalSeq 0).1) ∧
      ∀ a b, (e'.scan a b e.globalSeq 0).1 = (e.scan a b e.globalSeq 0).1 := by
  have run := Run.safeStep_get Safe next (.ofRecovered (recoverFrom .empty .initial))
    [.commit sampleWrite, .commit sampleOverwrite, .beginFlush, .finishFlush 0 0]
    (by decide +kernel)
  exact ⟨_, _, _, rfl, run, Except.eq_ok_get (by decide +kernel), by decide +kernel,
    reads_after_gc rfl run (by decide +kernel) (Except.eq_ok_get (by decide +kernel)) (.inl rfl)
    (by decide)⟩

end Engine

end OmniKV
