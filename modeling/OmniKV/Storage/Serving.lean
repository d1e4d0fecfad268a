import OmniKV.Storage.View
import OmniKV.Storage.Visibility

/-!
# Exact readers over whole runs

Flushes and compactions keep the heap and the block cache and add no version. So reads stay exact
over every run in which no batch has an empty value or the key of the commit markers, as long as the
engine stays consistent.
-/

namespace OmniKV

open Versioned List StorageRoots

section

variable [External]

namespace Engine

structure Shrinks (e e' : Engine) : Prop where
  heap : e'.heap = e.heap
  heapOffset : e'.heapOffset = e.heapOffset
  blockCache : e'.blockCache = e.blockCache
  versions : ∀ v ∈ e'.roots.versions, v ∈ e.roots.versions

variable {e e' : Engine}

theorem Shrinks.refl (e : Engine) : Shrinks e e := ⟨rfl, rfl, rfl, fun _ hv => hv⟩

/-- A frozen memtable is still searched. -/
theorem versions_freeze (e : Engine) : e.freeze.roots.versions = e.roots.versions := by
  refine Set.Subset.antisymm (fun v hv => mem_versions_of_freeze hv) fun v hv => ?_
  rw [mem_versions] at hv ⊢
  refine hv.imp_left ?_
  rintro ⟨m, hm, inMem⟩
  refine ⟨m, mem_memtables.mpr (.inr ?_), inMem⟩
  obtain active | frozen := mem_memtables.mp hm
  · exact mem_append_right _ (mem_singleton.mpr active)
  · exact mem_append_left _ frozen

variable {m : Memtable} {idx token : ℕ}

theorem files_publishFrozen (done : e.publishFrozen m idx token = .ok e')
    {p : Path} (present : (e.files.files p).isSome) : e'.files.files p = e.files.files p := by
  simp only [publishFrozen] at done
  split_ifs at done with empty taken
  · cases done
    rfl
  · have other : p ≠ .l0 token := by
      rintro rfl
      exact taken present
    cases done
    exact Consistent.files_publishL0 other

theorem heapReader_publishFrozen
    (done : e.publishFrozen m idx token = .ok e') : e'.roots.heapReader = e.roots.heapReader := by
  simp only [publishFrozen] at done
  split_ifs at done <;> cases done <;> rfl

variable (c : e.Consistent)

include c

theorem Consistent.heap_of_files (reader : e'.roots.heapReader = e.roots.heapReader)
    (files : (e.files.files e.roots.heapReader).isSome →
      e'.files.files e.roots.heapReader = e.files.files e.roots.heapReader) : e'.heap = e.heap := by
  have present : (e.files.files e.roots.heapReader).isSome := by
    rw [c.heapData]
    rfl
  rw [Engine.heap, Files.read, reader, files present]
  rfl

variable (frozen : e.roots.frozenMemtables[idx]? = some m)

include frozen

theorem Consistent.shrinks_publishFrozen (size : tableSize m.versions < 2 ^ 64)
    (done : e.publishFrozen m idx token = .ok e') : Shrinks e e' := by
  have member : m ∈ e.roots.memtables :=
    mem_memtables.mpr (.inr (mem_of_getElem? frozen))
  refine ⟨c.heap_of_files (heapReader_publishFrozen done) (files_publishFrozen done), ?_, ?_,
    fun v hv => c.toWellFormed.mem_versions_of_publishFrozen member size done hv⟩
  all_goals
    simp only [Engine.publishFrozen] at done
    split_ifs at done <;> cases done <;> rfl

omit [External] c in
theorem mem_memtables_of_eraseIdx {m' : Memtable} (member : m' ∈ e.roots.memtables) :
    m' = m ∨ m' = e.roots.memtable ∨ m' ∈ e.roots.frozenMemtables.eraseIdx idx := by
  obtain same | old := mem_memtables.mp member
  · exact .inr (.inl same)
  · obtain ⟨i, here⟩ := getElem?_of_mem old
    by_cases place : i = idx
    · subst place
      exact .inl (Option.some.inj (here.symm.trans frozen))
    · exact .inr (.inr (mem_eraseIdx_iff_getElem?.mpr ⟨i, place, here⟩))

omit c in
theorem mem_versions_publishL0 {t : TableHandle} {manifest : Manifest}
    (same : t.versions = m.versions)
    (base : manifest.basePath = e.roots.manifest.basePath) {v : Version}
    (hv : v ∈ e.roots.versions) :
    v ∈ ((((e.writeTable t).saveManifest manifest).pushL0 t manifest).removeFrozenMemtable
      idx).roots.versions := by
  have tables : ((((e.writeTable t).saveManifest manifest).pushL0 t manifest).removeFrozenMemtable
      idx).roots.tables = t :: e.roots.tables := by
    show (e.roots.sstables ++ [t]).reverse ++ e.roots.l1Sstables.reverse ++
      [⟨e.roots.baseMmap, e.roots.baseBloom, manifest.basePath⟩] = _
    simp [StorageRoots.tables, StorageRoots.baseTable, base]
  rw [mem_versions, tables]
  obtain ⟨m', hm, inMem⟩ | ⟨u, hu, inTable⟩ := mem_versions.mp hv
  · obtain rfl | kept := mem_memtables_of_eraseIdx frozen hm
    · exact .inr ⟨t, mem_cons_self, same ▸ Memtable.mem_versions.mpr inMem⟩
    · exact .inl ⟨m', mem_memtables.mpr kept, inMem⟩
  · exact .inr ⟨u, mem_cons_of_mem _ hu, inTable⟩

omit frozen

omit c in
/-- The rest of a flush keeps all versions. -/
theorem WellFormed.versions_publishFrozen (wf : e.WellFormed)
    (frozen : e.roots.frozenMemtables[idx]? = some m) (size : tableSize m.versions < 2 ^ 64)
    (done : e.publishFrozen m idx token = .ok e') : e'.roots.versions = e.roots.versions := by
  have member : m ∈ e.roots.memtables :=
    mem_memtables.mpr (.inr (mem_of_getElem? frozen))
  have writable := wf.writable_memtable member size
  refine Set.Subset.antisymm (fun v hv => wf.mem_versions_of_publishFrozen member size done hv)
    fun v hv => ?_
  simp only [Engine.publishFrozen] at done
  split_ifs at done with empty taken
  · cases done
    refine mem_versions.mpr ((mem_versions.mp hv).imp_left ?_)
    rintro ⟨m', hm, inMem⟩
    obtain rfl | kept := mem_memtables_of_eraseIdx frozen hm
    · rw [← Memtable.mem_versions, map_eq_nil_iff.mp empty] at inMem
      cases inMem
    · exact ⟨m', mem_memtables.mpr kept, inMem⟩
  · have base : (e.flushManifest token).basePath = e.roots.manifest.basePath := rfl
    cases done
    exact mem_versions_publishL0 frozen (writable.versions_newTable _) base hv

/-- A flush shows readers the same. -/
theorem Consistent.stateAt_compactSstables (noFlush : e.roots.frozenMemtables = [])
    (aligned : Aligned (flushRecords e.roots.memtable))
    (size : tableSize e.roots.memtable.versions < 2 ^ 64)
    (done : e.compactSstables token = .ok e') :
    e'.Consistent ∧ ∀ seq now, e'.stateAt seq now = e.stateAt seq now := by
  have frozen : e.freeze.roots.frozenMemtables[e.roots.frozenMemtables.length]? =
      some e.roots.memtable := by
    show (e.roots.frozenMemtables ++ [e.roots.memtable])[e.roots.frozenMemtables.length]? = _
    simp
  have c₁ := c.freeze noFlush
  have c₂ := c₁.publishFrozen frozen aligned size done
  refine ⟨c₂, fun seq now => ?_⟩
  refine c.exact.stateAt_of_versions c₂.exact ?_ ?_ seq now
  · rw [c₁.toWellFormed.versions_publishFrozen frozen size done, versions_freeze]
  · rw [(c₁.shrinks_publishFrozen frozen size done).heap]
    rfl

theorem Consistent.heap_reopen (done : e.reopen = .ok e') : e'.heap = e.heap := by
  have stores := c.backs.stores c.listed e.survives_close
  rw [reopen_eq_ok (by rw [c.backs.manifest, c.listed.version]), c.backs.manifest] at done
  rw [← Except.ok.inj done, stores.heap_ofRecovered, ← c.listed.heapReader]
  rfl

/-- Restarting while no flush is under way shows readers the same. -/
theorem Consistent.stateAt_reopen (c' : e'.Consistent) (roots : e'.roots = e.roots)
    (done : e.reopen = .ok e') (seq : ℕ) (now : UInt64) : e'.stateAt seq now = e.stateAt seq now :=
  c.exact.stateAt_of_versions c'.exact (by rw [roots]) (c.heap_reopen done) seq now

theorem Consistent.shrinks_publish {t : TableHandle} {r : StorageRoots}
    {removed : List Path} (free : ¬(e.files.files t.path).isSome)
    (kept : e.roots.heapReader ∉ removed) (reader : r.heapReader = e.roots.heapReader)
    (versions : ∀ v ∈ r.versions, v ∈ e.roots.versions) : Shrinks e (e.publish t r removed) :=
  ⟨c.heap_of_files reader fun _ => files_publish (c.heapReader_ne free) kept, rfl, rfl, versions⟩

theorem Consistent.shrinks_compactL0ToL1
    (size : tableSize (e.l0Merged.retained e.compactionRetentionFloor) < 2 ^ 64)
    (done : e.compactL0ToL1 token = .ok e') : Shrinks e e' := by
  have writable := c.toWellFormed.writable_l0 size
  have versions : ∀ v ∈ e'.roots.versions, v ∈ e.roots.versions := by
    intro v hv
    rw [mem_versions_levels]
    obtain ⟨-, rfl⟩ | ⟨-, roots⟩ | roots := roots_compactL0ToL1 done
    · exact mem_versions_levels.mp hv
    · rw [roots, mem_versions_rootsWithoutL0] at hv
      exact hv.imp_right .inr
    · rw [roots, mem_versions_rootsWithL1] at hv
      obtain kept | new := hv
      · exact kept.imp_right .inr
      · rw [l1Output, writable.versions_newTable] at new
        exact .inr (.inl (c.toWellFormed.mem_retained_l0Merged new))
  simp only [Engine.compactL0ToL1] at done
  split_ifs at done with none empty taken
  · exact Except.ok.inj done ▸ .refl e
  · cases done
    exact ⟨c.heap_of_files rfl fun _ => if_neg c.heapReader_not_mem_l0Paths, rfl, rfl, versions⟩
  · cases done
    exact c.shrinks_publish taken c.heapReader_not_mem_l0Paths rfl versions

theorem Consistent.shrinks_compactL1ToL2 {now : UInt64}
    (size : tableSize (e.baseVersions e.l1Merged now) < 2 ^ 64)
    (done : e.compactL1ToL2 token now = .ok e') : Shrinks e e' := by
  have writable := c.toWellFormed.writable_l1 size
  have versions : ∀ v ∈ e'.roots.versions, v ∈ e.roots.versions := by
    intro v hv
    rw [mem_versions_levels]
    obtain ⟨-, rfl⟩ | ⟨-, roots⟩ := roots_compactL1ToL2 done
    · exact mem_versions_levels.mp hv
    · rw [roots, mem_versions_rootsWithBase] at hv
      obtain kept | new := hv
      · exact kept.imp_right .inl
      · rw [baseOutput, writable.versions_newTable] at new
        refine .inr (.inr ?_)
        obtain ⟨t, ht, inTable⟩ | base := c.toWellFormed.mem_baseVersions_l1Merged new
        · exact ⟨t, mem_cons_of_mem _ ht, inTable⟩
        · exact ⟨_, mem_cons_self, base⟩
  simp only [Engine.compactL1ToL2] at done
  split_ifs at done with none taken
  · exact Except.ok.inj done ▸ .refl e
  · cases done
    have kept := c.toWellFormed.heapPath_not_mem_basePaths
    rw [← c.listed.heapReader] at kept
    have reader : ∀ t, (e.rootsWithBase t).heapReader = e.roots.heapReader := fun _ => rfl
    exact c.shrinks_publish taken kept (reader _) versions

end Engine

omit [External] in
theorem offset_relocate {written : ℕ} {vs : List Version}
    (filled : ∀ v ∈ vs, ¬v.IsTombstone → 0 < storedLength v.pointer.length)
    (room : written + heapSize vs < 2 ^ 64) :
    (∀ w ∈ relocate written vs, ¬w.IsTombstone → written ≤ w.pointer.offset) ∧
      ∀ w ∈ relocate written vs, ∀ w' ∈ relocate written vs, ¬w.IsTombstone → ¬w'.IsTombstone →
        w.pointer.offset = w'.pointer.offset → w = w' := by
  induction vs generalizing written with
  | nil => exact ⟨nofun, nofun⟩
  | cons v vs ih =>
    obtain ⟨first, rest⟩ := forall_mem_cons.mp filled
    rw [heapSize, map_cons, sum_cons, ← heapSize] at room
    rw [relocate]
    split_ifs with tombstone
    · obtain ⟨above, own⟩ := ih rest (show written + heapSize vs < 2 ^ 64 by omega)
      have gone : (v.moveTo 0).IsTombstone := tombstone
      refine ⟨fun w hw live => ?_, fun w hw w' hw' live live' same => ?_⟩
      · exact above w ((mem_cons.mp hw).resolve_left fun eq => live (eq ▸ gone)) live
      · exact own w ((mem_cons.mp hw).resolve_left fun eq => live (eq ▸ gone)) w'
          ((mem_cons.mp hw').resolve_left fun eq => live' (eq ▸ gone)) live live' same
    · have takes := first tombstone
      rw [wrap64_of_lt (by omega)]
      obtain ⟨above, own⟩ := ih rest (show written + storedLength v.pointer.length +
        heapSize vs < 2 ^ 64 by omega)
      have here : (v.moveTo written).pointer.offset = written := rfl
      refine ⟨fun w hw live => ?_, fun w hw w' hw' live live' same => ?_⟩
      · obtain rfl | later := mem_cons.mp hw
        · exact here.ge
        · have := above w later live
          omega
      · obtain eq | later := mem_cons.mp hw <;> obtain eq' | later' := mem_cons.mp hw'
        · exact eq.trans eq'.symm
        · have := above w' later' live'
          rw [eq] at same
          omega
        · have := above w later live
          rw [eq'] at same
          omega
        · exact own w later w' later' live live' same

namespace Engine

variable {e e' : Engine}

omit [External] in
theorem tables_gcRoots (e : Engine) (heapToken : ℕ) (t : TableHandle) :
    (e.gcRoots heapToken t).tables = [t] := rfl

theorem mem_versions_collected {heapToken : ℕ} {t : TableHandle} {heap : Bytes}
    (empty : ∀ m ∈ e.roots.memtables, ∀ v, v ∉ m) {w : Version} :
    w ∈ (e.collected heapToken t heap).roots.versions ↔ w ∈ t.versions := by
  have none : ¬∃ m ∈ e.roots.memtables, w ∈ m := fun ⟨m, hm, inMem⟩ => empty m hm w inMem
  show w ∈ (e.gcRoots heapToken t).versions ↔ _
  rw [mem_versions, tables_gcRoots]
  show (∃ m ∈ e.roots.memtables, w ∈ m) ∨ _ ↔ _
  rw [or_iff_right none]
  simp

theorem WellFormed.versions_gcTable (wf : e.WellFormed) {baseToken : ℕ} {now : UInt64}
    (size : tableSize (e.baseVersions e.gcMerged now) < 2 ^ 64) :
    (e.gcTable baseToken ((relocate 0 (e.baseVersions e.gcMerged now)).map
      Version.record)).versions = relocate 0 (e.baseVersions e.gcMerged now) :=
  (wf.writable_relocate size).versions_eq _ _

/-- What garbage collection keeps was stored before. -/
theorem WellFormed.mem_versions_of_baseVersions (wf : e.WellFormed) {now : UInt64} {v : Version}
    (kept : v ∈ e.baseVersions e.gcMerged now) : v ∈ e.roots.versions := by
  rw [mem_versions]
  obtain inTable | inMem := wf.mem_baseVersions_gcMerged kept
  · exact .inr inTable
  · exact .inl ⟨_, mem_memtables.mpr (.inl rfl), inMem⟩

namespace Serving

theorem of_shrinks (serving : e.Serving) (exact : e'.Exact) (shrinks : Shrinks e e') :
    e'.Serving := by
  refine ⟨exact.ordered, exact.below, exact.reader, exact.file, exact.heapEnd,
    fun v hv live => ⟨?_, exact.values v hv live⟩, fun v hv w hw => ?_, fun offset bytes hit => ?_⟩
  · exact (serving.values v (shrinks.versions v hv) live).1
  · exact serving.apart v (shrinks.versions v hv) w (shrinks.versions w hw)
  · rw [shrinks.blockCache] at hit
    obtain ⟨bound, right⟩ := serving.cached offset bytes hit
    refine ⟨shrinks.heapOffset ▸ bound, fun v hv live here => ?_⟩
    rw [shrinks.heap]
    exact right v (shrinks.versions v hv) live here

/-- An engine with an empty cache whose versions have their values at places of their own. -/
theorem of_uncached (exact : e.Exact) (empty : e.blockCache = fun _ => none)
    (filled : ∀ v ∈ e.roots.versions, ¬v.IsTombstone → 0 < storedLength v.pointer.length)
    (apart : ∀ v ∈ e.roots.versions, ∀ w ∈ e.roots.versions, ¬v.IsTombstone → ¬w.IsTombstone →
      v.pointer.offset = w.pointer.offset → v.pointer = w.pointer) : e.Serving := by
  refine ⟨exact.ordered, exact.below, exact.reader, exact.file, exact.heapEnd,
    fun v hv live => ⟨filled v hv live, exact.values v hv live⟩, apart, fun offset bytes hit => ?_⟩
  rw [empty] at hit
  cases hit

theorem runGarbageCollection (serving : e.Serving) (c : e.Consistent) (c' : e'.Consistent)
    {heapToken baseToken : ℕ} {now : UInt64} (empty : ∀ m ∈ e.roots.memtables, ∀ v, v ∉ m)
    (size : tableSize (e.baseVersions e.gcMerged now) < 2 ^ 64)
    (heapRoom : heapSize (e.baseVersions e.gcMerged now) < 2 ^ 64)
    (done : e.runGarbageCollection heapToken baseToken now = .ok e') : e'.Serving := by
  obtain ⟨-, -, payloads, -, rfl⟩ := Engine.runGarbageCollection_eq_ok done
  have filled : ∀ v ∈ e.baseVersions e.gcMerged now, ¬v.IsTombstone →
      0 < storedLength v.pointer.length := fun v kept live =>
    (serving.values v (c.toWellFormed.mem_versions_of_baseVersions kept) live).1
  obtain ⟨-, own⟩ := offset_relocate filled (show 0 + heapSize (e.baseVersions e.gcMerged now) <
    2 ^ 64 by omega)
  refine .of_uncached c'.exact rfl (fun w hw live => ?_) fun w hw w' hw' live live' same => ?_
  · rw [mem_versions_collected empty, c.toWellFormed.versions_gcTable size] at hw
    obtain ⟨v, kept, moved⟩ := exists_of_mem_right (moved_relocate (Nat.two_pow_pos 64) _) hw
    rw [moved.length]
    exact filled v kept (mt moved.isTombstone_iff.mpr live)
  · rw [mem_versions_collected empty, c.toWellFormed.versions_gcTable size] at hw hw'
    rw [own w hw w' hw' live live' same]

end Serving

/-- Consistent, with exact reads, and no version has the key of the commit markers. -/
structure Settled (e : Engine) : Prop where
  consistent : e.Consistent
  serving : e.Serving
  plain : ∀ v ∈ e.roots.versions, v.key ≠ commitMarkerKey

/-- Besides what keeps the engine consistent, no batch has an empty value. -/
def Safe (e : Engine) (op : EngineOp) : Prop :=
  e.Careful op ∧ match op with
    | .commit tx => tx.Plain
    | _ => True

instance (tx : WriteBatch) : Decidable tx.Plain := inferInstanceAs (Decidable (_ ∧ _))

instance (e : Engine) (op : EngineOp) : Decidable (e.Safe op) := by
  rcases op <;> simp only [Safe] <;> infer_instance

namespace Settled

variable (settled : e.Settled)

include settled

theorem of_shrinks (c : e'.Consistent) (shrinks : Shrinks e e') : e'.Settled :=
  ⟨c, settled.serving.of_shrinks c.exact shrinks, fun v hv =>
    settled.plain v (shrinks.versions v hv)⟩

theorem of_sameData (same : SameData e e') (serving : e'.Serving) : e'.Settled :=
  ⟨settled.consistent.of_sameData same, serving, same.roots ▸ settled.plain⟩

/-- The cache is the same, or has lost entries. -/
theorem of_evicted (same : SameData e e')
    (fewer : ∀ offset bytes, e'.blockCache offset = some bytes → e.blockCache offset = some bytes) :
    e'.Settled :=
  settled.of_sameData same (settled.serving.of_sameData same fun offset bytes hit =>
    settled.serving.cached offset bytes (fewer offset bytes hit))

theorem committed {tx : WriteBatch} (plain : tx.Plain)
    (careful : e.Careful (.commit tx)) : (e.committed tx).Settled := by
  have fits : e.Fits tx := ⟨by have := careful.2.1; omega, careful.2.2⟩
  refine ⟨settled.consistent.committed careful.1 careful.2.1 careful.2.2,
    settled.serving.committed plain.2 fits, fun v hv => ?_⟩
  obtain old | ⟨r, hr, rfl⟩ := mem_versions_committed hv
  · exact settled.plain v old
  · exact of_decide_eq_true (mem_filter.mp hr).2

theorem runGarbageCollection {heapToken baseToken : ℕ} {now : UInt64}
    (careful : e.Careful (.garbageCollect heapToken baseToken now))
    (done : e.runGarbageCollection heapToken baseToken now = .ok e') : e'.Settled := by
  have empty := careful.unfilled
  obtain ⟨-, aligned, size, heapRoom⟩ := careful
  have c := settled.consistent.runGarbageCollection empty aligned size heapRoom done
  refine ⟨c, settled.serving.runGarbageCollection settled.consistent c empty size heapRoom done,
    fun w hw => ?_⟩
  obtain ⟨-, -, payloads, -, rfl⟩ := Engine.runGarbageCollection_eq_ok done
  rw [mem_versions_collected empty, settled.consistent.toWellFormed.versions_gcTable size] at hw
  obtain ⟨v, kept, moved⟩ := exists_of_mem_right (moved_relocate (Nat.two_pow_pos 64) _) hw
  rw [moved.key]
  exact settled.plain v (settled.consistent.toWellFormed.mem_versions_of_baseVersions kept)

theorem reopen (careful : e.Careful .reopen) (done : e.reopen = .ok e') : e'.Settled := by
  obtain ⟨c, roots⟩ := settled.consistent.reopen careful.1 careful.2 done
  have empty : e'.blockCache = fun _ => none := by
    have known : e.files.manifest.formatVersion ≤ manifestFormatVersion := by
      rw [settled.consistent.backs.manifest, settled.consistent.listed.version]
    rw [reopen_eq_ok known] at done
    cases done
    rfl
  refine ⟨c, .of_uncached c.exact empty ?_ ?_, roots ▸ settled.plain⟩
  · rw [roots]
    exact fun v hv live => (settled.serving.values v hv live).1
  · rw [roots]
    exact settled.serving.apart

theorem next {op : EngineOp} (safe : e.Safe op) (step : e.next op = some e') : e'.Settled := by
  obtain ⟨careful, plain⟩ := safe
  have c := settled.consistent.next careful step
  cases op with
  | commit tx =>
    obtain ⟨⟨e₁, seq⟩, done, rfl⟩ := Option.map_eq_some_iff.mp step
    obtain ⟨-, rfl, -⟩ := commitBatchLocal_eq_ok (eq_ok_of_toOption done)
    exact settled.committed plain careful
  | beginFlush => exact settled.of_shrinks c (Option.some.inj step ▸ ⟨rfl, rfl, rfl, fun _ =>
    mem_versions_of_freeze⟩)
  | finishFlush idx token =>
    obtain ⟨m, frozen, done⟩ := Option.bind_eq_some_iff.mp step
    exact settled.of_shrinks c (settled.consistent.shrinks_publishFrozen frozen
      (careful m frozen).2 (eq_ok_of_toOption done))
  | compactL0ToL1 token =>
    exact settled.of_shrinks c (settled.consistent.shrinks_compactL0ToL1 careful.2
      (eq_ok_of_toOption step))
  | compactL1ToL2 token now =>
    exact settled.of_shrinks c (settled.consistent.shrinks_compactL1ToL2 careful.2
      (eq_ok_of_toOption step))
  | garbageCollect heapToken baseToken now =>
    exact settled.runGarbageCollection careful (eq_ok_of_toOption step)
  | reopen => exact settled.reopen careful (eq_ok_of_toOption step)
  | snapshot | release replicaId =>
    cases step
    exact settled.of_evicted ⟨rfl, rfl, rfl, rfl, rfl⟩ fun _ _ hit => hit
  | unregisterSnapshot seq =>
    cases step
    refine settled.of_evicted (sameData_unregisterSnapshot e seq) fun offset bytes hit => ?_
    rw [unregisterSnapshot] at hit
    split at hit
    · exact hit
    · split_ifs at hit <;> exact hit
  | pin replicaId seq =>
    have done := eq_ok_of_toOption step
    refine settled.of_evicted (sameData_pinReplicaRetention done) fun offset bytes hit => ?_
    rw [pinReplicaRetention] at done
    split_ifs at done
    rw [← Except.ok.inj done] at hit
    exact hit
  | find key seq now =>
    cases step
    exact settled.of_sameData (sameData_find e key seq now) (settled.serving.find key seq now).2
  | scan startKey endKey seq now =>
    cases step
    exact settled.of_sameData (sameData_scanLoop now _ e) (settled.serving.scan startKey endKey seq
      now).1
  | evict offset =>
    cases step
    refine settled.of_evicted ⟨rfl, rfl, rfl, rfl, rfl⟩ fun other bytes hit => ?_
    simp only [Function.update_apply] at hit
    split_ifs at hit
    exact hit

end Settled

theorem settled_of_openDb_empty (opened : openDb .empty = .ok e) : e.Settled :=
  ⟨consistent_of_openDb_empty opened, serving_of_openDb_empty opened,
    fun v hv => absurd hv (versions_of_openDb_empty opened v)⟩

/-- Reads are exact in every state of a safe run from a new database. -/
theorem settled_of_run {e₀ e : Engine} (start : openDb .empty = .ok e₀)
    (run : Relation.ReflTransGen (Run.SafeStep Safe next) e₀ e) : e.Settled :=
  Run.invariant run (settled_of_openDb_empty start) fun settled safe step => settled.next safe step

end Engine

end

end OmniKV
