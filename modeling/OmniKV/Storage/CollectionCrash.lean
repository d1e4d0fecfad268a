import OmniKV.Storage.Crash

/-!
# Crashes during garbage collection

Garbage collection writes a new heap and a new base table, renames the manifest and then
truncates the log. The records of the log have offsets in the old heap, so a crash after the
rename must not find any. Up to the rename nothing of the old directory is touched.
-/

namespace OmniKV

open List Files
open Relation (ReflTransGen)

section

variable [External]

/-- The files after `n` steps of garbage collection. -/
structure Engine.Collecting (e : Engine) (heapToken : ℕ) (t : TableHandle) (heap : Bytes)
    (f : Files) (n : ℕ) : Prop where
  files : n ≤ 8 → ∀ p, p ≠ .compactedHeap heapToken → p ≠ t.path → f.files p = e.files.files p
  blooms : n ≤ 8 → ∀ p ≠ t.path, f.blooms p = e.files.blooms p
  log : n ≤ 7 → f.wal = e.files.wal
  rotated : 8 ≤ n → f.wal = e.files.wal.rotateSegment
  unpublished : n ≤ 5 → f.manifest = e.files.manifest
  undurable : n ≤ 6 → f.durableManifest = e.files.durableManifest
  table : 6 ≤ n → f.Keeps t
  heap : 6 ≤ n → f.files (.compactedHeap heapToken) = some ⟨heap, heap⟩
  published : 6 ≤ n →
    f.manifest = { (e.gcRoots heapToken t).manifest with formatVersion := manifestFormatVersion }
  durable : 7 ≤ n →
    f.durableManifest = { (e.gcRoots heapToken t).manifest with formatVersion :=
    manifestFormatVersion }

namespace Engine

variable {e : Engine} {heapToken n : ℕ} {t : TableHandle} {heap : Bytes} {f : Files} {d : Disk}

section

omit [External]

attribute [local simp] gcSteps create sync saveBloom renameManifest syncDir rotateWal remove

theorem collecting_runSteps (e : Engine) (heap : Bytes) (kind : t.path.kind = .base)
    (kept : t.path ∉ e.gcOldPaths) (keptHeap : Path.compactedHeap heapToken ∉ e.gcOldPaths)
    (n : ℕ) :
    e.Collecting heapToken t heap (e.files.runSteps (e.gcSteps heapToken t heap) n) n := by
  obtain ⟨keeps, heapFile⟩ := @WellFormed.keeps_gc e t heapToken e.files heap kind
  constructor
  · exact fun early p notHeap notTable =>
      runSteps_of_le (fun f => f.files p) early (by simp [notHeap, notTable])
  · exact fun early p notTable => runSteps_of_le (fun f => f.blooms p) early (by simp [notTable])
  · exact fun early => runSteps_of_le wal early (by simp)
  · exact fun late => runSteps_of_ge wal late (by simp)
  · exact fun early => runSteps_of_le manifest early (by simp)
  · exact fun early => runSteps_of_le durableManifest early (by simp)
  · intro late
    constructor
    · exact (runSteps_of_ge (fun f => f.files t.path) late (by simp [kept])).trans keeps.file
    · exact (runSteps_of_ge (fun f => f.blooms t.path) late (by simp [kept])).trans keeps.bloom
  · intro late
    exact (runSteps_of_ge
      (fun f => f.files (.compactedHeap heapToken)) late (by simp [keptHeap])).trans heapFile
  · exact fun late => runSteps_of_ge manifest late (by simp)
  · exact fun late => runSteps_of_ge durableManifest late (by simp)

end

/-- As long as the old manifest may be the durable one, what it names is untouched. -/
theorem Consistent.exists_openDb_uncollected (c : e.Consistent)
    (idle : e.roots.frozenMemtables = [])
    (logged : e.files.wal.synced = e.files.wal.data)
    (freeHeap : ¬(e.files.files (.compactedHeap heapToken)).isSome)
    (freeBase : ¬(e.files.files t.path).isSome) (collecting : e.Collecting heapToken t heap f n)
    (early : n ≤ 7) (survives : f.Survives d) (manifest : d.manifest = some e.roots.manifest) :
    ∃ e', openDb d = .ok e' ∧ ∀ now, e'.current now = e.current now := by
  refine c.exists_openDb_logged (fun u hu => ?_) ?_ survives manifest idle ?_
  · have old := c.backs.keeps u hu
    have other := old.path_ne freeBase
    refine ⟨?_, (collecting.blooms (by omega) _ other).trans old.bloom⟩
    exact (collecting.files (by omega) _ (old.path_ne freeHeap) other).trans old.file
  · exact collecting.files (by omega) _ (c.heapReader_ne freeHeap) (c.heapReader_ne freeBase)
  · have left := survives.wal
    rw [collecting.log early] at left
    exact left.eq_data logged

omit [External] in
/-- What a crash leaves of the log. -/
theorem Collecting.wal_cases
    (collecting : e.Collecting heapToken t heap f n)
    (logged : e.files.wal.synced = e.files.wal.data)
    (survives : f.Survives d) : d.wal = [] ∨ d.wal = e.files.wal.data := by
  have left := survives.wal
  by_cases truncated : 8 ≤ n
  · rw [collecting.rotated truncated] at left
    exact logged ▸ left.of_rotated
  · rw [collecting.log (by omega)] at left
    exact .inr (left.eq_data logged)

/-- A log whose records are all gone from the memtable has none. -/
theorem Consistent.insertAll_replay (c : e.Consistent) (empty : e.roots.memtable = .empty)
    {wal : Bytes}
    (log : wal = [] ∨ wal = e.files.wal.data) : Memtable.empty.insertAll (replay wal) = .empty := by
  obtain none | full := log
  · rw [none]
    rfl
  · rw [full, ← c.replayed, empty]

/-- With the new manifest and a log without records, the collected engine comes back. -/
theorem Consistent.exists_openDb_collected {e' : Engine} (c : e.Consistent) (c' : e'.Consistent)
    (idle : e.roots.frozenMemtables = []) (logged : e.files.wal.synced = e.files.wal.data)
    (empty : e.roots.memtable = .empty) (roots : e'.roots = e.gcRoots heapToken t)
    (heapData : e'.heap = heap)
    (collecting : e.Collecting heapToken t heap f n) (late : 6 ≤ n) (survives : f.Survives d)
    (manifest : d.manifest = some e'.roots.manifest) :
    ∃ e'', openDb d = .ok e'' ∧ ∀ now, e''.current now = e'.current now := by
  have log := collecting.wal_cases logged survives
  have same : e'.roots.reloaded d.wal = e'.roots := by
    rw [StorageRoots.reloaded, c.insertAll_replay empty log, ← idle, ← empty, roots]
    rfl
  have readable := c'.ordered.readable
  refine c'.exists_openDb (fun u hu => ?_) ?_ survives manifest (same.symm ▸ readable) readable
    (by rw [same])
    rfl (fun v hv => (c'.exact.below v hv).le) fun x hx => ?_
  · rw [roots] at hu
    obtain rfl := WellFormed.mem_tables_gcRoots hu
    exact collecting.table late
  · rw [c'.heapData, heapData, roots]
    exact collecting.heap late
  · obtain none | full := log
    · rw [none] at hx
      cases hx
    · rw [full] at hx
      exact c.toWellFormed.seq_of_mem_replay hx

/-- The old manifest up to the rename, and the new one once the directory is fsynced. -/
theorem Collecting.manifest_cases
    (collecting : e.Collecting heapToken t heap f n) (wf : e.WellFormed) (survives : f.Survives d) :
    (n ≤ 6 ∧ d.manifest = some e.roots.manifest) ∨
      (6 ≤ n ∧ d.manifest = some (e.gcRoots heapToken t).manifest) := by
  have saved : { (e.gcRoots heapToken t).manifest with formatVersion := manifestFormatVersion } =
      (e.gcRoots heapToken t).manifest := by
    rw [← wf.listed.version]
    rfl
  refine (survives.manifest_cases
    (fun early => (collecting.unpublished (Nat.le_of_lt_succ early)).trans wf.backs.manifest)
    (fun early => (collecting.undurable (Nat.le_of_lt_succ early)).trans wf.backs.durable)
    (fun late => (collecting.published late).trans saved)
    fun late => (collecting.durable late).trans saved).imp_left ?_
  exact And.imp_left Nat.le_of_lt_succ

/-- Up to the rename of the manifest, or when the memtables are empty, reopening after a crash shows
what it would have shown before the collection. -/
theorem gc_recovers {e₀ e₁ : Engine} {heapToken baseToken n : ℕ} {now : UInt64}
    {records : List OmniRecord} {heap : Bytes} (start : openDb .empty = .ok e₀)
    (run : ReflTransGen (Run.SafeStep Careful next) e₀ e) (idle : e.roots.frozenMemtables = [])
    (logged : e.files.wal.synced = e.files.wal.data) (reopened : e.reopen = .ok e₁)
    (freeHeap : ¬(e.files.files (.compactedHeap heapToken)).isSome)
    (freeBase : ¬(e.files.files (.compactedBase baseToken)).isSome)
    (output : e.gcOutput now = .ok (records, heap))
    (condition : n ≤ 5 ∨ e.Careful (.garbageCollect heapToken baseToken now)) :
    (e.files.runSteps (e.gcSteps heapToken (e.gcTable baseToken records) heap) n).Recovers
      e₁.current now ∧
      ∀ d e', (e.files.runSteps (e.gcSteps heapToken (e.gcTable baseToken records) heap) n).Survives
        d →
        openDb d = .ok e' → e'.roots.heapReader = e₁.roots.heapReader ∨
        e'.roots.memtable.versions = [] := by
  have c := consistent_of_run start run
  have done : e.runGarbageCollection heapToken baseToken now =
      .ok (e.collected heapToken (e.gcTable baseToken records) heap) := by
    rw [Engine.runGarbageCollection, if_neg freeHeap, if_neg freeBase, output]
    rfl
  have path : (e.gcTable baseToken records).path = .compactedBase baseToken := rfl
  generalize e.gcTable baseToken records = t at done path
  rw [← path] at freeBase
  have kind : t.path.kind = .base := by rw [path]; rfl
  have collecting := e.collecting_runSteps heap kind
    (fun member => freeBase (c.toWellFormed.isSome_of_mem_gcOldPaths member))
    (fun member => freeHeap (c.toWellFormed.isSome_of_mem_gcOldPaths member)) n
  generalize e.files.runSteps (e.gcSteps heapToken t heap) n = f at collecting
  obtain ⟨e₂, opened, shows⟩ := c.exists_openDb_logged c.backs.keeps rfl e.survives_close
    (congrArg some c.backs.manifest) idle rfl
  obtain rfl := Except.ok.inj (opened.symm.trans reopened)
  have reader : e₂.roots.heapReader = e.roots.manifest.heapPath :=
    (roots_of_openDb (congrArg some c.backs.manifest) c.listed.version reopened).1
  constructor
  · intro d survives
    obtain ⟨early, old⟩ | ⟨late, new⟩ := collecting.manifest_cases c.toWellFormed survives
    · obtain ⟨e', opened, current⟩ := c.exists_openDb_uncollected idle logged freeHeap freeBase
        collecting (by omega) survives old
      exact ⟨e', opened, fun t' _ => (current t').trans (shows t').symm⟩
    · have careful : e.Careful (.garbageCollect heapToken baseToken now) :=
        condition.resolve_left (by omega)
      have empty := careful.unfilled
      obtain ⟨-, aligned, size, heapRoom⟩ := careful
      have active := Memtable.eq_empty (empty _ (StorageRoots.mem_memtables.mpr (.inl rfl)))
      have c' := c.runGarbageCollection empty aligned size heapRoom done
      obtain ⟨e', opened, current⟩ := c.exists_openDb_collected c' idle logged active rfl
        (c.heap_collected kind freeHeap) collecting late survives new
      refine ⟨e', opened, fun t' later => ?_⟩
      rw [current, shows]
      exact c.stateAt_runGarbageCollection c' empty size heapRoom done
        (.inr fun v hv => (c.exact.below v hv).le) later
  · intro d e' survives opened
    obtain ⟨-, old⟩ | ⟨late, new⟩ := collecting.manifest_cases c.toWellFormed survives
    · left
      rw [(roots_of_openDb old c.listed.version opened).1, reader]
    · right
      have careful : e.Careful (.garbageCollect heapToken baseToken now) :=
        condition.resolve_left (by omega)
      have active :=
        Memtable.eq_empty (careful.unfilled _ (StorageRoots.mem_memtables.mpr (.inl rfl)))
      have known := c.listed.version
      rw [(roots_of_openDb new known opened).2, c.insertAll_replay active
        (collecting.wal_cases logged survives)]
      rfl

end Engine

end

namespace Engine

open Reference

/-- After a crash behind the rename, the newer value is looked up at its old offset in the new heap,
which is shorter. -/
theorem gc_misplaces_log : ∃ e₀ e e₁ records heap d e', openDb .empty = .ok e₀ ∧
    ReflTransGen (Run.Step next) e₀ e ∧ e.reopen = .ok e₁ ∧ e.gcOutput 0 = .ok (records, heap) ∧
      (e.files.runSteps (e.gcSteps 0 (e.gcTable 0 records) heap) 7).Survives d ∧ openDb d = .ok e' ∧
      e₁.current 0 (Bytes.ofString "k") = some (Bytes.ofString "w") ∧
      e'.current 0 (Bytes.ofString "k") = none :=
  ⟨_, _, _, _, _, _, _, rfl, Run.step_get [.commit sampleWrite, .commit sampleOverwrite]
    (by decide +kernel), Except.eq_ok_get (by decide +kernel), Except.eq_ok_get (by decide +kernel),
    survives_close { ofRecovered (recoverFrom .empty .initial) with files := _ },
    Except.eq_ok_get (by decide +kernel), by decide +kernel⟩

/-- After a flush and a restart the log is empty, and the collection may crash anywhere. -/
theorem gc_recovers_flushed :
    ∃ e₀ e e₁ records heap, openDb .empty = .ok e₀ ∧ ReflTransGen (Run.SafeStep Careful next) e₀ e ∧
      e.reopen = .ok e₁ ∧ e.gcOutput 0 = .ok (records, heap) ∧
      e₁.current 0 (Bytes.ofString "k") = some (Bytes.ofString "w") ∧
      (e.files.runSteps (e.gcSteps 0 (e.gcTable 0 records) heap) 7).Recovers e₁.current 0 ∧
      ∀ d e', (e.files.runSteps (e.gcSteps 0 (e.gcTable 0 records) heap) 7).Survives d →
        openDb d = .ok e' → e'.roots.heapReader = e₁.roots.heapReader ∨
        e'.roots.memtable.versions = [] := by
  have outcome : ∃ e₀, openDb .empty = .ok e₀ ∧
      ∃ e, Run.guarded Careful next e₀ [.commit sampleWrite, .commit sampleOverwrite, .beginFlush,
        .finishFlush 0 0, .reopen] = some e ∧ ∃ e₁, e.reopen = .ok e₁ ∧ ∃ output,
        e.gcOutput 0 = .ok output ∧
          e.roots.frozenMemtables.length = 0 ∧ e.files.wal.synced = e.files.wal.data ∧
            ¬(e.files.files (.compactedHeap 0)).isSome ∧
            ¬(e.files.files (.compactedBase 0)).isSome ∧ e.Careful (.garbageCollect 0 0 0) ∧
            e₁.current 0 (Bytes.ofString "k") = some (Bytes.ofString "w") := by
    decide +kernel
  obtain ⟨e₀, start, e, run, e₁, reopened, ⟨records, heap⟩, output, idle, logged, freeHeap,
      freeBase, careful, before⟩ :=
    outcome
  have run := Run.safeStep_of_guarded run
  exact ⟨e₀, e, e₁, records, heap, start, run, reopened, output, before,
    gc_recovers start run (length_eq_zero_iff.mp idle) logged reopened freeHeap freeBase output
    (.inr careful)⟩

end Engine

end OmniKV
