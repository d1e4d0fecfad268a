import OmniKV.Storage.Collection

/-!
# Crashes during a flush

A flush truncates the log before the table with the logged versions is on disk and in the manifest.
A crash in between leaves neither. A log whose truncation was not durable repeats what the table
holds.
-/

namespace OmniKV

open Versioned List StorageRoots
open Relation (ReflTransGen)

section

variable [External]

/-- The roots over the tables of `r` that recovery finds with this log. -/
def StorageRoots.reloaded (r : StorageRoots) (wal : Bytes) : StorageRoots :=
  { r with
    memtable := Memtable.empty.insertAll (replay wal)
    frozenMemtables := []
    heapReader := r.manifest.heapPath }

/-- Every directory that a crash may leave opens again and shows this state, from a time on. -/
def Files.Recovers (f : Files) (state : UInt64 → KvState) (since : UInt64) : Prop :=
  ∀ d, f.Survives d → ∃ e, Engine.openDb d = .ok e ∧ ∀ now, since ≤ now → e.current now = state now

namespace Engine

variable {e e' : Engine}

/-- Engines with the same versions and the same heap show the same at their current
sequence numbers. -/
theorem current_of_versions (readable : e.roots.Readable) (readable' : e'.roots.Readable)
    (versions : e'.roots.versions = e.roots.versions) (heap : e'.heap = e.heap)
    (all : ∀ v ∈ e.roots.versions, v.seq ≤ e.globalSeq)
    (all' : ∀ v ∈ e'.roots.versions, v.seq ≤ e'.globalSeq) (now : UInt64) :
    e'.current now = e.current now := by
  funext key
  have found : e'.roots.find key e'.globalSeq = e.roots.find key e.globalSeq := by
    rw [← readable'.find_of_le all' (versions ▸ all)]
    refine Option.ext fun v => ?_
    rw [readable'.find_eq_some_iff, readable.find_eq_some_iff, versions]
  rw [current, current, stateAt, stateAt, found, heap]

variable {d : Disk} {f : Files}

/-- A directory with these tables and this log opens, and shows what it should. -/
theorem exists_openDb {r : StorageRoots} (stores : d.Stores r)
    (manifest : d.manifest = some r.manifest)
    (known : r.manifest.formatVersion = manifestFormatVersion)
    (readable : (r.reloaded d.wal).Readable) (readable' : e.roots.Readable)
    (versions : (r.reloaded d.wal).versions = e.roots.versions)
    (heap : (d.files r.manifest.heapPath).getD [] = e.heap) (all : ∀ v ∈ e.roots.versions,
    v.seq ≤ e.globalSeq) (tables : ∀ t ∈ r.tables, ∀ v ∈ t.versions, v.seq ≤ r.manifest.maxSeq)
    (room : r.manifest.maxSeq + 1 < 2 ^ 64) (logRoom : ∀ x ∈ replay d.wal, x.seq + 1 < 2 ^ 64) :
    ∃ e', openDb d = .ok e' ∧ ∀ now, e'.current now = e.current now := by
  have opened : openDb d = .ok (ofRecovered (recoverFrom d r.manifest)) :=
    openDb_eq_ok_iff.mpr ⟨_, loadManifest_eq_ok manifest known.le, rfl⟩
  have roots : (ofRecovered (recoverFrom d r.manifest)).roots = r.reloaded d.wal :=
    stores.roots_recoverFrom
  have logged : ∀ x ∈ replay d.wal, x.seq ≤ (recoverFrom d r.manifest).maxSeq := fun x hx =>
    le_foldl_max_of_mem _ (mem_map_of_mem hx)
  have listed : r.manifest.maxSeq ≤ (recoverFrom d r.manifest).maxSeq := le_foldl_max _ _
  have upper : (recoverFrom d r.manifest).maxSeq ≤ 2 ^ 64 - 2 := by
    refine foldl_max_le (by omega) fun seq hseq => ?_
    obtain ⟨x, hx, rfl⟩ := mem_map.mp hseq
    have := logRoom x hx
    omega
  have globalSeq : (ofRecovered (recoverFrom d r.manifest)).globalSeq =
      (recoverFrom d r.manifest).maxSeq + 1 := wrap64_of_lt (by omega)
  refine ⟨_, opened, current_of_versions readable' (roots ▸ readable) (roots ▸ versions) ?_ all ?_⟩
  · rw [stores.heap_ofRecovered]
    exact heap
  · intro v hv
    rw [globalSeq]
    refine Nat.le_succ_of_le ?_
    rw [roots, mem_versions] at hv
    obtain ⟨m, hm, inMem⟩ | ⟨t, ht, inTable⟩ := hv
    · obtain rfl := (mem_memtables.mp hm).resolve_right not_mem_nil
      obtain ⟨x, hx, rfl⟩ := (Memtable.mem_of_mem_insertAll inMem).resolve_left
        (Memtable.not_mem_empty v)
      exact logged x hx
    · exact (tables t ht v inTable).trans listed

theorem roots_of_openDb {m : Manifest} (manifest : d.manifest = some m)
    (known : m.formatVersion = manifestFormatVersion) (opened : openDb d = .ok e) :
    e.roots.heapReader = m.heapPath ∧ e.roots.memtable =
      Memtable.empty.insertAll (replay d.wal) := by
  obtain ⟨m', loaded, rfl⟩ := openDb_eq_ok_iff.mp opened
  obtain rfl := Except.ok.inj ((loadManifest_eq_ok manifest known.le).symm.trans loaded)
  exact ⟨rfl, rfl⟩

/-- The logged records have numbers below the counter. -/
theorem WellFormed.seq_of_mem_replay (wf : e.WellFormed) {x : OmniRecord}
    (member : x ∈ replay e.files.wal.data) : x.seq + 1 < 2 ^ 64 := by
  obtain ⟨batches, short, log, below⟩ := wf.log
  rw [log, LogBatch.replay_logBatches short] at member
  obtain ⟨b, hb, inBatch⟩ := mem_flatMap.mp member
  have := below b hb x inBatch
  have := wf.bound
  omega

section

variable (c : e.Consistent) (keeps : ∀ t ∈ e.roots.tables, f.Keeps t)
  (heap : f.files e.roots.heapReader = e.files.files e.roots.heapReader) (survives : f.Survives d)
  (manifest : d.manifest = some e.roots.manifest)

include c keeps heap survives manifest

/-- A crash that leaves the tables of a consistent engine, its heap and some log. -/
theorem Consistent.exists_openDb (readable : (e.roots.reloaded d.wal).Readable)
    (readable' : e'.roots.Readable)
    (versions : (e.roots.reloaded d.wal).versions = e'.roots.versions)
    (sameHeap : e.heap = e'.heap) (all : ∀ v ∈ e'.roots.versions, v.seq ≤ e'.globalSeq)
    (logRoom : ∀ x ∈ replay d.wal, x.seq + 1 < 2 ^ 64) :
    ∃ e'', openDb d = .ok e'' ∧ ∀ now, e''.current now = e'.current now := by
  refine Engine.exists_openDb (Files.stores_of_keeps c.listed keeps survives) manifest
    c.listed.version
    readable readable' versions ?_ all (fun t ht v hv => (c.tables t ht v hv).2) c.maxSeq logRoom
  have left := survives.files _ _ (heap.trans c.heapData)
  rw [← c.listed.heapReader, left.eq_data rfl, sameHeap]

/-- With its log, the engine comes back as it was. -/
theorem Consistent.exists_openDb_logged (idle : e.roots.frozenMemtables = [])
    (wal : d.wal = e.files.wal.data) :
    ∃ e', openDb d = .ok e' ∧ ∀ now, e'.current now = e.current now := by
  have roots : e.roots.reloaded d.wal = e.roots := by
    rw [reloaded, wal, ← c.replayed, ← idle, ← c.listed.heapReader]
  have readable := c.ordered.readable
  refine c.exists_openDb keeps heap survives manifest (roots.symm ▸ readable) readable ?_ rfl
    (fun v hv => (c.exact.below v hv).le) fun x hx => ?_
  · rw [roots]
  · rw [wal] at hx
    exact c.toWellFormed.seq_of_mem_replay hx

def withoutMemtable (e : Engine) : Engine :=
  { e with roots := { e.roots with memtable := .empty } }

/-- Without its log, the engine comes back without what only the memtable held. -/
theorem Consistent.exists_openDb_unlogged (idle : e.roots.frozenMemtables = []) (wal : d.wal = []) :
    ∃ e', openDb d = .ok e' ∧ ∀ now, e'.current now = e.withoutMemtable.current now := by
  have roots : e.roots.reloaded d.wal = e.withoutMemtable.roots := by
    rw [reloaded, wal, ← idle, ← c.listed.heapReader]
    rfl
  have ordered : e.withoutMemtable.roots.Ordered := by
    have fewer :=
      c.ordered.freeze.sublist (nil_sublist (e.roots.frozenMemtables ++ [e.roots.memtable]))
    rwa [← idle] at fewer
  refine c.exists_openDb keeps heap survives manifest (roots.symm ▸ ordered.readable)
    ordered.readable (by rw [roots]) rfl (fun v hv => ?_) ?_
  · refine (c.exact.below v ?_).le
    rw [mem_versions] at hv ⊢
    refine hv.imp_left ?_
    rintro ⟨m, hm, inMem⟩
    obtain rfl | frozen := mem_memtables.mp hm
    · exact absurd inMem (Memtable.not_mem_empty v)
    · exact ⟨m, mem_memtables.mpr (.inr frozen), inMem⟩
  · rw [wal]
    exact fun x hx => nomatch hx

end

end Engine

def Files.publishSteps (t : TableHandle) (m : Manifest) : List (Files → Files) :=
  [ fun f => f.create t.path t.data, fun f => f.sync t.path, fun f => f.saveBloom t.path t.bloom,
    fun f => f.renameManifest m, fun f => f.syncDir ]

/-- The files after `n` of these steps. -/
structure Files.Publishing (f f' : Files) (t : TableHandle) (m : Manifest) (n : ℕ) : Prop where
  wal : f'.wal = f.wal
  files : ∀ p ≠ t.path, f'.files p = f.files p
  blooms : ∀ p ≠ t.path, f'.blooms p = f.blooms p
  unpublished : n < 4 → f'.manifest = f.manifest
  undurable : n < 5 → f'.durableManifest = f.durableManifest
  published : 4 ≤ n → f'.Keeps t ∧ f'.manifest = { m with formatVersion := manifestFormatVersion }
  durable : 5 ≤ n → f'.durableManifest = { m with formatVersion := manifestFormatVersion }

namespace Files

omit [External]

variable {f : Files} {steps : List (Files → Files)} {k n : ℕ}

/-- What the first steps leave alone is as it was. -/
theorem runSteps_of_le {α : Type*} (g : Files → α) (early : n ≤ k)
    (each : ∀ step ∈ steps.take k, ∀ f, g (step f) = g f) : g (f.runSteps steps n) = g f := by
  rw [runSteps]
  replace each : ∀ step ∈ steps.take n, ∀ f, g (step f) = g f := fun step member =>
    each step ((take_sublist_take_left early).subset member)
  generalize steps.take n = taken at each ⊢
  induction taken generalizing f with
  | nil => rfl
  | cons step rest ih =>
    rw [foldl_cons, ih fun later member => each later (.tail _ member)]
    exact each step (.head _) f

theorem runSteps_of_ge {α : Type*} (g : Files → α) (late : k ≤ n)
    (each : ∀ step ∈ steps.drop k, ∀ f, g (step f) = g f) :
    g (f.runSteps steps n) = g (f.runSteps steps k) := by
  obtain ⟨j, rfl⟩ := Nat.exists_eq_add_of_le late
  have split : f.runSteps steps (k + j) = (f.runSteps steps k).runSteps (steps.drop k) j := by
    rw [runSteps, take_add, foldl_append]
    rfl
  rw [split]
  exact runSteps_of_le g le_rfl fun step member => each step (mem_of_mem_take member)

attribute [local simp] publishSteps create sync saveBloom renameManifest syncDir

theorem publishing_runSteps (f : Files) (t : TableHandle) (m : Manifest) (n : ℕ) :
    Publishing f (f.runSteps (publishSteps t m) n) t m n where
  wal := runSteps_of_ge wal n.zero_le (by simp)
  files p other := runSteps_of_ge (fun f => f.files p) n.zero_le (by simp [other])
  blooms p other := runSteps_of_ge (fun f => f.blooms p) n.zero_le (by simp [other])
  unpublished early := runSteps_of_le manifest (Nat.le_of_lt_succ early) (by simp)
  undurable early := runSteps_of_le durableManifest (Nat.le_of_lt_succ early) (by simp)
  published late := by
    have written := f.keeps_new t
    refine ⟨⟨?_, ?_⟩, runSteps_of_ge manifest late (by simp)⟩
    · exact (runSteps_of_ge (fun f => f.files t.path) late (by simp)).trans written.file
    · exact (runSteps_of_ge (fun f => f.blooms t.path) late (by simp)).trans written.bloom
  durable late := runSteps_of_ge durableManifest late (by simp)

/-- The old manifest up to the rename, and the new one once the directory is fsynced. -/
theorem Survives.manifest_cases {d : Disk} {old new : Manifest} (survives : f.Survives d)
    (unpublished : n < k → f.manifest = old) (undurable : n < k + 1 → f.durableManifest = old)
    (published : k ≤ n → f.manifest = new) (durable : k + 1 ≤ n → f.durableManifest = new) :
    n < k + 1 ∧ d.manifest = some old ∨ k ≤ n ∧ d.manifest = some new := by
  obtain renamed | synced := survives.manifest
  · by_cases early : n < k
    · exact .inl ⟨early.le.trans_lt k.lt_succ_self, unpublished early ▸ renamed⟩
    · exact .inr ⟨not_lt.mp early, published (not_lt.mp early) ▸ renamed⟩
  · by_cases early : n < k + 1
    · exact .inl ⟨early, undurable early ▸ synced⟩
    · exact .inr ⟨by omega, durable (not_lt.mp early) ▸ synced⟩

end Files

namespace Engine

variable {e e' : Engine}

theorem compactSstables_inversion {token : ℕ} (filled : flushRecords e.roots.memtable ≠ [])
    (done : e.compactSstables token = .ok e') :
    ∃ t, t = newTable (.l0 token) (flushRecords e.roots.memtable) ∧
      e.flushSteps token = (fun f => f.rotateWal) :: Files.publishSteps t (e.flushManifest token) ∧
      e'.roots = { e.roots with
        manifest := e.flushManifest token
        sstables := e.roots.sstables ++ [t]
        memtable := .empty
        frozenMemtables := (e.roots.frozenMemtables ++ [e.roots.memtable]).eraseIdx
          e.roots.frozenMemtables.length } ∧
      e'.globalSeq = e.globalSeq ∧ e'.files.wal = e.files.wal.rotateSegment := by
  rw [compactSstables, publishFrozen, if_neg filled] at done
  split_ifs at done with taken
  refine ⟨_, rfl, ?_, ?_⟩
  · rw [flushSteps, if_neg filled]
    rfl
  · cases done
    exact ⟨rfl, rfl, rfl⟩

variable {t : TableHandle} {f : Files} (c : e.Consistent)

include c

/-- After a crash that leaves the new table and the old log, every logged version is there
twice. -/
theorem Consistent.reloaded_repeated (c' : e'.Consistent) (idle : e.roots.frozenMemtables = [])
    (tables : e'.roots.tables = t :: e.roots.tables)
    (same : t.versions = e.roots.memtable.versions) :
    (e'.roots.reloaded e.files.wal.data).Readable ∧
      (e'.roots.reloaded e.files.wal.data).versions = e.roots.versions := by
  have before : e.roots.tiers = {v | v ∈ e.roots.memtable} :: e.roots.tables.map fun t =>
      {v | v ∈ t.versions} := by
    rw [tiers, memtables, idle]
    rfl
  have after : (e'.roots.reloaded e.files.wal.data).tiers = {v | v ∈ e.roots.memtable} ::
      {v | v ∈ e.roots.memtable} :: e.roots.tables.map fun t => {v | v ∈ t.versions} := by
    have reloaded : (e'.roots.reloaded e.files.wal.data).tiers =
        {v | v ∈ Memtable.empty.insertAll (replay e.files.wal.data)} ::
          e'.roots.tables.map fun t => {v | v ∈ t.versions} := rfl
    rw [reloaded, ← c.replayed, tables, map_cons, same]
    rfl
  have versions : (e'.roots.reloaded e.files.wal.data).versions = e.roots.versions := by
    rw [versions, after, union_repeated, ← before, versions]
  refine ⟨⟨c'.ordered.sound, ?_, ?_⟩, versions⟩
  · rw [after]
    exact layered_of_repeated (before ▸ c.ordered.newer)
  · rw [versions]
    exact c.ordered.readable.unambiguous

/-- A flush leaves the tables of the engine and its heap alone. -/
theorem Consistent.keeps_publishing {m : Manifest} {n : ℕ} (free : ¬(e.files.files t.path).isSome)
    (publishing : Files.Publishing e.files.rotateWal f t m n) : (∀ u ∈ e.roots.tables, f.Keeps u) ∧
      f.files e.roots.heapReader = e.files.files e.roots.heapReader := by
  refine ⟨fun u hu => ?_, publishing.files _ (c.heapReader_ne free)⟩
  have old := c.backs.keeps u hu
  have other := old.path_ne free
  exact ⟨(publishing.files _ other).trans old.file, (publishing.blooms _ other).trans old.bloom⟩

theorem Consistent.recovers_publishing (c' : e'.Consistent)
    (idle : e.roots.frozenMemtables = []) (logged : e.files.wal.synced = e.files.wal.data)
    {n : ℕ} (free : ¬(e.files.files t.path).isSome)
    (tables : e'.roots.tables = t :: e.roots.tables) (same : t.versions = e.roots.memtable.versions)
    (idle' : e'.roots.frozenMemtables = []) (empty : e'.files.wal.data = [])
    (reader : e'.roots.heapReader = e.roots.heapReader)
    (heap : e'.files.files e.roots.heapReader = e.files.files e.roots.heapReader)
    (shows : ∀ now, e'.current now = e.current now)
    (publishing : Files.Publishing e.files.rotateWal f t e'.roots.manifest n)
    (hidden : n < 5 → ∀ now, e.withoutMemtable.current now = e.current now) :
    f.Recovers e.current 0 := by
  intro d survives
  obtain ⟨keeps, heapFile⟩ := c.keeps_publishing free publishing
  have log : d.wal = [] ∨ d.wal = e.files.wal.data := by
    have left := survives.wal
    rw [publishing.wal] at left
    exact logged ▸ left.of_rotated
  have saved : { e'.roots.manifest with formatVersion := manifestFormatVersion } =
      e'.roots.manifest := by
    rw [← c'.listed.version]
  suffices opens : ∃ e'', openDb d = .ok e'' ∧ ∀ now, e''.current now = e.current now by
    obtain ⟨e'', opened, current⟩ := opens
    exact ⟨e'', opened, fun now _ => current now⟩
  obtain ⟨early, old⟩ | ⟨late, new⟩ := survives.manifest_cases
    (fun early => (publishing.unpublished early).trans c.backs.manifest)
    (fun early => (publishing.undurable early).trans c.backs.durable)
    (fun late => (publishing.published late).2.trans saved) fun late =>
    (publishing.durable late).trans saved
  · obtain none | full := log
    · obtain ⟨e'', opened, current⟩ := c.exists_openDb_unlogged keeps heapFile survives old idle
        none
      exact ⟨e'', opened, fun now => (current now).trans (hidden early now)⟩
    · exact c.exists_openDb_logged keeps heapFile survives old idle full
  · have keeps' : ∀ u ∈ e'.roots.tables, f.Keeps u := by
      intro u hu
      rw [tables] at hu
      obtain new | old := mem_cons.mp hu
      · exact new ▸ (publishing.published late).1
      · exact keeps u old
    have heapFile' : f.files e'.roots.heapReader = e'.files.files e'.roots.heapReader := by
      rw [reader, heapFile, heap]
    obtain none | full := log
    · obtain ⟨e'', opened, current⟩ :=
        c'.exists_openDb_logged keeps' heapFile' survives new idle' (none.trans empty.symm)
      exact ⟨e'', opened, fun now => (current now).trans (shows now)⟩
    · obtain ⟨readable, versions⟩ := c.reloaded_repeated c' idle tables same
      have sameHeap : e'.heap = e.heap := by
        rw [Engine.heap, Files.read, reader, heap]
        rfl
      rw [← full] at readable versions
      refine c'.exists_openDb keeps' heapFile' survives new readable c.ordered.readable versions
        sameHeap (fun v hv => (c.exact.below v hv).le) fun x hx => ?_
      rw [full] at hx
      exact c.toWellFormed.seq_of_mem_replay hx

omit [External] c in
/-- A crash after the truncation may leave an empty log, the durable manifest, and the rest as
written. -/
theorem exists_survives_rotated {w : WriteAheadLog} (rotated : f.wal = w.rotateSegment) :
    ∃ d, f.Survives d ∧ d.manifest = some f.durableManifest ∧ d.wal = [] := by
  refine ⟨⟨some f.durableManifest, [], fun p => (f.files p).map StoredFile.data, f.blooms⟩,
    ⟨.inr rfl, ?_, fun _ _ found => Files.survives_written found, fun _ _ found => found⟩, rfl, rfl⟩
  rw [rotated]
  exact w.survives_nil_of_rotated

/-- Without the log the tables have to show everything. -/
theorem Consistent.hidden_of_recovers (idle : e.roots.frozenMemtables = [])
    {m : Manifest} {n : ℕ} (free : ¬(e.files.files t.path).isSome)
    (publishing : Files.Publishing e.files.rotateWal f t m n) (early : n < 5)
    (recovers : f.Recovers e.current 0) (now : UInt64) :
    e.withoutMemtable.current now = e.current now := by
  obtain ⟨d, survives, manifest, wal⟩ := exists_survives_rotated publishing.wal
  have old : d.manifest = some e.roots.manifest := by
    rw [manifest, publishing.undurable early]
    exact congrArg some c.backs.durable
  obtain ⟨keeps, heapFile⟩ := c.keeps_publishing free publishing
  obtain ⟨e₁, opened, tables⟩ := c.exists_openDb_unlogged keeps heapFile survives old idle wal
  obtain ⟨e₂, opened', shows⟩ := recovers d survives
  obtain rfl := Except.ok.inj (opened.symm.trans opened')
  exact (tables now).symm.trans (shows now UInt64.zero_le)

def CarefulAll (e : Engine) : List WriteBatch → Prop
  | [] => True
  | tx :: txs => e.Careful (.commit tx) ∧ (e.committed tx).CarefulAll txs

instance decidableCarefulAll : ∀ (e : Engine) (txs : List WriteBatch), Decidable (e.CarefulAll txs)
  | _, [] => isTrue trivial
  | e, tx :: txs =>
    haveI := decidableCarefulAll (e.committed tx) txs
    inferInstanceAs (Decidable (_ ∧ _))

/-- What a list of commits leaves. -/
structure Acked (e : Engine) (txs : List WriteBatch) (e' : Engine) : Prop where
  consistent : e'.Consistent
  frozen : e'.roots.frozenMemtables = e.roots.frozenMemtables
  logged : txs ≠ [] → e'.files.wal.synced = e'.files.wal.data
  current : ∀ now, e'.current now = txs.foldl (fun state tx => tx.effect now state) (e.current now)

theorem Consistent.acked_commitAll {txs : List WriteBatch}
    (careful : e.CarefulAll txs) (done : e.commitAll txs = .ok e') : Acked e txs e' := by
  induction txs generalizing e with
  | nil =>
    cases done
    exact ⟨c, rfl, fun filled => absurd rfl filled, fun _ => rfl⟩
  | cons tx txs ih =>
    obtain ⟨⟨keys, room, heapRoom⟩, rest⟩ := careful
    cases first : e.commitBatchLocal tx with
    | error err =>
      rw [commitAll, first] at done
      cases done
    | ok result =>
      obtain ⟨e₁, seq⟩ := result
      rw [commitAll, first] at done
      obtain ⟨-, rfl, -⟩ := commitBatchLocal_eq_ok first
      have acked := ih (c.committed keys room heapRoom) rest done
      have effect := c.exact.current_committed (fun op hop => (keys op hop).2) ⟨by omega, heapRoom⟩
      refine ⟨acked.consistent, ?_, fun _ => ?_, fun now => ?_⟩
      · rw [acked.frozen, roots_committed]
      · cases txs with
        | nil =>
          cases done
          rfl
        | cons => exact acked.logged (cons_ne_nil _ _)
      · rw [acked.current, effect, foldl_cons]

omit c

/-- A crash after `n` steps of a flush keeps all commits exactly when the log was not yet truncated,
the new manifest is durable, or the memtable held nothing that shows. -/
theorem flush_recovers_iff {e₀ e₁ : Engine} {txs : List WriteBatch} {token n : ℕ}
    (start : openDb .empty = .ok e₀) (run : ReflTransGen (Run.SafeStep Careful next) e₀ e₁)
    (idle : e₁.roots.frozenMemtables = []) (careful : e₁.CarefulAll txs) (some : txs ≠ [])
    (commits : e₁.commitAll txs = .ok e) (aligned : Aligned (flushRecords e.roots.memtable))
    (size : tableSize e.roots.memtable.versions < 2 ^ 64)
    (free : ¬(e.files.files (.l0 token)).isSome) :
    (e.files.runSteps (e.flushSteps token) n).Recovers
        (fun now => txs.foldl (fun state tx => tx.effect now state) (e₁.current now)) 0 ↔
      n = 0 ∨ 6 ≤ n ∨ ∀ now, e.withoutMemtable.current now = e.current now := by
  obtain ⟨c, frozen, logged, current⟩ := (consistent_of_run start run).acked_commitAll careful
    commits
  rw [idle] at frozen
  have logged := logged some
  rw [← funext current]
  cases n with
  | zero =>
    refine ⟨fun _ => .inl rfl, fun _ d survives => ?_⟩
    obtain ⟨e', opened, shows⟩ := c.exists_openDb_logged c.backs.keeps rfl survives
      (c.backs.manifest_eq survives) frozen (survives.wal.eq_data logged)
    exact ⟨e', opened, fun now _ => shows now⟩
  | succ n =>
    by_cases filled : flushRecords e.roots.memtable = []
    · -- There is nothing to flush, and the log has nothing.
      have empty : e.roots.memtable = .empty :=
        Memtable.eq_empty (Memtable.not_mem_of_versions (map_eq_nil_iff.mp filled))
      have hidden : e.withoutMemtable = e := by
        rw [withoutMemtable, ← empty]
      refine ⟨fun _ => .inr (.inr fun now => by rw [hidden]), fun _ d survives => ?_⟩
      have steps : e.files.runSteps (e.flushSteps token) (n + 1) = e.files.rotateWal := by
        rw [flushSteps, if_pos filled, Files.runSteps, take_of_length_le (by simp)]
        rfl
      rw [steps] at survives
      have backs : e.files.rotateWal.Backs e.roots := c.backs.of_eq rfl rfl rfl rfl
      have manifest := backs.manifest_eq survives
      suffices opens : ∃ e', openDb d = .ok e' ∧ ∀ now, e'.current now = e.current now by
        obtain ⟨e', opened, shows⟩ := opens
        exact ⟨e', opened, fun now _ => shows now⟩
      obtain none | full := survives.wal.of_rotated
      · have opens := c.exists_openDb_unlogged backs.keeps rfl survives manifest frozen none
        rwa [hidden] at opens
      · exact c.exists_openDb_logged backs.keeps rfl survives manifest frozen (full.trans logged)
    · obtain ⟨e', done⟩ : ∃ e', e.compactSstables token = .ok e' := by
        rw [compactSstables, publishFrozen, if_neg filled]
        exact ⟨_, if_neg free⟩
      obtain ⟨c', shows⟩ := c.stateAt_compactSstables frozen aligned size done
      obtain ⟨t, new, steps, roots, globalSeq, wal⟩ := compactSstables_inversion filled done
      have free : ¬(e.files.files t.path).isSome := new ▸ free
      have versions : t.versions = e.roots.memtable.versions := by
        rw [new]
        exact (c.toWellFormed.writable_memtable (mem_memtables.mpr (.inl rfl))
          size).versions_newTable _
      have tables : e'.roots.tables = t :: e.roots.tables := by
        rw [roots]
        simp [tables, baseTable, flushManifest]
      have publishing :
        Files.Publishing e.files.rotateWal (e.files.runSteps (e.flushSteps token) (n + 1))
          t e'.roots.manifest n := by
        rw [steps, roots]
        exact e.files.rotateWal.publishing_runSteps t (e.flushManifest token) n
      constructor
      · intro recovers
        by_cases late : 5 ≤ n
        · exact .inr (.inl (Nat.succ_le_succ late))
        · exact .inr (.inr (c.hidden_of_recovers frozen free publishing (not_le.mp late) recovers))
      · intro condition
        have present : (e.files.files e.roots.heapReader).isSome := by
          rw [c.heapData]
          rfl
        refine c.recovers_publishing c' frozen logged free tables versions ?_ ?_ ?_
          (files_publishFrozen done present) (fun now => ?_) publishing fun early => ?_
        · rw [roots, frozen]
          rfl
        · rw [wal]
          rfl
        · rw [roots]
        · rw [Engine.current, shows, globalSeq, Engine.current]
        · obtain none | late | hidden := condition
          · cases none
          · omega
          · exact hidden

end Engine

end

namespace Engine

open Reference

/-- A crash after the truncation leaves the old manifest and an empty log: an acknowledged write is
gone. -/
theorem flush_loses_write : ∃ e₀ e d e', openDb .empty = .ok e₀ ∧ e₀.commitAll [sampleWrite] =
    .ok e ∧ (e.files.runSteps (e.flushSteps 0) 1).Survives d ∧ openDb d = .ok e' ∧
      e.current 0 (Bytes.ofString "k") = some (Bytes.ofString "v") ∧
      e'.current 0 (Bytes.ofString "k") = none := by
  have steps : ∀ e : Engine, flushRecords e.roots.memtable ≠ [] →
    (e.files.runSteps (e.flushSteps 0) 1).Survives
      ⟨some e.files.durableManifest, [], fun p => (e.files.files p).map StoredFile.data,
      e.files.blooms⟩ := by
    intro e filled
    rw [flushSteps, if_neg filled]
    exact ⟨.inr rfl, e.files.wal.survives_nil_of_rotated, fun _ _ found =>
      Files.survives_written found, fun _ _ found => found⟩
  exact ⟨_, _, _, _, rfl, Except.eq_ok_get (by decide +kernel), steps _ (by decide +kernel),
    Except.eq_ok_get (by decide +kernel), by decide +kernel⟩

/-- Once the new manifest is durable, the write is in the new table. -/
theorem flush_recovers_write : ∃ e₀ e, openDb .empty = .ok e₀ ∧ e₀.commitAll [sampleWrite] = .ok e ∧
      (e.files.runSteps (e.flushSteps 0) 6).Recovers (fun now =>
      sampleWrite.effect now (e₀.current now)) 0 := by
  refine ⟨_, _, rfl, Except.eq_ok_get (by decide +kernel), ?_⟩
  exact (flush_recovers_iff rfl .refl (length_eq_zero_iff.mp (by decide +kernel))
    (by decide +kernel) (by simp)
    (Except.eq_ok_get (by decide +kernel)) (by decide +kernel) (by decide +kernel)
    (by decide +kernel)).mpr
      (.inr (.inl le_rfl))

end Engine

end OmniKV
