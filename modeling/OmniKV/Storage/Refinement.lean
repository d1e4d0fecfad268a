import OmniKV.Storage.Collection
import OmniKV.Storage.MultiVersion
import OmniKV.Storage.TypedStore

/-!
# The engine as a map

Over a whole run the engine answers like a finite map to which the committed batches were applied in
order. Flushes, compactions, garbage collection, restarts and other readers do not show. Compactions
drop expired values, so this holds from the time of the last compaction on.
-/

namespace OmniKV

open List SortedMap Versioned StorageRoots Option
open Relation (ReflTransGen)

def EngineOp.batch? : EngineOp → Option WriteBatch
  | commit tx => some tx
  | _ => none

/-- The time as of which an operation drops expired values. -/
def EngineOp.time : EngineOp → UInt64
  | compactL1ToL2 _ now | garbageCollect _ _ now => now
  | _ => 0

/-- What the committed batches of a run make of an empty map. -/
def TimedStore.ofRun (ops : List EngineOp) : TimedStore :=
  (ops.filterMap EngineOp.batch?).foldl commit .empty

section

variable [External]

namespace Engine

/-- A safe operation that drops nothing that is alive at time `t`. -/
def SafeBy (t : UInt64) (e : Engine) (op : EngineOp) : Prop := e.Safe op ∧ op.time ≤ t
deriving Decidable

/-- The engine of a new database after a run of such operations. -/
def Ran (t : UInt64) (ops : List EngineOp) (e : Engine) : Prop :=
  ∃ e₀, openDb .empty = .ok e₀ ∧ Run.guarded (SafeBy t) next e₀ ops = some e

variable {e e' e₀ : Engine} {op : EngineOp} {ops : List EngineOp} {s : ℕ} {t : UInt64}

theorem fits_of_careful {tx : WriteBatch} (careful : e.Careful (.commit tx)) : e.Fits tx := by
  have room := careful.2.1
  exact ⟨by omega, careful.2.2⟩

/-- Upper levels hold the newer versions, so what the merge into the base drops hides nothing there.
-/
theorem Settled.not_uncovers (settled : e.Settled) (now : UInt64) : ¬e.Uncovers now := by
  rintro ⟨-, -, u, w, ⟨upper, -⟩, ⟨⟨t, ht, lower⟩, -⟩, -, newer, -⟩
  obtain ⟨-, tables, across⟩ := pairwise_append.mp settled.serving.ordered.newer
  refine newer.not_gt ?_
  obtain ⟨m, hm, inMem⟩ | ⟨t', ht', inTable⟩ := upper
  · have low : t ∈ e.roots.tables := mem_tables.mpr (.inr (mem_cons.mp ht).symm)
    exact across _ (mem_map_of_mem hm) _ (mem_map_of_mem low) u inMem w lower
  · have low : t ∈ e.roots.l1Sstables.reverse ++ [e.roots.baseTable] :=
      by simpa [lowerTables, or_comm] using ht
    rw [StorageRoots.tables, append_assoc, map_append] at tables
    obtain ⟨-, -, below⟩ := pairwise_append.mp tables
    exact below _ (mem_map_of_mem (mem_reverse.mpr ht')) _ (mem_map_of_mem low) u inTable w lower

/-- The live versions that a reader finds decide what it sees. -/
theorem Settled.stateAt_of_isNewest (settled : e.Settled) (settled' : e'.Settled)
    (heap : e'.heap = e.heap)
    (newest : ∀ key v, ¬v.dead t → (IsNewest e'.roots.versions key s v ↔
    IsNewest e.roots.versions key s v)) : e'.stateAt s t = e.stateAt s t := by
  funext key
  refine Option.ext fun value => ?_
  rw [settled.serving.stateAt_eq_some_iff, settled'.serving.stateAt_eq_some_iff, heap]
  exact exists_congr fun v => and_congr_left fun shown => newest key v shown.1

/-- A safe operation changes nothing for a reader that compactions serve and that is older than the
batches still to come. -/
theorem Settled.stateAt_next (settled : e.Settled) (safe : SafeBy t e op) (step : e.next op =
    some e') (covered : Covered e.roots.versions e.compactionRetentionFloor s)
    (earlier : op.batch?.isSome → s < e.globalSeq) : e'.stateAt s t = e.stateAt s t := by
  have settled' := settled.next safe.1 step
  have c := settled.consistent
  have exact : ∀ t ∈ e.roots.tables, t.Exact := fun t ht => (c.ordered.sound t ht).tableVersions_eq
  have distinct := c.ordered.readable.unambiguous
  obtain ⟨⟨careful, -⟩, late⟩ := safe
  cases effect_of_next step with
  | commit => exact c.exact.stateAt_committed_of_lt (fits_of_careful careful) (earlier rfl) t
  | beginFlush =>
    exact c.exact.stateAt_of_versions settled'.consistent.exact (versions_freeze e) rfl s t
  | finishFlush frozen done =>
    have size := (careful _ frozen).2
    exact c.exact.stateAt_of_versions settled'.consistent.exact
      (c.toWellFormed.versions_publishFrozen frozen size done) (c.shrinks_publishFrozen frozen
      size done).heap s t
  | compactL0ToL1 done =>
    have written := (c.toWellFormed.writable_l0 careful.2).versions_newTable
    refine settled.stateAt_of_isNewest settled' (c.shrinks_compactL0ToL1 careful.2
      done).heap fun key v _ => ?_
    exact isNewest_compactL0ToL1 exact distinct (written _) done covered
  | compactL1ToL2 done =>
    have written := (c.toWellFormed.writable_l1 careful.2).versions_newTable
    refine settled.stateAt_of_isNewest settled' (c.shrinks_compactL1ToL2 careful.2
      done).heap fun key v live => ?_
    exact isNewest_compactL1ToL2 exact distinct (written _) done (settled.not_uncovers _) covered
      fun dead => live (Version.dead_mono late dead)
  | garbageCollect done =>
    have empty := careful.unfilled
    obtain ⟨-, -, size, heapRoom⟩ := careful
    exact c.stateAt_runGarbageCollection settled'.consistent empty size heapRoom done covered late
  | reopen done =>
    exact c.stateAt_reopen settled'.consistent (c.reopen careful.1 careful.2 done).2 done s t
  | other same => exact stateAt_of_sameData same s t

/-- Between commits the current state stays. -/
theorem Settled.current_next (settled : e.Settled) (safe : SafeBy t e op)
    (step : e.next op = some e') (quiet : op.batch? = none) : e'.current t = e.current t := by
  have settled' := settled.next safe.1 step
  have top : e.globalSeq ≤ max e.globalSeq e'.globalSeq := le_max_left _ _
  have top' : e'.globalSeq ≤ max e.globalSeq e'.globalSeq := le_max_right _ _
  rw [current, current, settled'.consistent.exact.stateAt_latest t top'.step (Nat.le_succ _),
    settled.consistent.exact.stateAt_latest t top.step (Nat.le_succ _)]
  refine settled.stateAt_next safe step (.inr fun v hv => ?_) (by simp [quiet])
  exact (settled.consistent.exact.below v hv).le.trans top

/-- The engine and a map show the same at time `t`. -/
structure Refines (t : UInt64) (e : Engine) (m : TimedStore) : Prop where
  settled : e.Settled
  current : e.current t = fun key => m.find key t

namespace Refines

variable {m : TimedStore}

theorem of_openDb_empty (opened : openDb .empty = .ok e) : Refines t e .empty := by
  have settled := settled_of_openDb_empty opened
  refine ⟨settled, funext fun key => ?_⟩
  cases found : e.roots.find key e.globalSeq with
  | none =>
    rw [Engine.current, stateAt, found]
    rfl
  | some v =>
    have newest := settled.serving.ordered.readable.find_eq_some_iff.mp found
    exact absurd newest.mem (versions_of_openDb_empty opened v)

theorem next (refines : Refines t e m) (safe : SafeBy t e op) (step : e.next op = some e') :
    Refines t e' (op.batch?.elim m m.commit) := by
  refine ⟨refines.settled.next safe.1 step, ?_⟩
  cases committed : op.batch? with
  | none => rw [refines.settled.current_next safe step committed, refines.current, elim_none]
  | some tx =>
    cases op with
    | commit =>
      cases committed
      obtain ⟨⟨careful, plain⟩, -⟩ := safe
      obtain ⟨-, rfl⟩ := next_commit_eq_some.mp step
      rw [refines.settled.consistent.exact.current_committed plain.1 (fits_of_careful careful),
        refines.current]
      exact (m.find_commit tx t).symm
    | _ => cases committed

theorem of_ran (ran : Ran t ops e) : Refines t e (.ofRun ops) := by
  obtain ⟨e₀, start, run⟩ := ran
  rw [TimedStore.ofRun, foldl_filterMap]
  refine Run.simulation run (of_openDb_empty start) fun {e₁ e₂ m op} refines safe step => ?_
  have after := refines.next safe step
  cases committed : op.batch? with
  | none | some tx =>
    rw [committed] at after
    exact after

theorem reads (refines : Refines t e m) :
    (∀ key, (e.find key e.globalSeq t).1 = .ok (m.find key t)) ∧
    ∀ a b, (e.scan a b e.globalSeq t).1 = .ok (m.scan a b t) := by
  have serving := refines.settled.serving
  refine ⟨fun key => ?_, fun a b => ?_⟩
  · rw [(serving.find key e.globalSeq t).1, ← congrFun refines.current key]
    rfl
  · obtain ⟨-, entries, scanned, shown⟩ := serving.scan a b e.globalSeq t
    rw [scanned, eq_of_mem_iff (serving.pairwise_scan scanned) (m.pairwise_scan a b t)]
    intro key value
    rw [shown, TimedStore.mem_scan, ← congrFun refines.current key]
    rfl

end Refines

/-- After a safe run, reads of the latest state return what a map returns to which the committed
batches were applied in order. -/
theorem run_refines_map (ran : Ran t ops e) :
    (∀ key, (e.find key e.globalSeq t).1 = .ok ((TimedStore.ofRun ops).find key t)) ∧
      ∀ a b, (e.scan a b e.globalSeq t).1 = .ok ((TimedStore.ofRun ops).scan a b t) :=
  (Refines.of_ran ran).reads

/-- If the batches of a safe run are the texts of typed ones, then reads return the texts of the
typed database. -/
theorem run_refines_typedStore {V : Type} (text : V → Bytes) {bs : List (TypedBatch V)}
    (ran : Ran t ops e)
    (written : Forall₂ (TypedBatch.WrittenAs text) bs (ops.filterMap EngineOp.batch?)) :
    (∀ key, (e.find key e.globalSeq t).1 = .ok (((bs.foldl TypedStore.commit .empty).get? key).map
      text)) ∧ ∀ a b, (e.scan a b e.globalSeq t).1 = .ok
        (((bs.foldl TypedStore.commit .empty).range a b).map fun entry =>
        (entry.1, text entry.2)) := by
  have refines := Refines.of_ran ran
  have same : (bs.foldl TypedStore.commit .empty).texts text = TimedStore.ofRun ops :=
    TypedStore.texts_foldl written
  simpa only [← same, TypedStore.find_texts, TypedStore.scan_texts] using refines.reads

/-- A safe operation while a read at `seq` is protected: the counter is above it, and compactions
keep what it may see at time `t`. -/
def Protects (seq : ℕ) (t : UInt64) (e : Engine) (op : EngineOp) : Prop :=
  SafeBy t e op ∧ seq < e.globalSeq ∧ ∃ floor ∈ e.compactionRetentionFloor, floor ≤ seq
deriving Decidable

/-- What a snapshot or a pin protects reads the same after any run, whatever is committed, compacted
or collected meanwhile. -/
theorem protected_reads_stable (start : openDb .empty = .ok e₀)
    (run : ReflTransGen (Run.SafeStep Safe next) e₀ e)
    (later : ReflTransGen (Run.SafeStep (Protects s t) next) e e') :
    (∀ key, (e'.find key s t).1 = (e.find key s t).1) ∧ ∀ a b,
      (e'.scan a b s t).1 = (e.scan a b s t).1 := by
  have settled := settled_of_run start run
  obtain ⟨settled', same⟩ : e'.Settled ∧ e'.stateAt s t = e.stateAt s t := by
    refine Run.invariant later (I := fun e' => e'.Settled ∧ e'.stateAt s t = e.stateAt s t)
      ⟨settled, rfl⟩ ?_
    rintro e₁ e₂ op ⟨settled, same⟩ ⟨safe, earlier, floor⟩ step
    refine ⟨settled.next safe.1 step, ?_⟩
    rw [← same]
    exact settled.stateAt_next safe step (.inl floor) fun _ => earlier
  exact settled.serving.reads_congr settled'.serving same

end Engine

end

namespace Engine

open Reference Bytes

/-- An overwritten value, flushed, collected and read after a restart. -/
def sampleRun : List EngineOp :=
  [.commit sampleWrite, .commit sampleOverwrite, .beginFlush, .finishFlush 0 0,
    .garbageCollect 0 0 0, .reopen]

theorem ran_sampleRun : ∃ e, Ran 0 sampleRun e :=
  ⟨_, _, rfl, (Option.some_get (by decide +kernel)).symm⟩

theorem sampleRun_refines_map : ∃ e, Ran 0 sampleRun e ∧
    (e.find (ofString "k") e.globalSeq 0).1 = .ok (some (ofString "w")) := by
  obtain ⟨e, ran⟩ := ran_sampleRun
  refine ⟨e, ran, ?_⟩
  rw [(run_refines_map ran).1]
  decide +kernel

theorem sampleRun_refines_typedStore : ∃ e, Ran 0 sampleRun e ∧
    (e.scan [] (ofString "z") e.globalSeq 0).1 = .ok [(ofString "k", ofString "w")] := by
  obtain ⟨e, ran⟩ := ran_sampleRun
  have written : Forall₂ (TypedBatch.WrittenAs id) [.single (ofString "k") (ofString "v"),
      .single (ofString "k") (ofString "w")] (sampleRun.filterMap EngineOp.batch?) :=
    .cons ⟨rfl, rfl⟩ (.cons ⟨rfl, rfl⟩ .nil)
  refine ⟨e, ran, ?_⟩
  rw [(run_refines_typedStore id ran written).2]
  decide +kernel

theorem snapshot_reads_before_overwrite : ∃ e₀ e e', openDb .empty = .ok e₀ ∧
    ReflTransGen (Run.SafeStep Safe next) e₀ e ∧ ReflTransGen (Run.SafeStep (Protects 2 0) next) e
      e' ∧ ∀ key, (e'.find key 2 0).1 = (e.find key 2 0).1 := by
  have run := Run.safeStep_get Safe next (.ofRecovered (recoverFrom .empty .initial))
    [.commit sampleWrite, .snapshot] (by decide +kernel)
  have later := fun e => Run.safeStep_get (Protects 2 0) next e [.commit sampleOverwrite,
    .beginFlush, .finishFlush 0 0, .compactL0ToL1 0, .compactL1ToL2 0 0, .garbageCollect 0 1 0]
  exact ⟨_, _, _, rfl, run, later _ (by decide +kernel),
    (protected_reads_stable rfl run (later _ _)).1⟩

end Engine

end OmniKV
