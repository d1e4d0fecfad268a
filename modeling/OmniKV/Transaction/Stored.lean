import OmniKV.Data.Serial
import OmniKV.Transaction.Manager

/-!
# What transactions store and see

A store without expiring values has one state for each sequence number, and commits leave
the states of earlier numbers alone. A commit of a transaction lays its buffered writes
over the latest state.
-/

namespace OmniKV

open Versioned Serial List

section

variable [External]

namespace Engine

/-- Reads are exact, numbers are above zero, and no stored value expires. -/
structure Steady (e : Engine) : Prop where
  serving : e.Serving
  pos : 0 < e.globalSeq
  timeless : ∀ v ∈ e.roots.versions, ¬v.IsTombstone → v.pointer.expiry = 0

/-- The state that readers at `seq` see, at any time if no value expires. -/
def view (e : Engine) (seq : ℕ) : KvState := e.stateAt seq 0

def latest (e : Engine) : KvState := e.view (e.globalSeq - 1)

/-- Readers of `e` see the same in `e'`. -/
structure Extends (e e' : Engine) : Prop where
  seq_le : e.globalSeq ≤ e'.globalSeq
  view_eq : ∀ seq < e.globalSeq, e'.view seq = e.view seq

variable {e e' : Engine} {tx : WriteBatch}

theorem Extends.trans {e'' : Engine} (first : Extends e e') (second : Extends e' e'') :
    Extends e e'' :=
  ⟨first.seq_le.trans second.seq_le, fun seq bound =>
    (second.view_eq seq (bound.trans_le first.seq_le)).trans (first.view_eq seq bound)⟩

namespace Steady

theorem stateAt_eq (steady : e.Steady) (seq : ℕ) (now : UInt64) :
    e.stateAt seq now = e.view seq := by
  funext key
  rw [view, stateAt, stateAt]
  cases found : e.roots.find key seq with
  | none => rfl
  | some v =>
    have member := (steady.serving.ordered.readable.find_eq_some_iff.mp found).mem
    have same : v.dead now = v.dead 0 := by
      by_cases tombstone : v.IsTombstone
      · simp [Version.dead, show v.pointer.length = 0 from tombstone]
      · simp [Version.dead, steady.timeless v member tombstone]
    rw [Option.bind_some, Option.bind_some, same]

/-- A new database. -/
theorem of_openDb_empty (opened : openDb .empty = .ok e) : e.Steady := by
  refine ⟨serving_of_openDb_empty opened, ?_, fun v member =>
    absurd member (versions_of_openDb_empty opened v)⟩
  cases opened
  exact Nat.one_pos

/-- Steps that change neither data nor counters. -/
theorem of_sameData (steady : e.Steady) (same : SameData e e') (serving : e'.Serving) : e'.Steady :=
  ⟨serving, same.globalSeq ▸ steady.pos, same.roots ▸ steady.timeless⟩

end Steady

theorem extends_of_sameData (same : SameData e e') : Extends e e' :=
  ⟨same.globalSeq.ge, fun seq _ => stateAt_of_sameData same seq 0⟩

theorem latest_of_sameData (same : SameData e e') : e'.latest = e.latest := by
  rw [latest, same.globalSeq]
  exact stateAt_of_sameData same _ 0

omit [External] in
theorem blockCache_unregisterSnapshot (e : Engine) (seq : ℕ) :
    (e.unregisterSnapshot seq).blockCache = e.blockCache := by
  rw [unregisterSnapshot]
  split
  · rfl
  · split_ifs <;> rfl

theorem Serving.unregisterSnapshot (serving : e.Serving) (seq : ℕ) :
    (e.unregisterSnapshot seq).Serving := by
  refine serving.of_sameData (sameData_unregisterSnapshot e seq) ?_
  rw [blockCache_unregisterSnapshot]
  exact serving.cached

theorem Steady.unregisterSnapshot (steady : e.Steady) (seq : ℕ) :
    (e.unregisterSnapshot seq).Steady :=
  steady.of_sameData (sameData_unregisterSnapshot e seq) (steady.serving.unregisterSnapshot seq)

theorem Steady.committed (steady : e.Steady) (plain : tx.Plain) (fits : e.Fits tx)
    (forever : ∀ w ∈ tx.bufferedWrites, w.expiry = 0) : (e.committed tx).Steady := by
  refine ⟨steady.serving.committed plain.2 fits, ?_, fun v member live => ?_⟩
  · rw [globalSeq_committed_of_lt fits.1]
    omega
  · obtain old | ⟨r, hr, rfl⟩ := (steady.serving.exact.mem_versions_committed fits).mp member
    · exact steady.timeless v old live
    · obtain ⟨i, ⟨key, op⟩, here, -, realizes⟩ :=
        steady.serving.exact.op_of_record fits (mem_filter.mp hr).1
      cases op with
      | none => exact absurd (realizes.tombstone rfl) live
      | some w =>
        have member : (key, some w) ∈ tx.ops := mem_of_getElem? here
        have written : w ∈ tx.bufferedWrites := by
          simp only [WriteBatch.ops, mem_append, mem_map] at member
          obtain ⟨w', hw, same⟩ | ⟨_, _, same⟩ := member
          · obtain rfl : w' = w := by simpa using congrArg Prod.snd same
            exact hw
          · simp at same
        exact (realizes.value w rfl).2.1.trans (forever w written)

variable (serving : e.Serving) (fits : e.Fits tx)

include serving fits

theorem extends_committed : Extends e (e.committed tx) := by
  refine ⟨?_, fun seq earlier => serving.exact.stateAt_committed_of_lt fits earlier 0⟩
  rw [globalSeq_committed_of_lt fits.1]
  omega

omit fits in
theorem latest_committed (plain : tx.Plain) (fits : e.Fits tx) :
    (e.committed tx).latest = tx.effect 0 e.latest := by
  have seq := globalSeq_committed_of_lt fits.1
  exact serving.exact.stateAt_committed plain.1 fits (by omega) 0

omit serving in
theorem seq_marker_nextBatch : (e.nextBatch tx).marker.seq = e.globalSeq + tx.opCount := by
  have room := fits.1
  exact wrap64_of_lt (by omega)

omit fits in
theorem heap_abandoned (tx : WriteBatch) (written : ℕ) : (e.abandoned tx written).heap =
      Bytes.writeAt e.heap (wrap64 e.heapOffset) (tx.payloads.take written) := by
  obtain ⟨file, present⟩ := Option.isSome_iff_exists.mp serving.file
  rw [heap, heap, Files.read, Files.read]
  simp [abandoned, reserve, serving.reader, Files.write, present]

theorem Serving.abandoned (written : ℕ) : (e.abandoned tx written).Serving := by
  have heap := heap_abandoned serving tx written
  rw [fits.wrap64_heapOffset] at heap
  have old : ∀ v ∈ e.roots.versions, ¬v.IsTombstone →
    ∀ value, readPointer e.heap v.pointer = .ok value →
        readPointer (e.abandoned tx written).heap v.pointer = .ok value := by
    intro v hv live value read
    rw [heap]
    exact readPointer_writeAt _ _ read serving.heapEnd
  have seq : (e.abandoned tx written).globalSeq = e.globalSeq + (tx.opCount + 1) :=
    wrap64_of_lt fits.1
  have offset : (e.abandoned tx written).heapOffset = e.heapOffset + tx.totalHeapBytes :=
    wrap64_of_lt fits.2
  refine ⟨serving.ordered, fun v hv => ?_, serving.reader, ?_, ?_, fun v hv live => ?_,
    serving.apart, fun o bytes hit => ?_⟩
  · have := serving.below v hv
    omega
  · simpa [Engine.abandoned, reserve, Files.write] using serving.file
  · rw [heap, offset, ← tx.length_payloads]
    have short : (tx.payloads.take written).length ≤ tx.payloads.length := length_take_le' ..
    have := serving.heapEnd
    exact (Bytes.length_writeAt_le ..).trans (by omega)
  · obtain ⟨filled, value, read⟩ := serving.values v hv live
    exact ⟨filled, value, old v hv live value read⟩
  · obtain ⟨bound, right⟩ := serving.cached o bytes hit
    exact ⟨by omega, fun v hv live here => old v hv live bytes (right v hv live here)⟩

theorem view_abandoned (written seq : ℕ) : (e.abandoned tx written).view seq = e.view seq := by
  funext key
  refine serving.exact.stateAt_congr (serving.abandoned fits written).exact (fun v => Iff.rfl)
    (fun v hv live value read => ?_) 0
  rw [heap_abandoned serving, fits.wrap64_heapOffset]
  exact readPointer_writeAt _ _ read serving.heapEnd

omit serving fits in
theorem Steady.abandoned (steady : e.Steady) (fits : e.Fits tx) (written : ℕ) :
    (e.abandoned tx written).Steady := by
  refine ⟨steady.serving.abandoned fits written, ?_, steady.timeless⟩
  have seq : (e.abandoned tx written).globalSeq = e.globalSeq + (tx.opCount + 1) :=
    wrap64_of_lt fits.1
  omega

theorem extends_abandoned (written : ℕ) : Extends e (e.abandoned tx written) := by
  refine ⟨?_, fun seq _ => view_abandoned serving fits written seq⟩
  have seq : (e.abandoned tx written).globalSeq = e.globalSeq + (tx.opCount + 1) :=
    wrap64_of_lt fits.1
  omega

theorem latest_abandoned (written : ℕ) : (e.abandoned tx written).latest = e.latest := by
  have seq : (e.abandoned tx written).globalSeq = e.globalSeq + (tx.opCount + 1) :=
    wrap64_of_lt fits.1
  rw [latest, view_abandoned serving fits]
  exact serving.exact.stateAt_latest 0 (by omega) (by omega)

end Engine

end

namespace Transaction

/-- The buffered writes, without their times to live. -/
def buffer (txn : Transaction) : Bytes → Option (Option Bytes) := fun key =>
  (txn.writeSet.get? key).map Prod.fst

/-- The sets that a buffered write stages, if it has no time to live. -/
def setOf : Bytes × (Option Bytes × UInt64) → Option Write
  | (key, some value, _) => some ⟨key, value, 0⟩
  | (_, none, _) => none

def deleteOf : Bytes × (Option Bytes × UInt64) → Option Bytes
  | (_, some _, _) => none
  | (key, none, _) => some key

variable {now : UInt64} {batch batch' : WriteBatch}

theorem stageWrite_eq_ok {entry : Bytes × (Option Bytes × UInt64)} (forever : entry.2.2 = 0)
    (staged : stageWrite now batch entry = .ok batch') :
    batch'.bufferedWrites = batch.bufferedWrites ++ (setOf entry).toList ∧
      batch'.bufferedDeletes = batch.bufferedDeletes ++ (deleteOf entry).toList := by
  obtain ⟨key, value, ttl⟩ := entry
  obtain rfl : ttl = 0 := forever
  cases value with
  | some value =>
    rw [stageWrite, if_neg (by decide), WriteBatch.set, WriteBatch.setWithExpiry] at staged
    split_ifs at staged
    cases staged
    simp [setOf, deleteOf]
  | none =>
    simp only [stageWrite, WriteBatch.delete] at staged
    split_ifs at staged
    cases staged
    simp [setOf, deleteOf]

theorem foldlM_stageWrite {entries : List (Bytes × (Option Bytes × UInt64))}
    (forever : ∀ entry ∈ entries, entry.2.2 = 0)
    (staged : entries.foldlM (stageWrite now) batch = .ok batch') :
    batch'.bufferedWrites = batch.bufferedWrites ++ entries.filterMap setOf ∧
      batch'.bufferedDeletes = batch.bufferedDeletes ++ entries.filterMap deleteOf := by
  induction entries generalizing batch with
  | nil =>
    obtain rfl : batch = batch' := Except.ok.inj staged
    simp
  | cons entry rest ih =>
    rw [foldlM_cons] at staged
    obtain ⟨middle, first, staged⟩ := Except.bind_eq_ok staged
    obtain ⟨writes, deletes⟩ := ih (fun e he => forever e (mem_cons_of_mem _ he)) staged
    obtain ⟨writes₁, deletes₁⟩ := stageWrite_eq_ok (forever entry mem_cons_self) first
    rw [writes, deletes, writes₁, deletes₁]
    cases set : setOf entry <;> cases delete : deleteOf entry <;> simp [set, delete]

/-- No buffered write has a time to live, an empty value or the key of the markers. -/
def Plain (txn : Transaction) : Prop :=
  ∀ key value ttl, (key, value, ttl) ∈ txn.writeSet →
    ttl = 0 ∧ key ≠ commitMarkerKey ∧ value ≠ some []

variable {txn : Transaction}

theorem mem_ops_buildWriteBatch (plain : txn.Plain) (built : txn.buildWriteBatch now = .ok batch)
    {key : Bytes} {action : Option Write} : (key, action) ∈ batch.ops ↔
      ∃ value, txn.buffer key = some value ∧ action = value.map fun v => ⟨key, v, 0⟩ := by
  have forever : ∀ entry ∈ txn.writeSet.entries, entry.2.2 = 0 := fun entry member =>
    (plain entry.1 entry.2.1 entry.2.2 member).1
  obtain ⟨writes, deletes⟩ := foldlM_stageWrite forever built
  rw [show WriteBatch.new.bufferedWrites = [] from rfl, nil_append] at writes
  rw [show WriteBatch.new.bufferedDeletes = [] from rfl, nil_append] at deletes
  rw [WriteBatch.ops, writes, deletes]
  simp only [mem_append, mem_map, mem_filterMap, buffer, Option.map_eq_some_iff,
    SortedMap.get?_eq_some_iff]
  constructor
  · rintro (⟨w, ⟨⟨k, value, ttl⟩, member, set⟩, same⟩ | ⟨k, ⟨⟨k', value, ttl⟩, member, delete⟩,
      same⟩)
    · cases value with
      | none => simp [setOf] at set
      | some v =>
        obtain rfl : (⟨k, v, 0⟩ : Write) = w := by simpa [setOf] using set
        cases same
        exact ⟨some v, ⟨(some v, ttl), member, rfl⟩, rfl⟩
    · cases value with
      | some v => simp [deleteOf] at delete
      | none =>
        obtain rfl : k' = k := by simpa [deleteOf] using delete
        cases same
        exact ⟨none, ⟨(none, ttl), member, rfl⟩, rfl⟩
  · rintro ⟨value, ⟨⟨value', ttl⟩, member, rfl⟩, rfl⟩
    cases value' with
    | some v => exact .inl ⟨⟨key, v, 0⟩, ⟨(key, some v, ttl), member, rfl⟩, rfl⟩
    | none => exact .inr ⟨key, ⟨(key, none, ttl), member, rfl⟩, rfl⟩

theorem mem_ops_of_mem_bufferedWrites {w : Write} (member : w ∈ batch.bufferedWrites) :
    (w.key, some w) ∈ batch.ops :=
  mem_append.mpr (.inl (mem_map.mpr ⟨w, member, rfl⟩))

theorem plain_buildWriteBatch (plain : txn.Plain) (built : txn.buildWriteBatch now = .ok batch) :
    batch.Plain ∧ ∀ w ∈ batch.bufferedWrites, w.expiry = 0 := by
  have stored : ∀ op ∈ batch.ops, ∃ value ttl, (op.1, value, ttl) ∈ txn.writeSet ∧
      op.2 = value.map fun v => ⟨op.1, v, 0⟩ := by
    intro op member
    obtain ⟨value, buffered, same⟩ := (mem_ops_buildWriteBatch plain built).mp member
    obtain ⟨⟨value', ttl⟩, found, rfl⟩ := Option.map_eq_some_iff.mp buffered
    exact ⟨value', ttl, SortedMap.get?_eq_some_iff.mp found, same⟩
  refine ⟨⟨fun op member => ?_, fun w member => ?_⟩, fun w member => ?_⟩
  · obtain ⟨value, ttl, inside, -⟩ := stored op member
    exact (plain op.1 value ttl inside).2.1
  · obtain ⟨value, ttl, inside, same⟩ := stored _ (mem_ops_of_mem_bufferedWrites member)
    cases value with
    | none => cases same
    | some v =>
      have filled := (plain w.key (some v) ttl inside).2.2
      rw [Option.some.inj same]
      exact fun empty => filled (congrArg some empty)
  · obtain ⟨value, ttl, -, same⟩ := stored _ (mem_ops_of_mem_bufferedWrites member)
    cases value with
    | none => cases same
    | some v => rw [Option.some.inj same]

theorem effect_buildWriteBatch (plain : txn.Plain) (built : txn.buildWriteBatch now = .ok batch)
    (time : UInt64) (σ : KvState) : batch.effect time σ = Serial.overlay txn.buffer σ := by
  funext key
  rw [WriteBatch.effect, Serial.overlay]
  cases last : batch.ops.reverse.find? fun op => op.1 = key with
  | none =>
    have unwritten : txn.buffer key = none := by
      by_contra written
      obtain ⟨value, buffered⟩ := Option.ne_none_iff_exists'.mp written
      have member := (mem_ops_buildWriteBatch plain built).mpr ⟨value, buffered, rfl⟩
      simpa using find?_eq_none.mp last _ (mem_reverse.mpr member)
    rw [unwritten]
    rfl
  | some op =>
    obtain ⟨key', action⟩ := op
    obtain rfl : key' = key := by simpa using find?_some last
    have member := mem_reverse.mp (mem_of_find?_eq_some last)
    obtain ⟨value, buffered, rfl⟩ := (mem_ops_buildWriteBatch plain built).mp member
    rw [buffered]
    cases value <;> rfl

end Transaction

end OmniKV
