import OmniKV.Embedded.Namespace
import OmniKV.Storage.Serving

/-!
# The order of the calls on a batch

A commit numbers all sets of a batch before all deletes, so a delete also hides the sets of its key
that were called after it. Records under the key of the commit markers are never inserted.
-/

namespace OmniKV

open List WriteBatch

/-- A call on a write batch. A call with a time to live reads the clock. -/
inductive BatchCall
  | set (key value : Bytes)
  | setWithTtl (key value : Bytes) (ttl now : UInt64)
  | setWithExpiry (key value : Bytes) (expiry : UInt64)
  | delete (key : Bytes)
deriving DecidableEq

namespace BatchCall

def key : BatchCall → Bytes
  | set key _ => key
  | setWithTtl key _ _ _ => key
  | setWithExpiry key _ _ => key
  | delete key => key

def write? : BatchCall → Option Write
  | set key value => some ⟨key, value, 0⟩
  | setWithTtl key value ttl now => some ⟨key, value, if ttl > 0 then now + ttl else 0⟩
  | setWithExpiry key value expiry => some ⟨key, value, expiry⟩
  | delete _ => none

def delete? : BatchCall → Option Bytes
  | delete key => some key
  | _ => none

/-- What a reader at time `now` sees if the call decides. -/
def shown (now : UInt64) (call : BatchCall) : Option Bytes :=
  call.write?.bind fun w => if 0 < w.expiry && w.expiry ≤ now then none else some w.value

def last? (calls : List BatchCall) (key : Bytes) : Option BatchCall :=
  calls.reverse.find? fun call => call.key = key

/-- No set of the key follows a delete of it, and it is not the key of the commit markers. -/
def InOrder (calls : List BatchCall) (key : Bytes) : Prop :=
  last? calls key = some (.delete key) ∨ key ≠ commitMarkerKey ∧ .delete key ∉ calls
deriving Decidable

variable {call : BatchCall}

theorem delete?_eq_some_iff {k : Bytes} : call.delete? = some k ↔ call = .delete k := by
  cases call <;> simp [delete?]

theorem key_of_write? {w : Write} (writes : call.write? = some w) : w.key = call.key := by
  cases call <;> cases writes <;> rfl

theorem write?_eq_none_iff : call.write? = none ↔ call = .delete call.key := by
  cases call <;> simp [write?, key]

/-- A set is seen at the beginning of time. -/
theorem shown_zero {w : Write} (writes : call.write? = some w) : call.shown 0 = some w.value := by
  rw [shown, writes]
  refine if_neg fun expired => ?_
  simp only [Bool.and_eq_true, decide_eq_true_eq] at expired
  exact UInt64.not_lt.mpr expired.2 expired.1

theorem mem_of_last? {calls : List BatchCall} {key : Bytes}
    (last : last? calls key = some call) : call ∈ calls ∧ call.key = key :=
  ⟨mem_reverse.mp (mem_of_find?_eq_some last), by simpa using find?_some last⟩

theorem exists_last? {calls : List BatchCall} {key : Bytes}
    (named : key ∈ calls.map BatchCall.key) : ∃ call, last? calls key = some call := by
  obtain ⟨call, member, rfl⟩ := mem_map.mp named
  refine Option.isSome_iff_exists.mp (find?_isSome.mpr ⟨call, mem_reverse.mpr member, ?_⟩)
  exact decide_eq_true rfl

end BatchCall

open BatchCall (last? write? mem_of_last? delete?)

namespace WriteBatch

def call (b : WriteBatch) : BatchCall → Except OmniError WriteBatch
  | .set key value => b.set key value
  | .setWithTtl key value ttl now => b.setWithTtl key value ttl now
  | .setWithExpiry key value expiry => b.setWithExpiry key value expiry
  | .delete key => b.delete key

def ofCalls (calls : List BatchCall) : Except OmniError WriteBatch := calls.foldlM call new

theorem call_eq_ok {b b' : WriteBatch} {c : BatchCall} (done : b.call c = .ok b') :
    b'.bufferedWrites = b.bufferedWrites ++ c.write?.toList ∧
      b'.bufferedDeletes = b.bufferedDeletes ++ c.delete?.toList := by
  cases c with
  | set key value | setWithTtl key value ttl now | setWithExpiry key value expiry =>
    obtain ⟨sets, deletes⟩ := setWithExpiry_eq_ok done
    exact ⟨sets, by simp [deletes, delete?]⟩
  | delete key =>
    obtain ⟨sets, deletes⟩ := delete_eq_ok done
    exact ⟨by simp [sets, write?], deletes⟩

/-- A call whose error is dropped. -/
def tryCall (b : WriteBatch) (c : BatchCall) : WriteBatch := (b.call c).toOption.getD b

theorem exists_call {b : WriteBatch} {c : BatchCall} (room : b.opCount < maxBatchSize)
    (small : ∀ w ∈ c.write?, w.value.length ≤ maxValueSize) :
    ∃ b', b.call c = .ok b' ∧ b'.opCount = b.opCount + 1 := by
  have sets {key value expiry} (small : value.length ≤ maxValueSize) :
      ∃ b', b.setWithExpiry key value expiry = .ok b' ∧ b'.opCount = b.opCount + 1 := by
    refine ⟨_, (dif_neg (not_le.mpr room)).trans (dif_neg (not_lt.mpr small)), ?_⟩
    simp [opCount]
    omega
  cases c with
  | set key value | setWithTtl key value ttl now | setWithExpiry key value expiry =>
    exact sets (small _ rfl)
  | delete key =>
    refine ⟨_, dif_neg (not_le.mpr room), ?_⟩
    simp [opCount]
    omega

/-- Calls within the limits have no errors to drop. -/
theorem foldlM_call_eq {calls : List BatchCall} {b : WriteBatch}
    (room : b.opCount + calls.length ≤ maxBatchSize)
    (small : ∀ c ∈ calls, ∀ w ∈ c.write?, w.value.length ≤ maxValueSize) :
    calls.foldlM call b = .ok (calls.foldl tryCall b) := by
  induction calls generalizing b with
  | nil => rfl
  | cons c calls ih =>
    rw [length_cons] at room
    obtain ⟨b', done, count⟩ := exists_call (b := b) (by omega) (small c mem_cons_self)
    rw [foldlM_cons, foldl_cons, tryCall, done]
    exact ih (by omega) fun c' member => small c' (mem_cons_of_mem c member)

theorem ofCalls_eq_ok {calls : List BatchCall} {tx : WriteBatch} (built : ofCalls calls = .ok tx) :
    tx.bufferedWrites = calls.filterMap write? ∧ tx.bufferedDeletes = calls.filterMap delete? := by
  refine Except.foldlM_induction (I := fun seen b => b.bufferedWrites = seen.filterMap write? ∧
    b.bufferedDeletes = seen.filterMap delete?) built ⟨rfl, rfl⟩ ?_
  rintro seen c b b' - ⟨sets, deletes⟩ step
  obtain ⟨sets', deletes'⟩ := call_eq_ok step
  simp only [filterMap_append, sets', deletes', sets, deletes]
  cases c with
  | set key value | setWithTtl key value ttl now | setWithExpiry key value expiry | delete key =>
    exact ⟨rfl, rfl⟩

variable {calls : List BatchCall} {tx : WriteBatch} {key : Bytes} (built : ofCalls calls = .ok tx)

include built

theorem mem_deletes_iff : key ∈ tx.bufferedDeletes ↔ .delete key ∈ calls := by
  rw [(ofCalls_eq_ok built).2, mem_filterMap]
  constructor
  · rintro ⟨call, member, deletes⟩
    exact BatchCall.delete?_eq_some_iff.mp deletes ▸ member
  · exact fun member => ⟨_, member, rfl⟩

theorem lastSet?_of_last? (noDelete : .delete key ∉ calls) :
    tx.lastSet? key = (last? calls key).bind write? := by
  rw [lastSet?, (ofCalls_eq_ok built).1, ← filterMap_reverse, find?_filterMap, last?]
  congr 1
  rw [← head?_filter, ← head?_filter]
  refine congrArg List.head? (filter_congr fun call member => ?_)
  cases writes : call.write? with
  | none =>
    have other : call.key ≠ key := by
      rintro rfl
      exact noDelete (BatchCall.write?_eq_none_iff.mp writes ▸ mem_reverse.mp member)
    simp [other]
  | some w => simp [BatchCall.key_of_write? writes]

theorem exists_op {call : BatchCall} (last : last? calls key = some call) :
    ∃ op ∈ tx.ops, op.1 = key := by
  obtain ⟨member, named⟩ := mem_of_last? last
  obtain ⟨sets, -⟩ := ofCalls_eq_ok built
  cases writes : call.write? with
  | none =>
    rw [BatchCall.write?_eq_none_iff.mp writes, named] at member
    exact ⟨(key, none), mem_append_right _ (mem_map.mpr ⟨key, (mem_deletes_iff built).mpr member,
      rfl⟩), rfl⟩
  | some w =>
    have buffered : w ∈ tx.bufferedWrites := sets ▸ mem_filterMap.mpr ⟨call, member, writes⟩
    exact ⟨(w.key, some w), mem_append_left _ (mem_map.mpr ⟨w, buffered, rfl⟩),
      (BatchCall.key_of_write? writes).trans named⟩

/-- Deletes win over sets, wherever they were called. -/
theorem effect_of_last? {call : BatchCall} (last : last? calls key = some call) (now : UInt64)
    (σ : KvState) : tx.effect now σ key = if .delete key ∈ calls then none else call.shown now := by
  rw [effect, find?_reverse_ops, if_congr (mem_deletes_iff built) rfl rfl]
  split_ifs with deleted
  · rfl
  · obtain ⟨member, named⟩ := mem_of_last? last
    cases writes : call.write? with
    | none =>
      rw [BatchCall.write?_eq_none_iff.mp writes, named] at member
      exact absurd member deleted
    | some w =>
      rw [lastSet?_of_last? built deleted, last, Option.bind_some, writes, Option.map_some,
        BatchCall.shown, writes]
      rfl

end WriteBatch

section

variable [External]

namespace Engine

/-- Lookups are exact, nothing behind the heap is cached, and no version has the key of the
commit markers. -/
structure Ready (e : Engine) : Prop where
  exact : e.Exact
  cached : ∀ offset bytes, e.blockCache offset = some bytes → offset < e.heapOffset
  plain : ∀ v ∈ e.roots.versions, v.key ≠ commitMarkerKey

theorem ready_of_run {e₀ e : Engine} (start : openDb .empty = .ok e₀)
    (run : Relation.ReflTransGen (Run.SafeStep Safe next) e₀ e) : e.Ready := by
  have settled := settled_of_run start run
  exact ⟨settled.serving.exact, fun offset bytes hit => (settled.serving.cached offset bytes hit).1,
    settled.plain⟩

namespace Ready

variable {e : Engine} {tx : WriteBatch}

theorem find_committed (ready : e.Ready) (fits : e.Fits tx) {key : Bytes}
    (user : key ≠ commitMarkerKey) (named : ∃ op ∈ tx.ops, op.1 = key) (now : UInt64) :
    ((e.committed tx).find key (e.committed tx).globalSeq now).1 =
      .ok (tx.effect now (e.current now) key) := by
  obtain ⟨op, last⟩ : ∃ op, (tx.ops.reverse.find? fun op => op.1 = key) = some op := by
    obtain ⟨op, member, here⟩ := named
    exact Option.isSome_iff_exists.mp (find?_isSome.mpr ⟨op, mem_reverse.mpr member,
      decide_eq_true here⟩)
  have counter := globalSeq_committed_of_lt fits.1
  have later : e.globalSeq + tx.opCount ≤ (e.committed tx).globalSeq + 1 := by omega
  have before : e.current now = e.stateAt (e.globalSeq - 1) now :=
    ready.exact.stateAt_latest now (by omega) (by omega)
  obtain ⟨r, new, newest, -⟩ := ready.exact.isNewest_committed fits user last later
  have exact' := ready.exact.committed fits
  rw [before, ← ready.exact.stateAt_committed_apply fits (fun _ _ _ => user) later now, Engine.find,
    stateAt, exact'.ordered.readable.find_eq_some_iff.mpr newest, Option.bind_some]
  simp only
  split_ifs with dead
  · rfl
  · have live := not_isTombstone_of_not_dead dead
    have miss : (e.committed tx).blockCache r.version.pointer.offset = none := by
      have behind : e.heapOffset ≤ r.version.pointer.offset :=
        Serving.le_offset_nextBatch fits (mem_filter.mp new).1 live
      exact Option.eq_none_iff_forall_ne_some.mpr fun bytes hit =>
        absurd (ready.cached _ bytes hit) (not_lt.mpr behind)
    obtain ⟨value, read⟩ := exact'.values _ newest.mem live
    rw [readFromHeap, miss, read]
    rfl

theorem find_commitMarkerKey (ready : e.Ready) (fits : e.Fits tx) (seq : ℕ) (now : UInt64) :
    ((e.committed tx).find commitMarkerKey seq now).1 = .ok none := by
  have absent : (e.committed tx).roots.find commitMarkerKey seq = none := by
    refine Option.eq_none_iff_forall_ne_some.mpr fun v found => ?_
    have newest := (ready.exact.committed fits).ordered.readable.find_eq_some_iff.mp found
    obtain old | ⟨r, hr, rfl⟩ := (ready.exact.mem_versions_committed fits).mp newest.mem
    · exact ready.plain v old newest.key_eq
    · exact of_decide_eq_true (mem_filter.mp hr).2 newest.key_eq
  rw [Engine.find, absent]

/-- Every key of the calls reads as its last call says if no key is set after a delete of it. -/
theorem shows_last_iff {calls : List BatchCall} (ready : e.Ready) (built : ofCalls calls = .ok tx)
    (fits : e.Fits tx) : (∀ key call, last? calls key = some call →
        ∀ now, ((e.committed tx).find key (e.committed tx).globalSeq now).1 =
          .ok (call.shown now)) ↔ ∀ key ∈ calls.map BatchCall.key, BatchCall.InOrder calls key := by
  -- What is read where the last call is known.
  have read : ∀ key call, last? calls key = some call → key ≠ commitMarkerKey → ∀ now,
      ((e.committed tx).find key (e.committed tx).globalSeq now).1 =
        .ok (if .delete key ∈ calls then none else call.shown now) := by
    intro key call last user now
    rw [ready.find_committed fits user (exists_op built last) now, effect_of_last? built last]
  constructor
  · intro visible key named
    obtain ⟨call, last⟩ := BatchCall.exists_last? named
    obtain ⟨-, here⟩ := mem_of_last? last
    cases writes : call.write? with
    | none =>
      left
      rw [last, BatchCall.write?_eq_none_iff.mp writes, here]
    | some w =>
      have seen := visible key call last 0
      rw [BatchCall.shown_zero writes] at seen
      refine .inr ⟨?_, fun deleted => ?_⟩
      · rintro rfl
        rw [ready.find_commitMarkerKey fits] at seen
        cases seen
      · by_cases user : key = commitMarkerKey
        · rw [user, ready.find_commitMarkerKey fits] at seen
          cases seen
        · rw [read key call last user, if_pos deleted] at seen
          cases seen
  · intro ordered key call last now
    obtain ⟨member, here⟩ := mem_of_last? last
    obtain deleted | ⟨user, noDelete⟩ := ordered key (mem_map.mpr ⟨call, member, here⟩)
    · obtain rfl := Option.some.inj (last.symm.trans deleted)
      by_cases user : key = commitMarkerKey
      · rw [user, ready.find_commitMarkerKey fits]
        rfl
      · rw [read key _ last user, if_pos member]
        rfl
    · rw [read key call last user, if_neg noDelete]

end Ready

end Engine

end

namespace Embedded

def EmbeddedWrite.call (ns : Option Bytes) (now : UInt64) :
    EmbeddedWrite → Except EmbeddedError BatchCall
  | .put key value => (storageKey ns key).map fun k => .set k value
  | .putWithTtl key value ttlSecs => (storageKey ns key).map fun k =>
    .setWithTtl k value ttlSecs now
  | .delete key => (storageKey ns key).map .delete

variable {ns : Option Bytes} {now : UInt64}

theorem stage_eq_ok {b b' : WriteBatch} {operation : EmbeddedWrite}
    (staged : stage ns now b operation = .ok b') : ∃ c, operation.call ns now = .ok c ∧
    b.call c = .ok b' := by
  cases operation with
  | put key value =>
    obtain ⟨k, named, done⟩ := Except.bind_eq_ok staged
    exact ⟨.set k value, by rw [EmbeddedWrite.call, named]; rfl, Except.mapError_eq_ok done⟩
  | putWithTtl key value ttlSecs =>
    obtain ⟨k, named, done⟩ := Except.bind_eq_ok staged
    exact ⟨.setWithTtl k value ttlSecs now, by rw [EmbeddedWrite.call, named]; rfl,
      Except.mapError_eq_ok done⟩
  | delete key =>
    obtain ⟨k, named, done⟩ := Except.bind_eq_ok staged
    exact ⟨.delete k, by rw [EmbeddedWrite.call, named]; rfl, Except.mapError_eq_ok done⟩

theorem foldlM_stage_eq_ok {operations : List EmbeddedWrite} {b tx : WriteBatch}
    (staged : operations.foldlM (stage ns now) b = .ok tx) :
    ∃ calls, operations.mapM (EmbeddedWrite.call ns now) = .ok calls ∧
      calls.foldlM call b = .ok tx := by
  induction operations generalizing b with
  | nil =>
    cases staged
    exact ⟨[], rfl, rfl⟩
  | cons operation operations ih =>
    obtain ⟨b', first, rest⟩ := Except.bind_eq_ok staged
    obtain ⟨c, called, done⟩ := stage_eq_ok first
    obtain ⟨calls, mapped, built⟩ := ih rest
    refine ⟨c :: calls, ?_, ?_⟩
    · rw [mapM_cons, called, mapped]
      rfl
    · rw [foldlM_cons, done]
      exact built

end Embedded

/-- After a commit every key reads as its last call says exactly if no key is set after a delete of
it, and the key of the commit markers is not set. -/
theorem last_call_visible_iff [External] :
    (∀ {e e' : Engine} {calls : List BatchCall} {tx : WriteBatch} {seq : ℕ}, e.Ready →
      ofCalls calls = .ok tx → e.Fits tx → e.commitBatchLocal tx = .ok (e', seq) →
      ((∀ key call, last? calls key = some call → ∀ now, (e'.find key e'.globalSeq now).1 =
        .ok (call.shown now)) ↔ ∀ key ∈ calls.map BatchCall.key, BatchCall.InOrder calls key)) ∧
    ∀ {ns : Option Bytes} {now : UInt64} {operations : List Embedded.EmbeddedWrite}
      {tx : WriteBatch}, operations.foldlM (Embedded.stage ns now) .new = .ok tx →
      ∃ calls, operations.mapM (Embedded.EmbeddedWrite.call ns now) = .ok calls ∧
      ofCalls calls = .ok tx := by
  refine ⟨fun ready built fits done => ?_, Embedded.foldlM_stage_eq_ok⟩
  obtain ⟨-, rfl, -⟩ := Engine.commitBatchLocal_eq_ok done
  exact ready.shows_last_iff built fits

namespace CallOrder

open Reference

/-- A set after a delete of the same key. -/
def calls : List BatchCall :=
  [.delete (Bytes.ofString "k"), .set (Bytes.ofString "k") (Bytes.ofString "v")]

/-- The last call sets `k`, and after the commit `k` is absent. -/
theorem set_after_delete_lost : ∃ e₀ e' tx seq, Engine.openDb .empty = .ok e₀ ∧
    ofCalls calls = .ok tx ∧ e₀.commitBatchLocal tx = .ok (e', seq) ∧
      last? calls (Bytes.ofString "k") = some (.set (Bytes.ofString "k") (Bytes.ofString "v")) ∧
      (e'.find (Bytes.ofString "k") e'.globalSeq 0).1 = .ok none :=
  ⟨_, _, _, _, rfl, rfl, Except.eq_ok_get (by decide +kernel), by decide, by decide +kernel⟩

/-- A delete after a set, and two sets of another key. -/
def ordered : List BatchCall :=
  [.set (Bytes.ofString "k") (Bytes.ofString "v"), .set (Bytes.ofString "j") (Bytes.ofString "v"),
    .delete (Bytes.ofString "k"), .setWithExpiry (Bytes.ofString "j") (Bytes.ofString "w") 7]

theorem ordered_calls_visible : ∃ e₀ e' tx seq, Engine.openDb .empty = .ok e₀ ∧
    ofCalls ordered = .ok tx ∧
      e₀.commitBatchLocal tx = .ok (e', seq) ∧ ∀ key call, last? ordered key = some call →
        ∀ now, (e'.find key e'.globalSeq now).1 = .ok (call.shown now) := by
  refine ⟨_, _, _, _, rfl, rfl, Except.eq_ok_get (by decide +kernel), ?_⟩
  exact (last_call_visible_iff.1 (Engine.ready_of_run rfl .refl) rfl (by decide +kernel)
    (Except.eq_ok_get (by decide +kernel))).mpr (by decide)

end CallOrder

end OmniKV
