import OmniKV.Embedded.CallOrder

/-!
# The batch endpoint

The handler of `/batch` stages the operations of a request and commits them as one batch. It skips a
set without a value and drops the errors of the batch; only an operation of another name is answered
with an error.
-/

namespace OmniKV.Server

open List
open Bytes (ofString)

/-- An operation of a batch request. -/
structure BatchOp where
  op : Bytes
  key : Bytes
  value : Option Bytes

/-- An answer other than success: its status and the text of the error. -/
structure ApiError where
  status : ℕ
  error : Bytes

def sanitizeStorageErr : OmniError → Bytes
  | .batchTooLarge _ => ofString "BATCH_TOO_LARGE"
  | .valueTooLarge _ => ofString "VALUE_TOO_LARGE"
  | .unsupportedVersion _ _ => ofString "UNSUPPORTED_VERSION"
  | _ => ofString "STORAGE_ERROR"

def httpStatusForStorageErr : OmniError → ℕ
  | .batchTooLarge _ | .valueTooLarge _ => 400
  | _ => 500

/-- One round of the handler's loop. -/
def stageOp (batch : WriteBatch) (op : BatchOp) : Except ApiError WriteBatch :=
  if op.op = ofString "set" then
    match op.value with
    | some val => .ok ((batch.set op.key val).toOption.getD batch)
    | none => .ok batch
  else if op.op = ofString "delete" then .ok ((batch.delete op.key).toOption.getD batch)
  else .error ⟨400, ofString "Unknown op: " ++ op.op⟩

/-- The database after a request, and the answer: on success the sequence number. -/
def batchHandler [External] (e : Engine) (operations : List BatchOp) : Engine × Except ApiError ℕ :=
  match operations.foldlM stageOp .new with
  | .error err => (e, .error err)
  | .ok batch =>
    match e.commitBatchLocal batch with
    | .ok (e', seq) => (e', .ok seq)
    | .error err => (e, .error ⟨httpStatusForStorageErr err, sanitizeStorageErr err⟩)

namespace BatchOp

def Known (op : BatchOp) : Prop := op.op = ofString "set" ∨ op.op = ofString "delete"

/-- The call on a batch that an operation asks for, if it is well formed. -/
def call? (op : BatchOp) : Option BatchCall :=
  if op.op = ofString "set" then op.value.map (.set op.key)
  else if op.op = ofString "delete" then some (.delete op.key)
  else none

end BatchOp

open BatchOp

/-- Every operation is well formed, no value is too long, and the operations are not too many. -/
def Acceptable (operations : List BatchOp) : Prop :=
  (∀ op ∈ operations, ∃ call, op.call? = some call ∧ ∀ w ∈ call.write?,
    w.value.length ≤ maxValueSize) ∧ operations.length ≤ maxBatchSize

/-- Success means that every key reads as the last operation on it says; with an error the database
is as it was. -/
def AllOrNothing [External] (e : Engine) (operations : List BatchOp) : Prop :=
  match batchHandler e operations with
  | (e', .ok _) => Acceptable operations ∧ ∀ key call, BatchCall.last? (operations.filterMap call?)
    key = some call →
        ∀ now, (e'.find key e'.globalSeq now).1 = .ok (call.shown now)
  | (e', .error _) => e' = e

theorem stageOp_of_known {op : BatchOp} (known : op.Known) (b : WriteBatch) :
    stageOp b op = .ok (op.call?.toList.foldl WriteBatch.tryCall b) := by
  rw [stageOp, call?]
  split_ifs with set delete
  · cases op.value with
    | some val | none => rfl
  · rfl
  · exact absurd known (not_or.mpr ⟨set, delete⟩)

theorem foldlM_stageOp {operations : List BatchOp} (known : ∀ op ∈ operations, op.Known)
    (b : WriteBatch) :
    operations.foldlM stageOp b = .ok ((operations.filterMap call?).foldl WriteBatch.tryCall
      b) := by
  induction operations generalizing b with
  | nil => rfl
  | cons op operations ih =>
    obtain ⟨first, rest⟩ := forall_mem_cons.mp known
    rw [foldlM_cons, stageOp_of_known first, ← singleton_append, filterMap_append, foldl_append]
    refine (ih rest _).trans ?_
    cases called : op.call? <;> simp [called]

theorem known_of_foldlM_stageOp {operations : List BatchOp} {b batch : WriteBatch}
    (staged : operations.foldlM stageOp b = .ok batch) : ∀ op ∈ operations, op.Known := by
  induction operations generalizing b with
  | nil => exact nofun
  | cons op operations ih =>
    obtain ⟨b', first, rest⟩ := Except.bind_eq_ok staged
    refine forall_mem_cons.mpr ⟨?_, ih rest⟩
    rw [stageOp] at first
    split_ifs at first with set delete
    · exact .inl set
    · exact .inr delete

/-- A request is all or nothing exactly if it is refused, the database stalls, or all of it is
acceptable and no key is set after a delete of it. -/
theorem allOrNothing_iff [External] {e : Engine} {operations : List BatchOp} (ready : e.Ready)
    (fits : ∀ batch, operations.foldlM stageOp .new = .ok batch → e.Fits batch) :
    AllOrNothing e operations ↔
      (∃ op ∈ operations, ¬op.Known) ∨ e.l0WriteStallThreshold ≤ e.roots.sstables.length ∨
        Acceptable operations ∧ ∀ key ∈ (operations.filterMap call?).map BatchCall.key,
          BatchCall.InOrder (operations.filterMap call?) key := by
  cases staged : operations.foldlM stageOp .new with
  | error err =>
    rw [AllOrNothing, batchHandler, staged]
    refine iff_of_true rfl (.inl ?_)
    by_contra all
    push Not at all
    rw [foldlM_stageOp all] at staged
    cases staged
  | ok batch =>
    have known := known_of_foldlM_stageOp staged
    have answer : batchHandler e operations = match e.commitBatchLocal batch with
        | .ok (e', seq) => (e', .ok seq)
        | .error err => (e, .error ⟨httpStatusForStorageErr err, sanitizeStorageErr err⟩) := by
      rw [batchHandler, staged]
    rw [Engine.commitBatchLocal] at answer
    rw [AllOrNothing, answer]
    split_ifs with stall
    · exact iff_of_true rfl (.inr (.inl stall))
    have built (acceptable : Acceptable operations) :
        WriteBatch.ofCalls (operations.filterMap call?) = .ok batch := by
      rw [Except.ok.inj (staged.symm.trans (foldlM_stageOp known .new))]
      apply WriteBatch.foldlM_call_eq
      · exact (Nat.zero_add _).le.trans ((length_filterMap_le _ _).trans acceptable.2)
      · intro call member
        obtain ⟨op, listed, asked⟩ := mem_filterMap.mp member
        obtain ⟨call', asked', small⟩ := acceptable.1 op listed
        obtain rfl := Option.some.inj (asked.symm.trans asked')
        exact small
    constructor
    · rintro ⟨acceptable, shown⟩
      exact .inr (.inr ⟨acceptable, (ready.shows_last_iff (built acceptable) (fits batch staged)).mp
        shown⟩)
    · rintro (⟨op, listed, unknown⟩ | stalled | ⟨acceptable, ordered⟩)
      · exact absurd (known op listed) unknown
      · exact absurd stalled stall
      · exact ⟨acceptable, (ready.shows_last_iff (built acceptable) (fits batch staged)).mpr
          ordered⟩

namespace Sample

open Reference

/-- A set without a value after a set with one. -/
def partialRequest : List BatchOp :=
  [⟨ofString "set", ofString "k", some (ofString "v")⟩,
    ⟨ofString "set", ofString "j", none⟩]

/-- A malformed operation is skipped: the request succeeds, and the other operation is stored. -/
theorem malformed_operation_skipped :
    ∃ e₀ e' seq, Engine.openDb .empty = .ok e₀ ∧ batchHandler e₀ partialRequest = (e', .ok seq) ∧
      (e'.find (ofString "k") e'.globalSeq 0).1 = .ok (some (ofString "v")) ∧
      (e'.find (ofString "j") e'.globalSeq 0).1 = .ok none :=
  ⟨_, _, _, rfl, rfl, by decide +kernel, by decide +kernel⟩

def request : List BatchOp :=
  [⟨ofString "set", ofString "k", some (ofString "v")⟩,
    ⟨ofString "delete", ofString "j", none⟩]

theorem request_all_or_nothing : ∃ e₀, Engine.openDb .empty = .ok e₀ ∧ AllOrNothing e₀ request := by
  refine ⟨_, rfl, (allOrNothing_iff (Engine.ready_of_run rfl .refl) ?_).mpr
    (.inr (.inr ⟨?_, by decide⟩))⟩
  · intro batch staged
    cases staged
    decide +kernel
  · refine ⟨?_, by decide⟩
    simp [request, call?]
    decide

end Sample

end OmniKV.Server
