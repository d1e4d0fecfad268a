import OmniKV.Distributed.TwoPhase

/-!
# What a participant's vote promises

A participant that votes to commit promises that a later commit message applies the batch it
prepared, once, and that until then it votes for no other transaction on the same keys. But the
batch is in memory only, a commit takes it out before it stores it, and nothing locks its keys.
-/

namespace OmniKV.TwoPhase

open List SortedMap Participant

def keysOf (tx : WriteBatch) : List Bytes := tx.bufferedWrites.map Write.key ++ tx.bufferedDeletes

/-- A participant with the batches it has promised and the transactions it has applied. -/
structure Host where
  participant : Participant
  promised : SortedMap GlobalTxnId WriteBatch
  applied : List GlobalTxnId

inductive HostAction
  | prepare (txnId : GlobalTxnId) (writes : List DistWrite) (now : UInt64) (outcome : CommitOutcome)
  | commit (txnId : GlobalTxnId) (outcome marker : CommitOutcome)
  | abort (txnId : GlobalTxnId) (marker : CommitOutcome)
  | restart

namespace Host

def initial (nodeId : ℕ) (db : TimedStore) : Host := ⟨.new nodeId db, .empty, []⟩

def next (h : Host) : HostAction → Option Host
  | .prepare txnId writes now outcome =>
    let (result, p) := h.participant.prepare txnId writes now outcome
    match stageWrites now writes, result.vote with
    | .ok batch, .commit =>
      some { h with participant := p, promised := h.promised.insert txnId batch }
    | _, _ => some { h with participant := p }
  | .commit txnId outcome marker =>
    let p := (h.participant.commit txnId outcome marker).2
    if (h.participant.prepared.get? txnId).isSome && outcome.stores then
      some ⟨p, h.promised.erase txnId, h.applied ++ [txnId]⟩
    else some { h with participant := p }
  | .abort txnId marker =>
    some { h with
      participant := h.participant.abort txnId marker, promised := h.promised.erase txnId }
  | .restart => some { h with participant := h.participant.restart }

structure Kept (h : Host) : Prop where
  /-- A commit message applies a promised batch as it is, and a second one does nothing. -/
  carried : ∀ txnId batch, h.promised.get? txnId = some batch → ∀ marker outcome' marker',
    ∃ p, h.participant.commit txnId .ok marker = (.ok (), p) ∧
      p.db = marker.commitBatch (h.participant.db.commit batch)
        (h.participant.markerBatch txnId (.ofString "COMMITTED")) ∧
      p.commit txnId outcome' marker' = (.error (p.noPrepared txnId), p)
  /-- No transaction is applied twice. -/
  once : h.applied.Nodup
  /-- No two promised batches share a key. -/
  locked : ∀ txnId batch txnId' batch', txnId ≠ txnId' → h.promised.get? txnId = some batch →
    h.promised.get? txnId' = some batch' → ∀ key ∈ keysOf batch, key ∉ keysOf batch'

/-- Prepares are of new transactions and free keys; the storage takes the batches that are
committed; no restart loses prepared batches. -/
def Safe (h : Host) : HostAction → Prop
  | .prepare txnId writes _ _ => txnId ∉ h.applied ∧ ∀ entry ∈ h.participant.prepared.entries,
    entry.1 ≠ txnId →
        ∀ write ∈ writes, write.key ∉ keysOf entry.2
  | .commit txnId outcome _ => (h.participant.prepared.get? txnId).isSome → outcome.stores = true
  | .abort .. => True
  | .restart => h.participant.prepared.entries = []

instance (h : Host) (a : HostAction) : Decidable (h.Safe a) := by
  cases a <;> unfold Safe <;> infer_instance

theorem key_of_stageWrite {now : UInt64} {batch batch' : WriteBatch} {write : DistWrite}
    (staged : stageWrite now batch write = .ok batch') {key : Bytes}
    (member : key ∈ keysOf batch') : key ∈ keysOf batch ∨ key = write.key := by
  have written : ∀ value expiry, batch.setWithExpiry write.key value expiry = .ok batch' →
      key ∈ keysOf batch ∨ key = write.key := by
    intro value expiry set
    obtain ⟨sets, deletes⟩ := WriteBatch.setWithExpiry_eq_ok set
    rw [keysOf, sets, deletes] at member
    simp only [map_append, map_singleton, mem_append, mem_singleton] at member
    rw [keysOf, mem_append]
    tauto
  rw [stageWrite] at staged
  split at staged
  · rename_i value _
    split_ifs at staged with expires
    all_goals
      split at staged
      · rename_i set
        cases staged
        exact written value _ set
      · cases staged
  · split at staged
    · rename_i deleted
      cases staged
      obtain ⟨sets, deletes⟩ := WriteBatch.delete_eq_ok deleted
      rw [keysOf, sets, deletes] at member
      simp only [mem_append, mem_singleton] at member
      rw [keysOf, mem_append]
      tauto
    · cases staged

theorem key_of_stageWrites {now : UInt64} {writes : List DistWrite} {batch : WriteBatch}
    (staged : stageWrites now writes = .ok batch) {key : Bytes}
    (member : key ∈ keysOf batch) : ∃ write ∈ writes, write.key = key := by
  refine Except.foldlM_induction (I := fun writes batch => ∀ key ∈ keysOf batch,
    ∃ write ∈ writes, write.key = key) staged nofun
    (fun {before write _ _} _ earlier first key member => ?_) key member
  obtain early | same := key_of_stageWrite first member
  · obtain ⟨write', member', same⟩ := earlier key early
    exact ⟨write', mem_append_left _ member', same⟩
  · exact ⟨write, mem_append_right _ (mem_singleton_self _), same.symm⟩

end Host

theorem Participant.prepared_commit {p : Participant} {txnId : GlobalTxnId} {batch : WriteBatch}
    (found : p.prepared.get? txnId = some batch) (outcome marker : CommitOutcome) :
    (p.commit txnId outcome marker).2.prepared = p.prepared.erase txnId := by
  rw [commit, found]
  dsimp only
  split <;> rfl

namespace Host

structure Inv (h : Host) : Prop where
  prepared : h.participant.prepared = h.promised
  resolved : ∀ txnId ∈ h.applied, h.promised.get? txnId = none
  once : h.applied.Nodup
  locked : ∀ txnId batch txnId' batch', txnId ≠ txnId' → h.promised.get? txnId = some batch →
    h.promised.get? txnId' = some batch' → ∀ key ∈ keysOf batch, key ∉ keysOf batch'

variable {h h' : Host}

theorem Inv.kept (inv : h.Inv) : h.Kept where
  once := inv.once
  locked := inv.locked
  carried txnId batch promised marker outcome' marker' := by
    have prepared : h.participant.prepared.get? txnId = some batch := inv.prepared ▸ promised
    refine ⟨_, by rw [commit, prepared]; rfl, rfl, ?_⟩
    rw [commit, get?_erase, if_pos rfl]

variable {txnId : GlobalTxnId}

theorem Inv.erase (inv : h.Inv) {p : Participant} {applied : List GlobalTxnId}
    (erased : p.prepared = h.participant.prepared.erase txnId)
    (marked : ∀ id ∈ applied, id ∈ h.applied ∨ id = txnId) (once : applied.Nodup) :
    Inv ⟨p, h.promised.erase txnId, applied⟩ := by
  refine ⟨by rw [erased, inv.prepared], fun id member => ?_, once, ?_⟩
  · rw [get?_erase]
    split_ifs with same
    · rfl
    · exact inv.resolved id ((marked id member).resolve_right same)
  · intro id batch id' batch' different found found'
    rw [get?_erase] at found found'
    split_ifs at found found'
    exact inv.locked id batch id' batch' different found found'

/-- A participant prepares the staged batch if it votes to commit, and nothing else. -/
theorem prepare_inversion {p p' : Participant} {writes : List DistWrite}
    {now : UInt64} {outcome : CommitOutcome} {result : PrepareResult}
    (prepared : p.prepare txnId writes now outcome = (result, p')) :
    (result.vote ≠ .commit ∧ p'.prepared = p.prepared) ∨
      ∃ batch, stageWrites now writes = .ok batch ∧ result.vote = .commit ∧
        p'.prepared = p.prepared.insert txnId batch := by
  rw [prepare] at prepared
  split at prepared
  · cases prepared
    exact .inl ⟨nofun, rfl⟩
  · rename_i batch staged
    split at prepared
    · cases prepared
      exact .inr ⟨batch, staged, rfl, rfl⟩
    · cases prepared
      exact .inl ⟨nofun, rfl⟩

theorem Inv.prepare (inv : h.Inv) {writes : List DistWrite} {now : UInt64}
    {outcome : CommitOutcome} (safe : h.Safe (.prepare txnId writes now outcome))
    (step : h.next (.prepare txnId writes now outcome) = some h') : h'.Inv := by
  obtain ⟨new, apart⟩ := safe
  cases prepared : h.participant.prepare txnId writes now outcome with
  | mk result p =>
    simp only [Host.next, prepared] at step
    obtain ⟨vote, same⟩ | ⟨batch, staged, vote, inserted⟩ := prepare_inversion prepared
    · have h'_eq : h' = { h with participant := p } := by
        split at step
        · rename_i commit
          exact absurd commit vote
        · exact (Option.some.inj step).symm
      subst h'_eq
      exact ⟨same.trans inv.prepared, inv.resolved, inv.once, inv.locked⟩
    · rw [staged, vote] at step
      cases step
      have others : ∀ id batch', id ≠ txnId → h.promised.get? id = some batch' →
          ∀ key ∈ keysOf batch, key ∉ keysOf batch' := by
        intro id batch' other found key member
        obtain ⟨write, written, rfl⟩ := key_of_stageWrites staged member
        rw [← inv.prepared] at found
        exact apart (id, batch') (get?_eq_some_iff.mp found) other write written
      refine ⟨by rw [inserted, inv.prepared], fun id member => ?_, inv.once, ?_⟩
      · rw [get?_insert, if_neg (show ¬id = txnId from fun same => new (same ▸ member))]
        exact inv.resolved id member
      · intro id b id' b' different found found' key member member'
        rw [get?_insert] at found found'
        split_ifs at found found' with same same'
        · exact different (same.trans same'.symm)
        · cases found
          exact others id' b' same' found' key member member'
        · cases found'
          exact others id b same found key member' member
        · exact inv.locked id b id' b' different found found' key member member'

theorem Inv.next (inv : h.Inv) {a : HostAction} (safe : h.Safe a) (step : h.next a = some h') :
    h'.Inv := by
  cases a with
  | prepare txnId writes now outcome => exact inv.prepare safe step
  | commit txnId outcome marker =>
    rw [Host.next] at step
    cases found : h.participant.prepared.get? txnId with
    | none =>
      rw [found] at step
      cases step
      rw [commit, found]
      exact inv
    | some batch =>
      have stored : outcome.stores = true := safe (by rw [found]; rfl)
      rw [found, stored] at step
      cases step
      refine inv.erase (prepared_commit found outcome marker) (fun id member => ?_) ?_
      · exact (mem_append.mp member).imp_right mem_singleton.mp
      · have open' : txnId ∉ h.applied := fun done => by
          rw [inv.prepared, inv.resolved txnId done] at found
          cases found
        exact nodup_append.mpr ⟨inv.once, nodup_singleton _, fun id old id' new same => open' (by
          rw [← mem_singleton.mp new, ← same]
          exact old)⟩
  | abort txnId marker =>
    cases step
    exact inv.erase rfl (fun id member => .inl member) inv.once
  | restart =>
    cases step
    have empty : h.promised = .empty := inv.prepared.symm.trans (SortedMap.ext safe)
    exact ⟨empty.symm, inv.resolved, inv.once, inv.locked⟩

/-- Without such restarts, failed commits and prepares on promised keys, a participant keeps its
promises. -/
theorem kept_of_run {nodeId : ℕ} {db : TimedStore}
    (run : Relation.ReflTransGen (Run.SafeStep Safe next) (initial nodeId db) h) : h.Kept := by
  have inv : h.Inv := Run.invariant run ⟨rfl, nofun, nodup_nil, nofun⟩ fun inv safe step =>
    inv.next safe step
  exact inv.kept

def sampleOther : GlobalTxnId := toLex (1, 2)

/-- A prepare of one write. -/
def samplePrepare (txnId : GlobalTxnId) (value : String) : HostAction :=
  .prepare txnId [⟨10, .ofString "k", some (.ofString value), 0⟩] 0 .ok

def sampleRestart : List HostAction := [samplePrepare sampleTxn "v", .restart]

def sampleFailure : List HostAction :=
  [samplePrepare sampleTxn "v", .commit sampleTxn (.lost .writeStall) .ok]

def sampleOverlap : List HostAction := [samplePrepare sampleTxn "v", samplePrepare sampleOther "w"]

def sampleCommit : List HostAction :=
  [samplePrepare sampleTxn "v", .commit sampleTxn .ok .ok, samplePrepare sampleOther "w"]

/-- After a restart, or a storage commit that failed, a promised batch is refused; and a promised
key is accepted twice. -/
theorem vote_not_kept : (∀ actions ∈ [sampleRestart, sampleFailure], ∃ h,
      Relation.ReflTransGen (Run.Step next) (initial 10 .empty) h ∧
      (h.promised.get? sampleTxn).isSome ∧ (h.participant.commit sampleTxn .ok .ok).1.toOption =
        none) ∧
    ∃ h, Relation.ReflTransGen (Run.Step next) (initial 10 .empty) h ∧
      ∀ txnId ∈ [sampleTxn, sampleOther],
        ∃ batch, h.promised.get? txnId = some batch ∧ .ofString "k" ∈ keysOf batch := by
  refine ⟨List.forall_mem_cons.mpr ⟨?_, List.forall_mem_singleton.mpr ?_⟩,
    _, Run.step_get sampleOverlap (by decide +kernel), by decide +kernel⟩
  · exact ⟨_, Run.step_get sampleRestart (by decide +kernel), by decide +kernel⟩
  · exact ⟨_, Run.step_get sampleFailure (by decide +kernel), by decide +kernel⟩

/-- A transaction is prepared and committed before the next one is prepared on its key. -/
theorem vote_kept_in_turn :
    ∃ h, Relation.ReflTransGen (Run.SafeStep Safe next) (initial 10 .empty) h ∧
      h.applied = [sampleTxn] ∧ (h.promised.get? sampleOther).isSome ∧ h.Kept := by
  have run := Run.safeStep_get Safe next (initial 10 .empty) sampleCommit (by decide +kernel)
  exact ⟨_, run, by decide +kernel, by decide +kernel, kept_of_run run⟩

end Host

end OmniKV.TwoPhase
