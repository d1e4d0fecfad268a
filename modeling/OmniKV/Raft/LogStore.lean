import OmniKV.Raft.Types

/-!
# The log store

Raft keeps its log entries, by index, and one metadata record in the store. A call on the log stages
sets or deletions in a batch, commits the batch whenever it is full, and puts the metadata, which it
has changed in memory, into the last batch.
-/

namespace OmniKV

open List

structure RaftStore where
  log : SortedMap ℕ Entry
  metaRecord : Option RaftStateMeta

inductive LogOp
  | set (entry : Entry)
  | delete (index : ℕ)

def LogOp.apply (log : SortedMap ℕ Entry) : LogOp → SortedMap ℕ Entry
  | .set entry => log.insert entry.logId.index entry
  | .delete index => log.filter fun e => e.1 ≠ index

/-- A batch of one call: sets only or deletions only, and possibly the metadata. -/
structure RaftBatch where
  ops : List LogOp
  saved : Option RaftStateMeta

namespace RaftBatch

def new : RaftBatch := ⟨[], none⟩

def saveMeta (batch : RaftBatch) (state : RaftStateMeta) : RaftBatch :=
  { batch with saved := some state }

/-- Stage operations, setting aside every batch that is full. -/
def stage (batch : RaftBatch) : List LogOp → List RaftBatch × RaftBatch
  | [] => ([], batch)
  | op :: ops =>
    let batch := { batch with ops := batch.ops ++ [op] }
    if batch.ops.length ≥ maxBatchSize then
      let (full, last) := new.stage ops
      (batch :: full, last)
    else batch.stage ops

end RaftBatch

namespace RaftStore

def empty : RaftStore := ⟨.empty, none⟩

def commit (store : RaftStore) (batch : RaftBatch) : RaftStore :=
  ⟨batch.ops.foldl LogOp.apply store.log, batch.saved.or store.metaRecord⟩

def commits (store : RaftStore) (batches : List RaftBatch) : RaftStore := batches.foldl commit store

def readMeta (store : RaftStore) : RaftStateMeta := store.metaRecord.getD .default

def readLog (store : RaftStore) : ℕ → ℕ → List Entry
  | _, 0 => []
  | idx, n + 1 =>
    match store.log.get? idx with
    | some entry => entry :: store.readLog (idx + 1) n
    | none => []

end RaftStore

structure RaftStorage where
  store : RaftStore
  state : RaftStateMeta

inductive RangeBound
  | included (index : ℕ)
  | excluded (index : ℕ)
  | unbounded

/-- What a call commits, one batch after the other, and the metadata in memory after it. -/
structure LogCommits where
  batches : List RaftBatch
  state : RaftStateMeta

variable (s : RaftStorage)

namespace RaftStorage

def new (store : RaftStore) : RaftStorage := ⟨store, store.readMeta⟩

def startIndex : RangeBound → ℕ
  | .included s => s
  | .excluded s => s + 1
  | .unbounded => 0

def endIndex : RangeBound → ℕ
  | .included e => e + 1
  | .excluded e => e
  | .unbounded => 2 ^ 64 - 1

def tryGetLogEntries (start stop : RangeBound) : List Entry :=
  s.store.readLog (startIndex start) (endIndex stop - startIndex start)

def appendToLog (entries : List Entry) : LogCommits :=
  let (full, last) := RaftBatch.new.stage (entries.map .set)
  match entries.getLast? with
  | none => ⟨full ++ [last], s.state⟩
  | some entry =>
    let state := { s.state with lastLogId := some entry.logId }
    ⟨full ++ [last.saveMeta state], state⟩

/-- The indices from `idx` on up to the first without an entry. The fuel is the number of entries.
-/
def foundFrom (log : SortedMap ℕ Entry) : ℕ → ℕ → List ℕ
  | 0, _ => []
  | fuel + 1, idx => if (log.get? idx).isSome then idx :: foundFrom log fuel (idx + 1) else []

/-- The index before, which wraps around at 0. -/
def previousIndex (index : ℕ) : ℕ := if index = 0 then 2 ^ 64 - 1 else index - 1

/-- The entry before `index` gives the new last log id; if there is none, the old one stays. -/
def truncatedState (state : RaftStateMeta) (log : SortedMap ℕ Entry) (index : ℕ) : RaftStateMeta :=
  if index = 1 then { state with lastLogId := none }
  else
    match log.get? (previousIndex index) with
    | some entry => { state with lastLogId := some entry.logId }
    | none => state

def deleteConflictLogsSince (logId : LogId) : LogCommits :=
  let found := foundFrom s.store.log s.store.log.entries.length logId.index
  let (full, last) := RaftBatch.new.stage (found.map .delete)
  if found = [] then ⟨full ++ [last], s.state⟩
  else
    let state := truncatedState s.state (s.store.commits full).log logId.index
    ⟨full ++ [last.saveMeta state], state⟩

def purgeStart (state : RaftStateMeta) : ℕ :=
  match state.lastPurgedLogId with
  | some id => id.index + 1
  | none => 1

def purgeLogsUpto (logId : LogId) : LogCommits :=
  let start := purgeStart s.state
  let (full, last) :=
    RaftBatch.new.stage ((List.range' start (logId.index + 1 - start)).map .delete)
  let state := { s.state with lastPurgedLogId := some logId }
  ⟨full ++ [last.saveMeta state], state⟩

def saveVote (vote : Vote) : LogCommits :=
  let state := { s.state with vote := some vote }
  ⟨[RaftBatch.new.saveMeta state], state⟩

def newMembership (entry : Entry) : Option StoredMembership :=
  match entry.payload with
  | .membership m => some ⟨some entry.logId, m⟩
  | _ => none

def appliedState (state : RaftStateMeta) (entries : List Entry) : RaftStateMeta :=
  { state with
    lastApplied := (entries.getLast?.map Entry.logId).or state.lastApplied
    membership := (entries.filterMap newMembership).getLast?.getD state.membership }

/-- The end of an application, after the writes of the entries have been committed. -/
def applyToStateMachine (entries : List Entry) : LogCommits :=
  if entries = [] then ⟨[.new], s.state⟩
  else
    let state := appliedState s.state entries
    ⟨[RaftBatch.new.saveMeta state], state⟩

/-- The store and the metadata that an installed snapshot brings, in one root swap. -/
def installSnapshot (lastLogId : LogId) (membership : StoredMembership) : RaftStorage :=
  let state := { s.state with
    lastApplied := some lastLogId
    lastLogId := some lastLogId
    lastPurgedLogId := some lastLogId
    membership := membership }
  ⟨⟨.empty, some state⟩, state⟩

/-- The first `n` commits of a call. If these are not all, the node crashes and restarts. -/
def after (call : LogCommits) (n : ℕ) : RaftStorage :=
  let store := s.store.commits (call.batches.take n)
  if call.batches.length ≤ n then ⟨store, call.state⟩ else new store

end RaftStorage

namespace RaftBatch

theorem stage_eq {batch last : RaftBatch} {ops : List LogOp} {full : List RaftBatch}
    (staged : batch.stage ops = (full, last)) :
    full.flatMap RaftBatch.ops ++ last.ops = batch.ops ++ ops ∧
      (∀ b ∈ full, b.saved = batch.saved ∨ b.saved = none) ∧ (∀ b ∈ full, b.ops ≠ []) := by
  induction ops generalizing batch full last with
  | nil =>
    cases staged
    simp
  | cons op ops ih =>
    rw [stage] at staged
    split_ifs at staged with isFull
    · cases rest : new.stage ops with
      | mk full' last' =>
        rw [rest] at staged
        cases staged
        obtain ⟨order, saved, nonempty⟩ := ih rest
        refine ⟨?_, ?_, ?_⟩
        · simp only [flatMap_cons, append_assoc, order]
          simp [new]
        · rintro b (_ | ⟨_, member⟩)
          · exact .inl rfl
          · exact .inr ((saved b member).elim id id)
        · rintro b (_ | ⟨_, member⟩)
          · simp
          · exact nonempty b member
    · obtain ⟨order, saved, nonempty⟩ := ih staged
      exact ⟨by simpa using order, saved, nonempty⟩

theorem stage_new {last : RaftBatch} {ops : List LogOp} {full : List RaftBatch}
    (staged : new.stage ops = (full, last)) :
    full.flatMap RaftBatch.ops ++ last.ops = ops ∧ (∀ b ∈ full, b.saved = none) ∧ ∀ b ∈ full,
      b.ops ≠ [] := by
  obtain ⟨order, saved, nonempty⟩ := stage_eq staged
  exact ⟨by simpa [new] using order, fun b member => (saved b member).elim id id, nonempty⟩

end RaftBatch

namespace RaftStore

theorem log_commits (store : RaftStore) (batches : List RaftBatch) :
    (store.commits batches).log = (batches.flatMap RaftBatch.ops).foldl LogOp.apply store.log := by
  induction batches generalizing store with
  | nil => rfl
  | cons b batches ih =>
    rw [commits, foldl_cons, ← commits, ih, flatMap_cons, foldl_append]
    rfl

theorem metaRecord_commits {store : RaftStore} {batches : List RaftBatch}
    (unsaved : ∀ b ∈ batches, b.saved = none) :
    (store.commits batches).metaRecord = store.metaRecord := by
  induction batches generalizing store with
  | nil => rfl
  | cons b batches ih =>
    rw [commits, foldl_cons, ← commits, ih fun b' member => unsaved b' (.tail _ member), commit,
      unsaved b (.head _)]
    rfl

theorem commits_concat (store : RaftStore) (batches : List RaftBatch) (b : RaftBatch) :
    store.commits (batches ++ [b]) = (store.commits batches).commit b := by
  simp [commits]

end RaftStore

theorem get?_foldl_delete (indices : List ℕ) (log : SortedMap ℕ Entry) (idx : ℕ) :
    ((indices.map LogOp.delete).foldl LogOp.apply log).get? idx =
      if idx ∈ indices then none else log.get? idx := by
  induction indices generalizing log with
  | nil => simp
  | cons i indices ih =>
    rw [map_cons, foldl_cons, ih, LogOp.apply, SortedMap.get?_filter_ne]
    by_cases here : idx = i
    · simp [here]
    · simp [here]

def lastWith (entries : List Entry) (idx : ℕ) : Option Entry :=
  (entries.filter fun e => e.logId.index = idx).getLast?

theorem lastWith_append (entries later : List Entry) (idx : ℕ) :
    lastWith (entries ++ later) idx = (lastWith later idx).or (lastWith entries idx) := by
  rw [lastWith, filter_append, getLast?_append]
  rfl

theorem index_of_lastWith {entries : List Entry} {idx : ℕ} {e : Entry}
    (last : lastWith entries idx = some e) : e.logId.index = idx := by
  have member := mem_of_getLast? last
  exact of_decide_eq_true (mem_filter.mp member).2

theorem isSome_lastWith {entries : List Entry} {idx : ℕ} :
    (lastWith entries idx).isSome ↔ idx ∈ entries.map (·.logId.index) := by
  rw [lastWith, getLast?_isSome, Ne]
  simp

theorem get?_foldl_set (entries : List Entry) (log : SortedMap ℕ Entry) (idx : ℕ) :
    ((entries.map LogOp.set).foldl LogOp.apply log).get? idx =
      (lastWith entries idx).or (log.get? idx) := by
  induction entries generalizing log with
  | nil => simp [lastWith]
  | cons e entries ih =>
    rw [map_cons, foldl_cons, ih, LogOp.apply, SortedMap.get?_insert, lastWith, lastWith,
      filter_cons]
    by_cases here : e.logId.index = idx
    · rw [if_pos (here.symm), if_pos (decide_eq_true here), getLast?_cons]
      cases (entries.filter fun e => e.logId.index = idx).getLast? <;> rfl
    · rw [if_neg (Ne.symm here), if_neg (by simpa using here)]

namespace RaftStorage

theorem foundFrom_eq (log : SortedMap ℕ Entry) (fuel idx : ℕ) :
    foundFrom log fuel idx = List.range' idx (foundFrom log fuel idx).length := by
  induction fuel generalizing idx with
  | zero => rfl
  | succ fuel ih =>
    rw [foundFrom]
    split_ifs
    · rw [length_cons, range'_succ, ← ih]
    · rfl

theorem mem_foundFrom {log : SortedMap ℕ Entry} {fuel idx i : ℕ}
    (member : i ∈ foundFrom log fuel idx) : (log.get? i).isSome := by
  induction fuel generalizing idx with
  | zero => cases member
  | succ fuel ih =>
    rw [foundFrom] at member
    split_ifs at member with found
    · cases member with
      | head => exact found
      | tail _ later => exact ih later
    · cases member

theorem get?_foundFrom_of_length_lt {log : SortedMap ℕ Entry} {fuel idx : ℕ}
    (enough : (foundFrom log fuel idx).length < fuel) :
    log.get? (idx + (foundFrom log fuel idx).length) = none := by
  induction fuel generalizing idx with
  | zero => cases enough
  | succ fuel ih =>
    rw [foundFrom] at enough ⊢
    split_ifs with found
    · rw [if_pos found, length_cons] at enough
      rw [length_cons, Nat.add_comm _ 1, ← Nat.add_assoc]
      exact ih (by omega)
    · simpa using found

/-- The fuel is enough: the loop ends at an index that has no entry. -/
theorem get?_after_foundFrom (log : SortedMap ℕ Entry) (idx : ℕ) :
    log.get? (idx + (foundFrom log log.entries.length idx).length) = none := by
  by_contra present
  have spent := not_lt.mp fun enough => present (get?_foundFrom_of_length_lt enough)
  -- Otherwise the found indices and the next one were more than there are entries.
  have keys : List.range' idx ((foundFrom log log.entries.length idx).length + 1) ⊆ log.entries.map
      Prod.fst := by
    intro i member
    have found : (log.get? i).isSome := by
      rw [range'_1_concat, ← foundFrom_eq, mem_append, mem_singleton] at member
      obtain member | rfl := member
      · exact mem_foundFrom member
      · exact Option.isSome_iff_ne_none.mpr present
    obtain ⟨entry, stored⟩ := Option.isSome_iff_exists.mp found
    exact mem_map.mpr ⟨(i, entry), SortedMap.get?_eq_some_iff.mp stored, rfl⟩
  have few := (subperm_of_subset nodup_range' keys).length_le
  rw [length_range', length_map] at few
  omega

end RaftStorage

namespace LogCommits

open RaftStorage

def Stages (call : LogCommits) (ops : List LogOp) (saved : Option RaftStateMeta) : Prop :=
  ∃ full last, call.batches = full ++ [last] ∧ full.flatMap RaftBatch.ops ++ last.ops = ops ∧
    (∀ b ∈ full, b.saved = none) ∧ (∀ b ∈ full, b.ops ≠ []) ∧ last.saved = saved

theorem stages_of_stage {ops : List LogOp} {full : List RaftBatch} {last : RaftBatch}
    (staged : RaftBatch.new.stage ops = (full, last)) (state : RaftStateMeta) :
    Stages ⟨full ++ [last.saveMeta state], state⟩ ops (some state) := by
  obtain ⟨order, unsaved, nonempty⟩ := RaftBatch.stage_new staged
  exact ⟨full, last.saveMeta state, rfl, order, unsaved, nonempty, rfl⟩

/-- A call with one commit. -/
theorem stages_single (saved : Option RaftStateMeta) (state : RaftStateMeta) :
    Stages ⟨[⟨[], saved⟩], state⟩ [] saved :=
  ⟨[], _, rfl, rfl, by simp, by simp, rfl⟩

theorem stages_appendToLog (entries : List Entry) :
    ∃ saved, (s.appendToLog entries).Stages (entries.map .set) saved ∧
      saved = entries.getLast?.map (fun e => { s.state with lastLogId := some e.logId }) ∧
      (s.appendToLog entries).state = saved.getD s.state := by
  cases staged : RaftBatch.new.stage (entries.map .set) with
  | mk full last =>
    cases final : entries.getLast? with
    | none =>
      obtain rfl := getLast?_eq_none_iff.mp final
      cases staged
      exact ⟨none, stages_single none _, rfl, rfl⟩
    | some e =>
      simp only [appendToLog, staged, final]
      exact ⟨_, stages_of_stage staged _, rfl, rfl⟩

theorem get?_commits_full {indices : List ℕ} {store : RaftStore} {full : List RaftBatch}
    {last : RaftBatch} (staged : RaftBatch.new.stage (indices.map .delete) = (full, last)) {idx : ℕ}
    (kept : idx ∉ indices) : (store.commits full).log.get? idx = store.log.get? idx := by
  obtain ⟨order, -, -⟩ := RaftBatch.stage_new staged
  have start : full.flatMap RaftBatch.ops <+: indices.map LogOp.delete := order ▸ prefix_append _ _
  rw [RaftStore.log_commits, prefix_iff_eq_take.mp start, ← map_take, get?_foldl_delete,
    if_neg fun taken => kept (mem_of_mem_take taken)]

theorem stages_deleteConflictLogsSince (logId : LogId) :
    let found := foundFrom s.store.log s.store.log.entries.length logId.index
    ∃ log : SortedMap ℕ Entry, (s.deleteConflictLogsSince logId).Stages (found.map .delete)
        (if found = [] then none else some (truncatedState s.state log logId.index)) ∧
      (s.deleteConflictLogsSince logId).state =
        (if found = [] then s.state else truncatedState s.state log logId.index) ∧
      ∀ idx ∉ found, log.get? idx = s.store.log.get? idx := by
  intro found
  cases staged : RaftBatch.new.stage (found.map .delete) with
  | mk full last =>
    have call : s.deleteConflictLogsSince logId = if found = [] then ⟨full ++ [last], s.state⟩
        else
          let state := truncatedState s.state (s.store.commits full).log logId.index
          ⟨full ++ [last.saveMeta state], state⟩ := by
      simp only [deleteConflictLogsSince, found, staged]
    refine ⟨(s.store.commits full).log, ?_, ?_, fun idx kept => get?_commits_full staged kept⟩
    · rw [call]
      split_ifs with none
      · rw [none] at staged
        cases staged
        rw [none]
        exact stages_single .none _
      · exact stages_of_stage staged _
    · rw [call]
      split_ifs <;> rfl

theorem stages_purgeLogsUpto (logId : LogId) : (s.purgeLogsUpto logId).Stages
      ((List.range' (purgeStart s.state) (logId.index + 1 - purgeStart s.state)).map .delete)
      (some { s.state with lastPurgedLogId := some logId }) := by
  cases staged : RaftBatch.new.stage ((List.range' (purgeStart s.state)
      (logId.index + 1 - purgeStart s.state)).map .delete) with
  | mk full last =>
    simp only [purgeLogsUpto, staged]
    exact stages_of_stage staged _

end LogCommits

end OmniKV
