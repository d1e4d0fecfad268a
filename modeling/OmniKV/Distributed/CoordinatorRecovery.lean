import OmniKV.Distributed.Agreement

/-!
# Recovery of the coordinator

Recovery groups the records of the log by transaction and reports what is left to do. A new
coordinator counts from one again, so a new transaction can take an id whose records are still
there.
-/

namespace OmniKV.TwoPhase

open List SortedMap Coordinator

namespace Coordinator

/-- The entries of one transaction, by their state. -/
abbrev TxnStates := LogState → Option TwoPhaseLogEntry

variable (groups : SortedMap GlobalTxnId TxnStates)

def groupEntry (entry : TwoPhaseLogEntry) : SortedMap GlobalTxnId TxnStates :=
  groups.insert entry.txnId
    (Function.update ((groups.get? entry.txnId).getD fun _ => none) entry.state (some entry))

def resolution (txnId : GlobalTxnId) (states : TxnStates) :
    Option (GlobalTxnId × LogState × List ℕ) :=
  match states .commit, states .prepare, states .abort with
  | some entry, _, _ => some (txnId, .commit, entry.participants)
  | none, some entry, none => some (txnId, .prepare, entry.participants)
  | none, _, _ => none

/-- The decided transactions and those in doubt. The scan ends at a tilde. -/
def recover (c : Coordinator) : List (GlobalTxnId × LogState × List ℕ) :=
  let entries := (c.log.range logPrefix (logPrefix ++ [126])).map Prod.snd
  (entries.foldl groupEntry .empty).entries.filterMap fun group => resolution group.1 group.2

def entryIn (txnId : GlobalTxnId) (state : LogState) : Option TwoPhaseLogEntry :=
  (groups.get? txnId).bind fun states => states state

theorem entryIn_groupEntry (entry : TwoPhaseLogEntry) (txnId : GlobalTxnId) (state : LogState) :
    entryIn (groupEntry groups entry) txnId state =
      if entry.txnId = txnId ∧ entry.state = state then some entry else
      entryIn groups txnId state := by
  rw [entryIn, groupEntry, get?_insert]
  by_cases id : txnId = entry.txnId
  · subst id
    rw [if_pos rfl, Option.bind_some, Function.update_apply]
    by_cases st : state = entry.state
    · simp [st]
    · rw [if_neg st, if_neg fun same => st same.2.symm, entryIn]
      cases groups.get? entry.txnId <;> rfl
  · rw [if_neg id, if_neg fun same => id same.1.symm, entryIn]

theorem entryIn_foldl (entries : List TwoPhaseLogEntry) (groups : SortedMap GlobalTxnId TxnStates)
    (txnId : GlobalTxnId) (state : LogState) :
    entryIn (entries.foldl groupEntry groups) txnId state =
      (entries.reverse.find? fun e => e.txnId = txnId ∧ e.state = state).or
      (entryIn groups txnId state) := by
  induction entries generalizing groups with
  | nil => rfl
  | cons entry entries ih =>
    rw [foldl_cons, ih, entryIn_groupEntry, reverse_cons, find?_append, Option.or_assoc]
    congr 1
    by_cases here : entry.txnId = txnId ∧ entry.state = state
    · simp [here]
    · simp [here]

/-- Every record is stored under the key of its transaction and state. -/
def Labeled (log : SortedMap Bytes TwoPhaseLogEntry) : Prop :=
  ∀ key entry, log.get? key = some entry → key = logKey entry.txnId entry.state

/-- Every log key lies in the range of the recovery scan. -/
theorem logKey_mem_range (txnId : GlobalTxnId) (state : LogState) :
    logPrefix ≤ logKey txnId state ∧ logKey txnId state ≤ logPrefix ++ [126] := by
  refine Bytes.between_append_iff.mpr ⟨_, rfl, ?_⟩
  cases digits : Bytes.decimal txnId.1 with
  | nil => exact absurd digits (Bytes.decimal_ne_nil _)
  | cons b rest =>
    have digit := Bytes.toNat_of_mem_decimal (n := txnId.1) (b := b) (by simp [digits])
    refine Bytes.cons_le_cons_iff.mpr (.inl ?_)
    rw [UInt8.lt_iff_toNat_lt]
    exact lt_of_le_of_lt digit.2 (by decide)

theorem entryIn_recover {c : Coordinator} (labeled : Labeled c.log) (txnId : GlobalTxnId)
    (state : LogState) :
    entryIn (((c.log.range logPrefix (logPrefix ++ [126])).map Prod.snd).foldl groupEntry .empty)
      txnId state = c.log.get? (logKey txnId state) := by
  have empty : entryIn (.empty : SortedMap GlobalTxnId TxnStates) txnId state = none := rfl
  rw [entryIn_foldl, empty]
  have scanned :
    ∀ entry, entry ∈ ((c.log.range logPrefix (logPrefix ++ [126])).map Prod.snd).reverse ↔
      c.log.get? (logKey entry.txnId entry.state) = some entry := by
    intro entry
    rw [mem_reverse, mem_map]
    constructor
    · rintro ⟨⟨key, e⟩, inside, rfl⟩
      have found := (mem_range.mp inside).2.2
      rwa [← labeled key e found]
    · intro found
      obtain ⟨start, stop⟩ := logKey_mem_range entry.txnId entry.state
      exact ⟨(_, entry), mem_range.mpr ⟨start, stop, found⟩, rfl⟩
  cases found : ((c.log.range logPrefix (logPrefix ++ [126])).map Prod.snd).reverse.find? fun e =>
      decide (e.txnId = txnId ∧ e.state = state) with
  | some entry =>
    have here := (scanned entry).mp (mem_of_find?_eq_some found)
    obtain ⟨rfl, rfl⟩ : entry.txnId = txnId ∧ entry.state = state := by
      simpa using find?_some found
    exact here.symm
  | none =>
    cases record : c.log.get? (logKey txnId state) with
    | none => rfl
    | some entry =>
      obtain ⟨sameId, sameState⟩ := logKey_inj (labeled _ entry record)
      have inside := (scanned entry).mpr (by rw [← sameId, ← sameState]; exact record)
      have skipped := find?_eq_none.mp found entry inside
      simp [← sameId, ← sameState] at skipped

theorem mem_recover {c : Coordinator} (labeled : Labeled c.log) {txnId : GlobalTxnId}
    {state : LogState} {participants : List ℕ} : (txnId, state, participants) ∈ c.recover ↔
      resolution txnId (fun st => c.log.get? (logKey txnId st)) =
      some (txnId, state, participants) := by
  have entries := fun st => entryIn_recover labeled txnId st
  have owner : ∀ id states report, resolution id states = some report → report.1 = id := by
    intro id states report resolved
    rw [resolution] at resolved
    split at resolved
    · exact (Option.some.inj resolved) ▸ rfl
    · exact (Option.some.inj resolved) ▸ rfl
    · cases resolved
  rw [recover, mem_filterMap]
  generalize ((c.log.range logPrefix (logPrefix ++ [126])).map Prod.snd).foldl groupEntry .empty =
    groups at entries ⊢
  constructor
  · rintro ⟨⟨id, states⟩, member, resolved⟩
    obtain rfl : txnId = id := owner id states _ resolved
    have group : groups.get? txnId = some states := get?_eq_some_iff.mpr member
    have same : (fun st => c.log.get? (logKey txnId st)) = states := by
      funext st
      rw [← entries, entryIn, group, Option.bind_some]
    rw [same]
    exact resolved
  · intro resolved
    cases group : groups.get? txnId with
    | none =>
      have empty : (fun st => c.log.get? (logKey txnId st)) = fun _ => none := by
        funext st
        rw [← entries, entryIn, group, Option.bind_none]
      rw [empty] at resolved
      cases resolved
    | some states =>
      have same : (fun st => c.log.get? (logKey txnId st)) = states := by
        funext st
        rw [← entries, entryIn, group, Option.bind_some]
      rw [same] at resolved
      exact ⟨(txnId, states), get?_eq_some_iff.mp group, resolved⟩

end Coordinator

/-- The running coordinator with its calls in flight, and the records logged for the present bearer
of an id. -/
structure Service where
  coordinator : Coordinator
  calls : List Call
  since : GlobalTxnId → List LogState

inductive ServiceAction
  | begin (now : UInt64)
  | addWrite (txnId : GlobalTxnId) (nodeId : ℕ) (key : Bytes) (value : Option Bytes) (ttl : UInt64)
  | prepare (txnId : GlobalTxnId) (now : UInt64) (outcome : CommitOutcome)
  | receiveVote (txnId : GlobalTxnId) (result : PrepareResult)
  | finalizeCommit (txnId : GlobalTxnId)
  | abort (txnId : GlobalTxnId)
  | resume (call : ℕ) (now : UInt64) (outcome : CommitOutcome)
  | restart (nodeId : ℕ) (timeoutMs : UInt64)

def Call.record? : Call → Option (GlobalTxnId × LogState)
  | .decide d => some (d.txnId, d.state)
  | .abort txnId _ => some (txnId, .abort)
  | .remove .. => none

namespace Service

def initial (nodeId : ℕ) (timeoutMs : UInt64) : Service :=
  ⟨.new nodeId .empty timeoutMs, [], fun _ => []⟩

/-- The records after a log write for the bearer of an id. -/
def noted (since : GlobalTxnId → List LogState) (record : Option (GlobalTxnId × LogState))
    (outcome : CommitOutcome) : GlobalTxnId → List LogState :=
  match record with
  | some (txnId, state) =>
    if outcome.stores then Function.update since txnId (since txnId ++ [state]) else since
  | none => since

def next (s : Service) : ServiceAction → Option Service
  | .begin now =>
    let (txnId, c) := s.coordinator.begin now
    some { s with coordinator := c, since := Function.update s.since txnId [] }
  | .addWrite txnId nodeId key value ttl =>
    (s.coordinator.addWrite txnId nodeId key value ttl).toOption.map fun c =>
      { s with coordinator := c }
  | .prepare txnId now outcome =>
    let record := if s.coordinator.getState txnId = some .preparing then some (txnId, .prepare) else
      none
    some { s with
      coordinator := (s.coordinator.prepare txnId now outcome).2
      since := noted s.since record outcome }
  | .receiveVote txnId result =>
    (s.coordinator.receiveVote txnId result).toOption.map fun (c, decision) =>
      { s with coordinator := c, calls := s.calls ++ (decision.map Call.decide).toList }
  | .finalizeCommit txnId => some { s with coordinator := s.coordinator.finalizeCommit txnId }
  | .abort txnId =>
    (s.coordinator.abort txnId).toOption.map fun (c, call) =>
      { s with coordinator := c, calls := s.calls ++ [call] }
  | .resume i now outcome =>
    s.calls[i]?.map fun call =>
      let (c, rest, _) := s.coordinator.resume now outcome call
      { coordinator := c
        calls := s.calls.eraseIdx i ++ rest.toList
        since := noted s.since call.record? outcome }
  | .restart nodeId timeoutMs =>
    some { s with coordinator := .new nodeId s.coordinator.log timeoutMs, calls := [] }

/-- Recovery reports a commit only if it was logged for the bearer of the id, and every undecided
prepared transaction as one to abort; the log has no record of an earlier bearer of an id. -/
structure Faithful (s : Service) : Prop where
  committed : ∀ txnId participants, (txnId, .commit, participants) ∈ s.coordinator.recover →
    .commit ∈ s.since txnId
  undecided : ∀ txnId, .prepare ∈ s.since txnId → .commit ∉ s.since txnId → .abort ∉ s.since txnId →
    ∃ participants, (txnId, .prepare, participants) ∈ s.coordinator.recover
  own : ∀ txnId state, (s.coordinator.log.get? (logKey txnId state)).isSome → state ∈ s.since txnId

/-- A transaction begins under an id without records, and the counter does not overflow. -/
def Safe (s : Service) : ServiceAction → Prop
  | .begin now =>
    (∀ record ∈ s.coordinator.log.entries, record.2.txnId ≠ (s.coordinator.begin now).1) ∧
      s.coordinator.nextSeq + 1 < 2 ^ 64
  | _ => True

instance (s : Service) (a : ServiceAction) : Decidable (s.Safe a) := by
  cases a <;> unfold Safe <;> infer_instance

/-- The log has exactly the records of the transactions that bear the ids. -/
structure Inv (s : Service) : Prop where
  labeled : Coordinator.Labeled s.coordinator.log
  exact : ∀ txnId state, (s.coordinator.log.get? (logKey txnId state)).isSome ↔
    state ∈ s.since txnId

theorem inv_initial (nodeId : ℕ) (timeoutMs : UInt64) : (initial nodeId timeoutMs).Inv where
  labeled _ _ found := nomatch found
  exact _ _ := ⟨nofun, nofun⟩

variable {s s' : Service} {txnId : GlobalTxnId} (inv : s.Inv)

include inv

theorem Inv.faithful : s.Faithful where
  committed txnId participants reported := by
    have resolved := (mem_recover inv.labeled).mp reported
    rw [← inv.exact]
    rw [resolution] at resolved
    split at resolved
    · rename_i entry found
      rw [found]
      rfl
    · cases resolved
    · cases resolved
  undecided txnId prepared uncommitted unaborted := by
    have none : ∀ state, state ∉ s.since txnId →
        s.coordinator.log.get? (logKey txnId state) = none := by
      intro state missing
      rw [← Option.not_isSome_iff_eq_none, inv.exact]
      exact missing
    obtain ⟨entry, found⟩ := Option.isSome_iff_exists.mp ((inv.exact txnId .prepare).mpr prepared)
    refine ⟨entry.participants, (mem_recover inv.labeled).mpr ?_⟩
    rw [resolution, none .commit uncommitted, none .abort unaborted, found]
  own txnId state := (inv.exact txnId state).mp

/-- A step that leaves the log and the bearers of the ids alone. -/
theorem Inv.congr (log : s'.coordinator.log = s.coordinator.log) (since : s'.since = s.since) :
    s'.Inv := by
  constructor
  · rw [log]
    exact inv.labeled
  · rw [log, since]
    exact inv.exact

/-- A log write for the bearer of an id. -/
theorem Inv.logState {state : LogState} {participants : List ℕ} {now : UInt64}
    {outcome : CommitOutcome}
    (log : s'.coordinator.log = (s.coordinator.logState txnId state participants now outcome).2.log)
    (since : s'.since = noted s.since (some (txnId, state)) outcome) : s'.Inv := by
  cases stored : outcome.stores with
  | false =>
    refine inv.congr (log.trans ?_) (since.trans ?_)
    · simp [Coordinator.logState, stored]
    · simp [noted, stored]
  | true =>
    constructor
    · intro key entry found
      simp only [log, Coordinator.logState, stored, if_pos, get?_insert] at found
      split_ifs at found with same
      · rw [same, ← Option.some.inj found]
      · exact inv.labeled key entry found
    · intro id st
      rw [log, since, get?_log_logState, stored]
      by_cases same : id = txnId
      · by_cases new : st = state
        · simp [same, new, noted, stored]
        · simp [same, new, noted, stored, inv.exact]
      · simp [same, noted, stored, inv.exact]

/-- The id that a new transaction takes has no bearer with a record. -/
theorem Inv.begin {now : UInt64} (safe : s.Safe (.begin now))
    (step : s.next (.begin now) = some s') : s'.Inv := by
  cases step
  have unused : s.since (s.coordinator.begin now).1 = [] := by
    refine eq_nil_iff_forall_not_mem.mpr fun state member => ?_
    obtain ⟨entry, found⟩ := Option.isSome_iff_exists.mp ((inv.exact _ state).mpr member)
    have other := safe.1 _ (get?_eq_some_iff.mp found)
    exact other (logKey_inj (inv.labeled _ entry found)).1.symm
  refine inv.congr rfl ((congrArg (Function.update s.since _) unused.symm).trans ?_)
  exact Function.update_eq_self _ _

theorem Inv.prepare {now : UInt64} {outcome : CommitOutcome}
    (step : s.next (.prepare txnId now outcome) = some s') : s'.Inv := by
  cases step
  obtain nothing | ⟨txn, found, preparing, logged⟩ :=
    s.coordinator.prepare_inversion txnId now outcome
  · rw [nothing.2, if_neg nothing.1]
    exact inv
  · have state : s.coordinator.getState txnId = some .preparing := by
      rw [getState, found, Option.map_some, preparing]
    have log : (s.coordinator.prepare txnId now outcome).2.log =
        (s.coordinator.logState txnId .prepare (participantsOf txn) now outcome).2.log := by
      obtain logged | logged := logged
      · rw [logged]
      · rw [logged, putTxn]
    rw [if_pos state]
    exact inv.logState log rfl

theorem Inv.resume {i : ℕ} {now : UInt64} {outcome : CommitOutcome}
    (step : s.next (.resume i now outcome) = some s') : s'.Inv := by
  obtain ⟨call, -, rfl⟩ := Option.map_eq_some_iff.mp step
  have coordinator := s.coordinator.fst_resume now outcome call
  cases call with
  | decide d => exact inv.logState (congrArg Coordinator.log coordinator) rfl
  | abort txnId participants => exact inv.logState (congrArg Coordinator.log coordinator) rfl
  | remove txnId participants => exact inv.congr rfl rfl

theorem Inv.next {a : ServiceAction} (safe : s.Safe a) (step : s.next a = some s') : s'.Inv := by
  cases a with
  | begin now => exact inv.begin safe step
  | prepare txnId now outcome => exact inv.prepare step
  | resume i now outcome => exact inv.resume step
  | addWrite txnId nodeId key value ttl =>
    obtain ⟨c, added, rfl⟩ := Option.map_eq_some_iff.mp step
    obtain ⟨txn, txn', -, -, rfl⟩ := addWrite_inversion (eq_ok_of_toOption added)
    exact inv.congr rfl rfl
  | receiveVote txnId result =>
    obtain ⟨⟨c, decision⟩, received, rfl⟩ := Option.map_eq_some_iff.mp step
    obtain ⟨txn, txn', -, -, rfl, -⟩ := receiveVote_inversion (eq_ok_of_toOption received)
    exact inv.congr rfl rfl
  | abort txnId =>
    obtain ⟨⟨c, call⟩, aborted, rfl⟩ := Option.map_eq_some_iff.mp step
    obtain ⟨txn, -, -, rfl⟩ := abort_inversion (eq_ok_of_toOption aborted)
    exact inv.congr rfl rfl
  | finalizeCommit txnId | restart nodeId timeoutMs =>
    cases step
    exact inv.congr rfl rfl

omit inv

/-- If no transaction begins under an id with records, recovery reports what was decided for the
bearers of the ids. -/
theorem faithful_of_run {nodeId : ℕ} {timeoutMs : UInt64}
    (run : Relation.ReflTransGen (Run.SafeStep Safe next) (initial nodeId timeoutMs) s) :
    s.Faithful :=
  (Run.invariant run (inv_initial nodeId timeoutMs) fun inv safe step =>
    inv.next safe step).faithful

/-- The first transaction of node 1, with a write for node 10, up to its logged decision. -/
def sampleVoted (vote : Vote) : List ServiceAction :=
  [.begin 0, .addWrite sampleTxn 10 (.ofString "k") (some (.ofString "v")) 0,
    .prepare sampleTxn 0 .ok, .receiveVote sampleTxn ⟨10, sampleTxn, vote⟩, .resume 0 0 .ok]

/-- The coordinator is started again over the log and begins a transaction. -/
def sampleRestarted : List ServiceAction := [.restart 1 5000, .begin 1]

/-- A restarted coordinator reuses the id of an old transaction: recovery reports the old decision
for the new one, or does not report it. -/
theorem recover_after_restart_misreports :
    (∃ s, Relation.ReflTransGen (Run.Step next) (initial 1 5000) s ∧
      (sampleTxn, .commit, [10]) ∈ s.coordinator.recover ∧ s.since sampleTxn = []) ∧
    ∃ s, Relation.ReflTransGen (Run.Step next) (initial 1 5000) s ∧
      s.since sampleTxn = [.prepare] ∧ s.coordinator.recover = [] :=
  ⟨⟨_, Run.step_get (sampleVoted .commit ++ sampleRestarted) (by decide +kernel),
    by decide +kernel⟩,
    _, Run.step_get (sampleVoted (.abort "no") ++ sampleRestarted ++
    ((sampleVoted .commit).drop 1).take 2)
      (by decide +kernel), by decide +kernel⟩

/-- Node 1 crashes with one transaction committed and one in doubt, and starts again under its id.
-/
theorem faithful_after_restart :
    ∃ s, Relation.ReflTransGen (Run.SafeStep Safe next) (initial 1 5000) s ∧
      s.coordinator.nodeId = 1 ∧
      s.coordinator.recover = [(sampleTxn, .commit, [10]), (toLex (1, 2), .prepare, [10])] ∧
      s.Faithful := by
  have run := Run.safeStep_get Safe next (initial 1 5000) (sampleVoted .commit ++ [.begin 1,
    .addWrite (toLex (1, 2)) 10 (.ofString "k") none 0, .prepare (toLex (1, 2)) 1 .ok,
    .restart 1 5000]) (by decide +kernel)
  exact ⟨_, run, by decide +kernel, by decide +kernel, faithful_of_run run⟩

end Service

end OmniKV.TwoPhase
