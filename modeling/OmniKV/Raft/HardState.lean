import OmniKV.Data.Run
import OmniKV.Raft.LogStore

/-!
# The metadata record under concurrent calls

The vote, the log state and the last applied entry are one record. A call changes it in memory and
serialises it under a lock, and commits the text after the lock is released. So a text can be
committed behind one that was serialised later, and what the later call had saved is gone.
-/

namespace OmniKV

open Relation (ReflTransGen)
open LogCommits

namespace Vote

instance (v w : Vote) : Decidable (v.le w) := inferInstanceAs (Decidable (_ ∨ _))

theorem le_refl (v : Vote) : v.le v := .inr ⟨rfl, .inr ⟨rfl, id⟩⟩

theorem le_trans {u v w : Vote} (first : u.le v) (second : v.le w) : u.le w := by
  simp only [le] at first second ⊢
  grind

/-- The vote is there if the first one is, and it is not lower. -/
def AtMost (a b : Option Vote) : Prop := ∀ v ∈ a, ∃ w ∈ b, v.le w

theorem AtMost.refl (a : Option Vote) : AtMost a a := fun v here => ⟨v, here, v.le_refl⟩

theorem AtMost.trans {a b c : Option Vote} (first : AtMost a b) (second : AtMost b c) :
    AtMost a c := by
  intro v here
  obtain ⟨w, middle, below⟩ := first v here
  obtain ⟨u, last, below'⟩ := second w middle
  exact ⟨u, last, le_trans below below'⟩

end Vote

inductive MetaCall
  | saveVote (vote : Vote)
  | appendToLog (entries : List Entry)
  | deleteConflictLogsSince (logId : LogId)
  | purgeLogsUpto (logId : LogId)
  | applyToStateMachine (entries : List Entry)
deriving DecidableEq

def RaftStorage.commitsOf (s : RaftStorage) : MetaCall → LogCommits
  | .saveVote vote => s.saveVote vote
  | .appendToLog entries => s.appendToLog entries
  | .deleteConflictLogsSince logId => s.deleteConflictLogsSince logId
  | .purgeLogsUpto logId => s.purgeLogsUpto logId
  | .applyToStateMachine entries => s.applyToStateMachine entries

def MetaCall.Admissible (state : RaftStateMeta) : MetaCall → Prop
  | .saveVote vote => ∀ old ∈ state.vote, old.le vote
  | _ => True

instance (state : RaftStateMeta) (call : MetaCall) : Decidable (call.Admissible state) := by
  cases call <;> unfold MetaCall.Admissible <;> infer_instance

/-- A call that has serialised the metadata and not yet committed its last batch. -/
structure PendingCall where
  call : MetaCall
  /-- The number of this text among all that were serialised. -/
  version : ℕ
  batch : RaftBatch

/-- The storage with its concurrent calls, all metadata that was ever in memory, and the calls that
returned. -/
structure HardState (ι : Type*) where
  storage : RaftStorage
  pending : ι → Option PendingCall
  versions : List RaftStateMeta
  returned : List (ℕ × MetaCall)

inductive HardAction (ι : Type*)
  | begin (i : ι) (call : MetaCall)
  | commit (i : ι)
  | fail (i : ι)
  | crash

namespace HardState

variable {ι : Type*}

def start (store : RaftStore) : HardState ι := ⟨.new store, fun _ => none, [store.readMeta], []⟩

variable [DecidableEq ι]

/-- Commit the full batches, change the metadata in memory and serialise it. -/
def begin (s : HardState ι) (i : ι) (call : MetaCall) : HardState ι :=
  let commits := s.storage.commitsOf call
  { s with
    storage := ⟨s.storage.store.commits commits.batches.dropLast, commits.state⟩
    pending := Function.update s.pending i
      (some ⟨call, s.versions.length, commits.batches.getLast?.getD .new⟩)
    versions := s.versions ++ [commits.state] }

/-- Commit the last batch and return. -/
def commit (s : HardState ι) (i : ι) (p : PendingCall) : HardState ι :=
  { s with
    storage := { s.storage with store := s.storage.store.commit p.batch }
    pending := Function.update s.pending i none
    returned := if p.batch.saved.isSome then s.returned ++ [(p.version, p.call)] else s.returned }

def next (s : HardState ι) : HardAction ι → Option (HardState ι)
  | .begin i call =>
    if s.pending i = none ∧ call.Admissible s.storage.state then some (s.begin i call) else none
  | .commit i => (s.pending i).map (s.commit i)
  | .fail i => (s.pending i).map fun _ => { s with pending := Function.update s.pending i none }
  | .crash => some { s with storage := .new s.storage.store, pending := fun _ => none }

/-- What a crash leaves: the metadata of the last returned call or later, and no vote below one that
was saved. -/
structure Durable (s : HardState ι) : Prop where
  fields : ∃ m, s.versions[m]? = some s.storage.store.readMeta ∧ ∀ r ∈ s.returned, r.1 ≤ m
  vote : ∀ n v, (n, .saveVote v) ∈ s.returned → Vote.AtMost (some v) s.storage.store.readMeta.vote

/-- No call that serialised its metadata later has returned before. -/
def InOrder (s : HardState ι) : HardAction ι → Prop
  | .commit i => ∀ p ∈ s.pending i, ∀ r ∈ s.returned, r.1 ≤ p.version
  | _ => True

instance (s : HardState ι) (action : HardAction ι) : Decidable (s.InOrder action) := by
  cases action <;> unfold InOrder <;> infer_instance

end HardState

/-- Only the last batch saves the metadata in memory, and only `saveVote` changes the vote. -/
structure LogCommits.Saves (c : LogCommits) (old : RaftStateMeta) (call : MetaCall) : Prop where
  full : ∀ b ∈ c.batches.dropLast, b.saved = none
  last : ∀ state ∈ (c.batches.getLast?.getD .new).saved, state = c.state
  vote : ∀ v, call = .saveVote v → c.state.vote = some v
  other : (∀ v, call ≠ .saveVote v) → c.state.vote = old.vote

theorem LogCommits.saves_of_stages {c : LogCommits} {ops : List LogOp}
    {saved : Option RaftStateMeta}
    (stages : c.Stages ops saved) (isState : ∀ state ∈ saved, state = c.state) {old : RaftStateMeta}
    {call : MetaCall} (vote : ∀ v, call = .saveVote v → c.state.vote = some v)
    (other : (∀ v, call ≠ .saveVote v) → c.state.vote = old.vote) : c.Saves old call := by
  obtain ⟨full, last, batches, -, unsaved, -, lastSaved⟩ := stages
  refine ⟨?_, ?_, vote, other⟩
  · rw [batches, List.dropLast_concat]
    exact unsaved
  · rw [batches, List.getLast?_concat, Option.getD_some, lastSaved]
    exact isState

theorem RaftStorage.vote_truncatedState (state : RaftStateMeta) (log : SortedMap ℕ Entry)
    (index : ℕ) : (truncatedState state log index).vote = state.vote := by
  rw [truncatedState]
  split_ifs
  · rfl
  · split <;> rfl

theorem RaftStorage.saves_commitsOf (s : RaftStorage) (call : MetaCall) :
    (s.commitsOf call).Saves s.state call := by
  cases call with
  | saveVote vote =>
    refine saves_of_stages (stages_single (some _) _) ?_ ?_ ?_
    · rintro _ ⟨⟩
      rfl
    · rintro _ ⟨⟩
      rfl
    · exact fun other => absurd rfl (other vote)
  | appendToLog entries =>
    obtain ⟨saved, stages, final, state⟩ := stages_appendToLog s entries
    refine saves_of_stages stages ?_ (fun _ => nofun) fun _ => ?_
    · rintro _ ⟨⟩
      exact state.symm
    · rw [state, final]
      cases entries.getLast? <;> rfl
  | deleteConflictLogsSince logId =>
    obtain ⟨log, stages, state, -⟩ := stages_deleteConflictLogsSince s logId
    refine saves_of_stages stages ?_ (fun _ => nofun) fun _ => ?_
    · intro saved isSaved
      rw [state]
      split_ifs at isSaved ⊢
      · cases isSaved
      · exact (Option.some.inj isSaved).symm
    · rw [state]
      split_ifs
      · rfl
      · exact vote_truncatedState _ _ _
  | purgeLogsUpto logId =>
    refine saves_of_stages (stages_purgeLogsUpto s logId) ?_ (fun _ => nofun) fun _ => rfl
    rintro _ ⟨⟩
    rfl
  | applyToStateMachine entries =>
    show (s.applyToStateMachine entries).Saves s.state _
    rw [applyToStateMachine]
    split_ifs
    · exact saves_of_stages (stages_single none _) nofun (fun _ => nofun) fun _ => rfl
    · refine saves_of_stages (stages_single (some _) _) ?_ (fun _ => nofun) fun _ => rfl
      rintro _ ⟨⟩
      rfl

namespace HardState

variable {ι : Type*} [DecidableEq ι] {s s' : HardState ι}

def Pends (s : HardState ι) (p : PendingCall) (state : RaftStateMeta) : Prop :=
  ∃ i, s.pending i = some p ∧ p.batch.saved = some state

/-- Saved votes are in all metadata that may still be committed, in the order of serialisation. -/
structure Inv (s : HardState ι) : Prop where
  durable : s.Durable
  version : ∀ p state, s.Pends p state → s.versions[p.version]? = some state
  saves : ∀ p state v, s.Pends p state → p.call = .saveVote v → state.vote = some v
  memory : ∀ p state, s.Pends p state → Vote.AtMost state.vote s.storage.state.vote
  order : ∀ p state q state', s.Pends p state → s.Pends q state' → p.version ≤ q.version →
    Vote.AtMost state.vote state'.vote
  returned : ∀ n v, (n, .saveVote v) ∈ s.returned → Vote.AtMost (some v) s.storage.state.vote ∧
    ∀ p state, s.Pends p state → (∀ r ∈ s.returned, r.1 ≤ p.version) →
    Vote.AtMost (some v) state.vote

variable {p : PendingCall} {i : ι}

section

omit [DecidableEq ι]

theorem Inv.version_lt (inv : s.Inv) {state : RaftStateMeta} (pends : s.Pends p state) :
    p.version < s.versions.length :=
  (List.getElem?_eq_some_iff.mp (inv.version p state pends)).1

theorem inv_start (store : RaftStore) : (start store : HardState ι).Inv := by
  have none : ∀ p state, ¬(start store : HardState ι).Pends p state := by
    rintro p state ⟨i, ⟨⟩, -⟩
  exact ⟨⟨⟨0, rfl, nofun⟩, nofun⟩, fun p state pends => absurd pends (none p state),
    fun p state _ pends => absurd pends (none p state), fun p state pends =>
    absurd pends (none p state), fun p state _ _ pends => absurd pends (none p state), nofun⟩

/-- Fewer pending calls over the same stored metadata and with the same history. -/
theorem Inv.drop (inv : s.Inv) (recovered : s'.storage.store.readMeta = s.storage.store.readMeta)
    (versions : s'.versions = s.versions) (returned : s'.returned = s.returned)
    (fewer : ∀ p state, s'.Pends p state → s.Pends p state ∧ s'.storage.state = s.storage.state)
    (memory : ∀ n v, (n, .saveVote v) ∈ s.returned → Vote.AtMost (some v) s'.storage.state.vote) :
    s'.Inv := by
  refine ⟨⟨?_, ?_⟩, fun p state pends => ?_, fun p state v pends => ?_, fun p state pends => ?_,
    fun p state q state' pends pends' => ?_, fun n v member => ⟨memory n v (returned ▸ member), ?_⟩⟩
  · rw [recovered, versions, returned]
    exact inv.durable.fields
  · rw [recovered, returned]
    exact inv.durable.vote
  · rw [versions]
    exact inv.version p state (fewer p state pends).1
  · exact inv.saves p state v (fewer p state pends).1
  · rw [(fewer p state pends).2]
    exact inv.memory p state (fewer p state pends).1
  · exact inv.order p state q state' (fewer p state pends).1 (fewer q state' pends').1
  · intro p state pends later
    rw [returned] at member later
    exact (inv.returned n v member).2 p state (fewer p state pends).1 later

end

theorem pends_update_none {state : RaftStateMeta}
    (pending : s'.pending = Function.update s.pending i none) (pends : s'.Pends p state) :
    s.Pends p state := by
  obtain ⟨j, isPending, saved⟩ := pends
  rw [pending] at isPending
  obtain rfl | other := eq_or_ne j i
  · rw [Function.update_self] at isPending
    cases isPending
  · rw [Function.update_of_ne other] at isPending
    exact ⟨j, isPending, saved⟩

theorem Inv.begin (inv : s.Inv) {call : MetaCall} (admissible : call.Admissible s.storage.state) :
    (s.begin i call).Inv := by
  have saves := s.storage.saves_commitsOf call
  -- The vote in memory does not go down.
  have raised : Vote.AtMost s.storage.state.vote (s.storage.commitsOf call).state.vote := by
    by_cases isVote : ∃ v, call = .saveVote v
    · obtain ⟨v, rfl⟩ := isVote
      exact fun old here => ⟨v, rfl, admissible old here⟩
    · rw [saves.other fun v same => isVote ⟨v, same⟩]
      exact .refl _
  have recovered : (s.begin i call).storage.store.readMeta = s.storage.store.readMeta := by
    show (s.storage.store.commits _).metaRecord.getD _ = _
    rw [RaftStore.metaRecord_commits saves.full]
    rfl
  -- A pending call is an old one or the new one.
  have split : ∀ p state, (s.begin i call).Pends p state → s.Pends p state ∨
      p.version = s.versions.length ∧ p.call = call ∧ state = (s.storage.commitsOf call).state := by
    rintro p state ⟨j, isPending, saved⟩
    obtain rfl | other := eq_or_ne j i
    · simp only [HardState.begin, Function.update_self, Option.some.injEq] at isPending
      obtain rfl := isPending
      exact .inr ⟨rfl, rfl, saves.last state saved⟩
    · simp only [HardState.begin, Function.update_of_ne other] at isPending
      exact .inl ⟨j, isPending, saved⟩
  refine ⟨⟨?_, ?_⟩, fun p state pends => ?_, fun p state v pends isVote => ?_,
    fun p state pends => ?_,
    fun p state q state' pends pends' before => ?_, fun n v member =>
    ⟨?_, fun p state pends later => ?_⟩⟩
  · obtain ⟨m, stored, later⟩ := inv.durable.fields
    refine ⟨m, ?_, later⟩
    rw [recovered]
    exact (List.getElem?_append_left (List.getElem?_eq_some_iff.mp stored).1).trans stored
  · rw [recovered]
    exact inv.durable.vote
  · show (s.versions ++ [_])[p.version]? = _
    obtain old | ⟨version, -, rfl⟩ := split p state pends
    · rw [List.getElem?_append_left (inv.version_lt old)]
      exact inv.version p state old
    · rw [version, List.getElem?_concat_length]
  · obtain old | ⟨-, isCall, rfl⟩ := split p state pends
    · exact inv.saves p state v old isVote
    · exact saves.vote v (isCall ▸ isVote)
  · obtain old | ⟨-, -, rfl⟩ := split p state pends
    · exact (inv.memory p state old).trans raised
    · exact .refl _
  · obtain old | ⟨version, -, rfl⟩ := split p state pends
    · obtain old' | ⟨-, -, rfl⟩ := split q state' pends'
      · exact inv.order p state q state' old old' before
      · exact (inv.memory p state old).trans raised
    · obtain old' | ⟨-, -, rfl⟩ := split q state' pends'
      · have := inv.version_lt old'
        omega
      · exact .refl _
  · exact (inv.returned n v member).1.trans raised
  · obtain old | ⟨-, -, rfl⟩ := split p state pends
    · exact (inv.returned n v member).2 p state old later
    · exact (inv.returned n v member).1.trans raised

theorem Inv.commit (inv : s.Inv) (isPending : s.pending i = some p)
    (last : ∀ r ∈ s.returned, r.1 ≤ p.version) : (s.commit i p).Inv := by
  have fewer : ∀ q state, (s.commit i p).Pends q state → s.Pends q state :=
    fun q state pends => pends_update_none rfl pends
  cases saved : p.batch.saved with
  | none =>
    have recovered : (s.commit i p).storage.store.readMeta = s.storage.store.readMeta := by
      simp only [HardState.commit, RaftStore.commit, RaftStore.readMeta, saved, Option.none_or]
    have returned : (s.commit i p).returned = s.returned := by
      simp only [HardState.commit, saved, Option.isSome_none, Bool.false_eq_true, if_false]
    exact inv.drop recovered rfl returned (fun q state pends => ⟨fewer q state pends, rfl⟩)
      fun n v member => (inv.returned n v member).1
  | some state =>
    have pends : s.Pends p state := ⟨i, isPending, saved⟩
    have recovered : (s.commit i p).storage.store.readMeta = state := by
      simp only [HardState.commit, RaftStore.commit, RaftStore.readMeta, saved, Option.some_or,
        Option.getD_some]
    have returned : (s.commit i p).returned = s.returned ++ [(p.version, p.call)] := by
      simp only [HardState.commit, saved, Option.isSome_some, if_true]
    have old : ∀ {r}, r ∈ s.returned → r ∈ (s.commit i p).returned := by
      intro r member
      rw [returned]
      exact List.mem_append_left _ member
    have here : (p.version, p.call) ∈ (s.commit i p).returned := by
      rw [returned]
      exact List.mem_append_right _ (List.mem_singleton_self _)
    have cases_ : ∀ {n v}, (n, .saveVote v) ∈ (s.commit i p).returned →
        (n, .saveVote v) ∈ s.returned ∨ state.vote = some v := by
      intro n v member
      rw [returned, List.mem_append, List.mem_singleton] at member
      refine member.imp_right fun same => ?_
      exact inv.saves p state v pends (Prod.mk.inj same).2.symm
    refine ⟨⟨⟨p.version, ?_, ?_⟩, fun n v member => ?_⟩,
      fun q state pends => inv.version q state (fewer q state pends),
      fun q state v pends => inv.saves q state v (fewer q state pends),
      fun q state pends => inv.memory q state (fewer q state pends),
      fun q state q' state' pends pends' => inv.order q state q' state' (fewer q state pends)
        (fewer q' state' pends'), fun n v member => ⟨?_, fun q state' pends' later => ?_⟩⟩
    · rw [recovered]
      exact inv.version p state pends
    · intro r member
      rw [returned, List.mem_append, List.mem_singleton] at member
      obtain member | rfl := member
      · exact last r member
      · exact le_rfl
    · rw [recovered]
      obtain before | now := cases_ member
      · exact (inv.returned n v before).2 p state pends last
      · exact now ▸ .refl _
    · obtain before | now := cases_ member
      · exact (inv.returned n v before).1
      · exact now ▸ inv.memory p state pends
    · obtain before | now := cases_ member
      · exact (inv.returned n v before).2 q state' (fewer q state' pends') fun r member =>
          later r (old member)
      · exact now ▸ inv.order p state q state' pends (fewer q state' pends') (later _ here)

theorem Inv.next (inv : s.Inv) {action : HardAction ι} (inOrder : s.InOrder action)
    (step : s.next action = some s') : s'.Inv := by
  cases action with
  | begin i call =>
    rw [HardState.next] at step
    split_ifs at step with allowed
    exact Option.some.inj step ▸ inv.begin allowed.2
  | commit i =>
    obtain ⟨p, isPending, rfl⟩ := Option.map_eq_some_iff.mp step
    exact inv.commit isPending (inOrder p isPending)
  | fail i =>
    obtain ⟨p, isPending, rfl⟩ := Option.map_eq_some_iff.mp step
    exact inv.drop rfl rfl rfl (fun q state pends => ⟨pends_update_none rfl pends, rfl⟩)
      fun n v member => (inv.returned n v member).1
  | crash =>
    cases step
    refine inv.drop rfl rfl rfl ?_ inv.durable.vote
    rintro q state ⟨_, ⟨⟩, _⟩

/-- If texts are committed in the order of their serialisation, a crash recovers the metadata of the
last call that returned, or later. -/
theorem hard_state_durable {store : RaftStore}
    (run : ReflTransGen (Run.SafeStep InOrder next) (start store) s) : s.Durable :=
  (Run.invariant run (inv_start store) fun inv inOrder step => inv.next inOrder step).durable

def sampleVote : Vote := ⟨1, 0, false⟩

/-- A vote is saved between the serialisation and the commit of an application, and is lost. -/
theorem saved_vote_lost : ∃ s : HardState Bool, ReflTransGen (Run.Step next) (start .empty) s ∧
      (2, .saveVote sampleVote) ∈ s.returned ∧ s.storage.store.readMeta.vote = none ∧
      ¬s.Durable := by
  have run : ReflTransGen (Run.Step next) (start .empty : HardState Bool) _ :=
    Run.step_get [.begin true (.applyToStateMachine [⟨⟨1, 0, 1⟩, .blank⟩]),
      .begin false (.saveVote sampleVote), .commit false, .commit true] (by decide +kernel)
  refine ⟨_, run, by decide +kernel, by decide +kernel, fun durable => ?_⟩
  obtain ⟨w, present, -⟩ := durable.vote 2 _ (by decide +kernel) sampleVote rfl
  cases present

/-- Calls of both sides, interleaved and committed in order, with a crash. -/
theorem hard_state_durable_interleaved :
    ∃ s : HardState Bool, ReflTransGen (Run.SafeStep InOrder next) (start .empty) s ∧
      s.returned.length = 2 ∧ s.storage.store.readMeta.vote = some sampleVote ∧ s.Durable := by
  have run := Run.safeStep_get InOrder next (start .empty : HardState Bool)
    [.begin true (.applyToStateMachine [⟨⟨1, 0, 1⟩, .blank⟩]), .begin false (.saveVote sampleVote),
      .commit true, .commit false, .begin true (.purgeLogsUpto ⟨1, 0, 1⟩), .crash]
      (by decide +kernel)
  exact ⟨_, run, by decide +kernel, by decide +kernel, hard_state_durable run⟩

end HardState

def RaftStateMeta.Agrees (a b : RaftStateMeta) : Prop :=
  a.vote = b.vote ∧ a.lastLogId = b.lastLogId ∧ a.lastPurgedLogId = b.lastPurgedLogId ∧
    a.lastApplied = b.lastApplied

namespace RaftStorage

/-- The metadata in memory is what a restart would read. -/
def InStep (s : RaftStorage) : Prop := s.state.Agrees s.store.readMeta

/-- A call whose commit number `n` fails; with `none` it is a commit of the writes of applied
entries. -/
def failed (s : RaftStorage) (call : MetaCall) : Option ℕ → RaftStorage
  | none => s
  | some n =>
    let commits := s.commitsOf call
    ⟨s.store.commits (commits.batches.take n), if n + 1 < commits.batches.length then s.state else
    commits.state⟩

def Repeats (s : RaftStorage) : MetaCall → Prop
  | .saveVote vote => s.state.vote = some vote
  | .appendToLog entries => ∀ entry ∈ entries.getLast?, s.state.lastLogId = some entry.logId
  | .deleteConflictLogsSince logId => (s.store.log.get? logId.index).isSome →
      if logId.index = 1 then s.state.lastLogId = none
      else ∀ entry ∈ s.store.log.get? (previousIndex logId.index),
      s.state.lastLogId = some entry.logId
  | .purgeLogsUpto logId => s.state.lastPurgedLogId = some logId
  | .applyToStateMachine entries => ∀ entry ∈ entries.getLast?,
    s.state.lastApplied = some entry.logId

variable {s : RaftStorage}

theorem foundFrom_eq_nil_iff (log : SortedMap ℕ Entry) (idx : ℕ) :
    foundFrom log log.entries.length idx = [] ↔ ¬(log.get? idx).isSome := by
  constructor
  · intro none present
    have ends := get?_after_foundFrom log idx
    rw [none] at ends
    rw [List.length_nil, Nat.add_zero] at ends
    exact absurd present (by simp [ends])
  · intro absent
    cases log.entries.length with
    | zero => rfl
    | succ fuel => rw [foundFrom, if_neg absent]

theorem agrees_deleteConflictLogsSince (unreached : s.store.log.get? (2 ^ 64 - 1) = none)
    (logId : LogId) :
    (s.deleteConflictLogsSince logId).state.Agrees s.state ↔
      s.Repeats (.deleteConflictLogsSince logId) := by
  obtain ⟨log, -, state, kept⟩ := stages_deleteConflictLogsSince s logId
  -- The entry before the first one that is deleted stays.
  have before : log.get? (previousIndex logId.index) = s.store.log.get?
      (previousIndex logId.index) := by
    refine kept _ fun found => ?_
    have present := mem_foundFrom found
    rw [foundFrom_eq, List.mem_range'_1, previousIndex] at found
    rw [previousIndex] at present
    split_ifs at found present with zero
    · rw [unreached] at present
      cases present
    · omega
  rw [state, Repeats]
  by_cases present : (s.store.log.get? logId.index).isSome
  · rw [if_neg fun none => (foundFrom_eq_nil_iff _ _).mp none present, truncatedState]
    split_ifs with first
    · simp [RaftStateMeta.Agrees, present, eq_comm]
    · rw [before]
      cases s.store.log.get? (previousIndex logId.index) <;>
        simp [RaftStateMeta.Agrees, present, eq_comm]
  · rw [if_pos ((foundFrom_eq_nil_iff _ _).mpr present)]
    simp [RaftStateMeta.Agrees, present]

theorem agrees_commitsOf (unreached : s.store.log.get? (2 ^ 64 - 1) = none) (call : MetaCall) :
    (s.commitsOf call).state.Agrees s.state ↔ s.Repeats call := by
  cases call with
  | saveVote vote => simp [commitsOf, saveVote, RaftStateMeta.Agrees, Repeats, eq_comm]
  | appendToLog entries =>
    obtain ⟨saved, -, last, state⟩ := stages_appendToLog s entries
    rw [commitsOf, state, last]
    cases final : entries.getLast? <;> simp [RaftStateMeta.Agrees, Repeats, final, eq_comm]
  | deleteConflictLogsSince logId => exact agrees_deleteConflictLogsSince unreached logId
  | purgeLogsUpto logId => simp [commitsOf, purgeLogsUpto, RaftStateMeta.Agrees, Repeats, eq_comm]
  | applyToStateMachine entries =>
    rw [commitsOf, applyToStateMachine]
    split_ifs with none
    · simp [RaftStateMeta.Agrees, Repeats, none]
    · cases final : entries.getLast? <;>
        simp [RaftStateMeta.Agrees, Repeats, appliedState, final, eq_comm]

/-- After a failed call memory and store are in step exactly if the commit was not its last or the
call leaves the metadata as it was. -/
theorem failed_inStep_iff (inStep : s.InStep) (unreached : s.store.log.get? (2 ^ 64 - 1) = none)
    {call : MetaCall} {failure : Option ℕ}
    (made : ∀ n ∈ failure, n < (s.commitsOf call).batches.length) : (s.failed call failure).InStep ↔
      (∀ n ∈ failure, n + 1 < (s.commitsOf call).batches.length) ∨ s.Repeats call := by
  cases failure with
  | none => exact iff_of_true inStep (.inl nofun)
  | some n =>
    have stored : (s.store.commits ((s.commitsOf call).batches.take n)).readMeta =
        s.store.readMeta := by
      rw [RaftStore.readMeta, RaftStore.metaRecord_commits, RaftStore.readMeta]
      intro b member
      refine (saves_commitsOf s call).full b ?_
      rw [List.dropLast_eq_take]
      exact (List.take_sublist_take_left (Nat.le_sub_one_of_lt (made n rfl))).subset member
    have same : ∀ state : RaftStateMeta, state.Agrees s.store.readMeta ↔ state.Agrees s.state := by
      intro state
      obtain ⟨vote, last, purged, applied⟩ := inStep
      rw [RaftStateMeta.Agrees, RaftStateMeta.Agrees, vote, last, purged, applied]
    rw [← agrees_commitsOf unreached, InStep, failed]
    simp only [stored, same, Option.mem_def, Option.some.injEq, forall_eq']
    split_ifs with early
    · exact iff_of_true ⟨rfl, rfl, rfl, rfl⟩ (.inl early)
    · simp [early]

/-- The vote that could not be saved stays in memory. -/
theorem failed_vote_in_memory :
    (new .empty).InStep ∧ ((new .empty).failed (.saveVote ⟨1, 0, false⟩) (some 0)).state.vote =
      some ⟨1, 0, false⟩ ∧
      (new ((new .empty).failed (.saveVote ⟨1, 0, false⟩) (some 0)).store).state.vote = none :=
  ⟨⟨rfl, rfl, rfl, rfl⟩, rfl, rfl⟩

theorem failed_purge_repeated :
    ((new ⟨.empty, some { RaftStateMeta.default with lastPurgedLogId := some ⟨1, 0, 5⟩ }⟩).failed
      (.purgeLogsUpto ⟨1, 0, 5⟩) (some 0)).InStep :=
  (failed_inStep_iff ⟨rfl, rfl, rfl, rfl⟩ rfl (by rintro _ ⟨⟩; decide)).mpr (.inr rfl)

end RaftStorage

end OmniKV
