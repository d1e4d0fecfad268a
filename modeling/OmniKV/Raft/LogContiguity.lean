import OmniKV.Data.Run
import OmniKV.Raft.LogStore

/-!
# The log has no holes

The log state says which indices a node has. The first purge leaves index 0 in place. Deleting from
index 0 on, or from behind a purged entry, leaves the last log id; from index 1 on it is reset even
if index 0 is there. Only the last commit of a call has the metadata.
-/

namespace OmniKV

open List Option
open Relation (ReflTransGen)
open RaftStorage (truncatedState startIndex foundFrom purgeStart endIndex)

inductive LogCall
  | appendToLog (entries : List Entry)
  | deleteConflictLogsSince (logId : LogId)
  | purgeLogsUpto (logId : LogId)
  | installSnapshot (lastLogId : LogId) (membership : StoredMembership)

def RaftStateMeta.InLog (state : RaftStateMeta) (idx : ℕ) : Prop :=
  (∀ purged ∈ state.lastPurgedLogId, purged.index < idx) ∧ ∃ last ∈ state.lastLogId,
    idx ≤ last.index
deriving Decidable

def RaftStateMeta.nextIndex (state : RaftStateMeta) : ℕ :=
  match state.lastLogId.or state.lastPurgedLogId with
  | some id => id.index + 1
  | none => 0

def LogOp.entry? : LogOp → Option Entry
  | .set entry => some entry
  | .delete _ => none

/-- The storage of a node and all entries that it has committed, in this order. -/
structure LogHistory where
  storage : RaftStorage
  appended : List Entry

namespace LogHistory

def initial : LogHistory := ⟨.new .empty, []⟩

/-- The first `n` commits of a call. -/
def after (h : LogHistory) (call : LogCommits) (n : ℕ) : LogHistory :=
  ⟨h.storage.after call n, h.appended ++ ((call.batches.take n).flatMap RaftBatch.ops).filterMap
    LogOp.entry?⟩

/-- A call with arguments that Raft may pass, and the number of its commits that happen. -/
def next (h : LogHistory) : LogCall × ℕ → Option LogHistory
  | (.appendToLog entries, n) =>
    if entries.map (·.logId.index) = List.range' h.storage.state.nextIndex entries.length then
      some (h.after (h.storage.appendToLog entries) n)
    else none
  | (.deleteConflictLogsSince logId, n) =>
    if h.storage.state.InLog logId.index then
      some (h.after (h.storage.deleteConflictLogsSince logId) n)
    else none
  | (.purgeLogsUpto logId, n) =>
    if (∀ purged ∈ h.storage.state.lastPurgedLogId, purged.index ≤ logId.index) ∧
        ∃ last ∈ h.storage.state.lastLogId, logId.index ≤ last.index then
      some (h.after (h.storage.purgeLogsUpto logId) n)
    else none
  | (.installSnapshot lastLogId membership, _) =>
    some ⟨h.storage.installSnapshot lastLogId membership, h.appended⟩

/-- Reading any range returns its entries, as they were appended last, up to the first missing
index. -/
def Agree (h : LogHistory) : Prop :=
  ∀ start stop : RangeBound, (h.storage.tryGetLogEntries start stop).map some =
    ((List.range' (startIndex start)
        (endIndex stop - startIndex start)).takeWhile
          (h.storage.state.InLog ·)).map (lastWith h.appended)

/-- The call does not stop between two commits, and it is not one that gets the metadata
wrong. -/
def Safe (h : LogHistory) : LogCall × ℕ → Prop
  | (.appendToLog entries, n) =>
    n = 0 ∨ (h.storage.appendToLog entries).batches.length ≤ n
  | (.deleteConflictLogsSince logId, n) =>
    n = 0 ∨ (h.storage.deleteConflictLogsSince logId).batches.length ≤ n ∧
      (logId.index = 1 ∧ h.storage.store.log.get? 0 = none ∨
        2 ≤ logId.index ∧ h.storage.store.log.get? (logId.index - 1) ≠ none)
  | (.purgeLogsUpto logId, n) =>
    n = 0 ∨ (h.storage.purgeLogsUpto logId).batches.length ≤ n ∧
      h.storage.state.lastPurgedLogId ≠ none
  | (.installSnapshot _ _, _) => True

instance (h : LogHistory) (step : LogCall × ℕ) : Decidable (h.Safe step) := by
  obtain ⟨call, n⟩ := step
  cases call <;> unfold Safe <;> infer_instance

/-- The log has the last appended entry at each index that it reaches to, and no other. -/
structure Contiguous (h : LogHistory) : Prop where
  inside : ∀ idx, h.storage.state.InLog idx →
    h.storage.store.log.get? idx = lastWith h.appended idx ∧ (lastWith h.appended idx).isSome
  outside : ∀ idx, ¬h.storage.state.InLog idx → h.storage.store.log.get? idx = none

variable {h : LogHistory}

theorem Contiguous.inLog_iff (contiguous : h.Contiguous) {idx : ℕ} :
    h.storage.state.InLog idx ↔ h.storage.store.log.get? idx ≠ none := by
  constructor
  · intro inLog
    obtain ⟨same, stored⟩ := contiguous.inside idx inLog
    rw [same]
    exact isSome_iff_ne_none.mp stored
  · intro stored
    exact not_not.mp fun outside => stored (contiguous.outside idx outside)

theorem Contiguous.readLog (contiguous : h.Contiguous) (idx n : ℕ) :
    (h.storage.store.readLog idx n).map some =
      ((List.range' idx n).takeWhile (h.storage.state.InLog ·)).map (lastWith h.appended) := by
  induction n generalizing idx with
  | zero => rfl
  | succ n ih =>
    rw [RaftStore.readLog, range'_succ, takeWhile_cons]
    by_cases inLog : h.storage.state.InLog idx
    · obtain ⟨same, stored⟩ := contiguous.inside idx inLog
      obtain ⟨entry, last⟩ := isSome_iff_exists.mp stored
      rw [same, last, if_pos (decide_eq_true inLog), map_cons, map_cons, ih, last]
    · rw [contiguous.outside idx inLog, if_neg (by simpa using inLog)]
      rfl

theorem agree_iff : h.Agree ↔ h.Contiguous := by
  constructor
  · intro agree
    -- Read one index at a time.
    have single : ∀ idx, (h.storage.store.readLog idx 1).map some =
        ((List.range' idx 1).takeWhile (h.storage.state.InLog ·)).map (lastWith h.appended) := by
      intro idx
      have read := agree (.included idx) (.included idx)
      rwa [RaftStorage.tryGetLogEntries, startIndex, endIndex, Nat.add_sub_cancel_left] at read
    refine ⟨fun idx inLog => ?_, fun idx outside => ?_⟩
    · have read := single idx
      cases stored : h.storage.store.log.get? idx with
      | none => simp [RaftStore.readLog, stored, inLog] at read
      | some entry =>
        have same : some entry = lastWith h.appended idx := by
          simpa [RaftStore.readLog, stored, inLog] using read
        exact ⟨same, same ▸ rfl⟩
    · have read := single idx
      cases stored : h.storage.store.log.get? idx with
      | none => rfl
      | some entry => simp [RaftStore.readLog, stored, outside] at read
  · exact fun contiguous start stop => contiguous.readLog _ _

inductive Progress (h : LogHistory) (call : LogCommits) (ops : List LogOp)
    (saved : Option RaftStateMeta) (h' : LogHistory) : ℕ → Prop
  | nothing (store : h'.storage = .new h.storage.store) (appended : h'.appended = h.appended) :
      Progress h call ops saved h' 0
  | part {n m : ℕ} (started : n ≠ 0) (stopped : n < call.batches.length) (some : 0 < m)
      (nonempty : ops ≠ [])
      (log : h'.storage.store.log = (ops.take m).foldl LogOp.apply h.storage.store.log)
      (unsaved : h'.storage.store.metaRecord = h.storage.store.metaRecord)
      (state : h'.storage.state = h.storage.store.readMeta) :
      Progress h call ops saved h' n
  | done {n : ℕ} (started : n ≠ 0) (finished : call.batches.length ≤ n)
      (log : h'.storage.store.log = ops.foldl LogOp.apply h.storage.store.log)
      (metaRecord : h'.storage.store.metaRecord = saved.or h.storage.store.metaRecord)
      (state : h'.storage.state = call.state)
      (appended : h'.appended = h.appended ++ ops.filterMap LogOp.entry?) :
      Progress h call ops saved h' n

theorem progress_after {call : LogCommits} {ops : List LogOp} {saved : Option RaftStateMeta}
    (stages : call.Stages ops saved) (h : LogHistory) (n : ℕ) :
    Progress h call ops saved (h.after call n) n := by
  obtain ⟨full, last, batches, order, unsaved, nonempty, lastSaved⟩ := stages
  have length : call.batches.length = full.length + 1 := by simp [batches]
  obtain rfl | positive := Nat.eq_zero_or_pos n
  · refine .nothing ?_ (by simp [after])
    rw [after, RaftStorage.after, if_neg (by omega)]
    rfl
  · obtain stopped | finished := Nat.lt_or_ge n call.batches.length
    · have taken : call.batches.take n = full.take n := by
        rw [batches, take_append_of_le_length (by omega)]
      have free : ∀ b ∈ call.batches.take n, b.saved = none := by
        rw [taken]
        exact fun b member => unsaved b (mem_of_mem_take member)
      have record : (h.storage.store.commits (call.batches.take n)).metaRecord =
          h.storage.store.metaRecord := RaftStore.metaRecord_commits free
      have initial : (full.take n).flatMap RaftBatch.ops <+: ops := by
        refine .trans ?_ (order ▸ prefix_append _ _)
        obtain ⟨rest, split⟩ := take_prefix n full
        rw [← split, flatMap_append]
        simp only [split]
        exact prefix_append _ _
      obtain ⟨b, rest, split⟩ : ∃ b rest, full.take n = b :: rest := by
        refine exists_cons_of_ne_nil fun none => ?_
        have := congrArg List.length none
        simp only [length_take, length_nil] at this
        omega
      have head : b.ops ≠ [] := nonempty b (mem_of_mem_take (split ▸ mem_cons_self))
      have some : (full.take n).flatMap RaftBatch.ops ≠ [] := by
        rw [split]
        exact fun none => head (append_eq_nil_iff.mp none).1
      have here :
          (h.after call n).storage = .new (h.storage.store.commits (call.batches.take n)) := by
        rw [after, RaftStorage.after, if_neg (not_le.mpr stopped)]
      refine .part positive.ne' stopped (length_pos_iff.mpr some) ?_ ?_ ?_ ?_
      · rintro rfl
        exact some (prefix_nil.mp initial)
      · rw [← prefix_iff_eq_take.mp initial, ← taken, ← RaftStore.log_commits, here]
        rfl
      · rw [here]
        exact record
      · rw [here, RaftStorage.new, RaftStore.readMeta, record]
        rfl
    · have all : call.batches.take n = full ++ [last] := by
        rw [take_of_length_le finished, batches]
      have total : (full ++ [last]).flatMap RaftBatch.ops = ops := by
        simpa [flatMap_append] using order
      have here : (h.after call n).storage = ⟨h.storage.store.commits (full ++ [last]),
          call.state⟩ := by
        rw [after, RaftStorage.after, if_pos finished, all]
      refine .done positive.ne' finished ?_ ?_ ?_ ?_
      · rw [here, RaftStore.log_commits, total]
      · rw [here, RaftStore.commits_concat, RaftStore.commit, lastSaved,
          RaftStore.metaRecord_commits unsaved]
      · rw [here]
      · rw [after, all, total]

/-- What holds between calls. -/
structure Inv (h : LogHistory) : Prop where
  contiguous : h.Contiguous
  stored : h.storage.state = h.storage.store.readMeta
  indexed : ∀ idx entry, h.storage.store.log.get? idx = some entry → entry.logId.index = idx
  ordered : ∀ purged ∈ h.storage.state.lastPurgedLogId, ∀ last ∈ h.storage.state.lastLogId,
  purged.index ≤ last.index

/-- After a safe call the invariant holds again, and after any other the log is not
contiguous. -/
def Exactly (safe : Prop) (h' : LogHistory) : Prop := (safe → h'.Inv) ∧ (h'.Contiguous → safe)

variable {h' : LogHistory}

theorem exactly_of_inv {safe : Prop} (holds : safe) (inv : h'.Inv) : Exactly safe h' :=
  ⟨fun _ => inv, fun _ => holds⟩

theorem exactly_of_not {safe : Prop} (fails : ¬safe) (broken : ¬h'.Contiguous) :
    Exactly safe h' := ⟨fun holds => absurd holds fails, fun kept => absurd kept broken⟩

namespace Inv

/-- A crash before the first commit changes nothing. -/
theorem restart (inv : h.Inv) {h' : LogHistory} (store : h'.storage = .new h.storage.store)
    (appended : h'.appended = h.appended) : h'.Inv := by
  have same : h' = h := by
    obtain ⟨⟨store', state'⟩, appended'⟩ := h'
    obtain ⟨⟨store₀, state₀⟩, appended₀⟩ := h
    have stored : state₀ = store₀.readMeta := inv.stored
    cases store
    cases appended
    rw [stored]
  exact same ▸ inv

theorem indexed_delete (inv : h.Inv) (indices : List ℕ) (idx : ℕ) (entry : Entry)
    (found : ((indices.map LogOp.delete).foldl LogOp.apply h.storage.store.log).get? idx =
    some entry) : entry.logId.index = idx := by
  rw [get?_foldl_delete] at found
  split_ifs at found
  exact inv.indexed idx entry found

end Inv

section Append

variable {entries : List Entry} {state : RaftStateMeta}

theorem not_inLog_of_nextIndex_le {idx : ℕ} (beyond : state.nextIndex ≤ idx) :
    ¬state.InLog idx := by
  rintro ⟨-, last, isLast, within⟩
  rw [RaftStateMeta.nextIndex, mem_def.mp isLast] at beyond
  exact absurd within (not_le.mpr beyond)

/-- With new entries the log reaches further by their number. -/
theorem inLog_append (ordered : ∀ purged ∈ state.lastPurgedLogId, ∀ last ∈ state.lastLogId,
    purged.index ≤ last.index)
    {id : LogId} {n : ℕ} (positive : 0 < n) (index : id.index + 1 = state.nextIndex + n) (idx : ℕ) :
    ({ state with lastLogId := some id } : RaftStateMeta).InLog idx ↔
      state.InLog idx ∨ state.nextIndex ≤ idx ∧ idx < state.nextIndex + n := by
  obtain ⟨vote, lastLog, purged, applied, membership⟩ := state
  cases lastLog <;> cases purged <;>
    simp [RaftStateMeta.InLog, RaftStateMeta.nextIndex] at ordered index ⊢ <;> omega

theorem filterMap_entry?_set (entries : List Entry) :
    (entries.map LogOp.set).filterMap LogOp.entry? = entries := by
  rw [filterMap_map]
  exact filterMap_some

theorem filterMap_entry?_delete (indices : List ℕ) :
    (indices.map LogOp.delete).filterMap LogOp.entry? = [] := by
  rw [filterMap_map]
  exact filterMap_eq_nil_iff.mpr fun _ _ => rfl

variable (inv : h.Inv)
  (extends_ : entries.map (·.logId.index) = List.range' h.storage.state.nextIndex entries.length)

include inv extends_

theorem Inv.saved_append {saved : Option RaftStateMeta}
    (isState : state = saved.getD h.storage.state)
    (final : saved = entries.getLast?.map fun e =>
    { h.storage.state with lastLogId := some e.logId }) :
    (∀ idx, state.InLog idx ↔ h.storage.state.InLog idx ∨
      h.storage.state.nextIndex ≤ idx ∧ idx < h.storage.state.nextIndex + entries.length) ∧
    ∀ purged ∈ state.lastPurgedLogId, ∀ last ∈ state.lastLogId, purged.index ≤ last.index := by
  obtain rfl | ⟨front, e, rfl⟩ := eq_nil_or_concat' entries
  · obtain rfl : state = h.storage.state := by rw [isState, final]; rfl
    exact ⟨fun idx => by simp, inv.ordered⟩
  · rw [getLast?_concat] at final
    obtain rfl : state = { h.storage.state with lastLogId := some e.logId } :=
      by rw [isState, final]; rfl
    have index : e.logId.index + 1 = h.storage.state.nextIndex + (front ++ [e]).length := by
      rw [length_append, length_singleton, range'_1_concat, map_append] at extends_
      have last := (append_inj' extends_ rfl).2
      have same : e.logId.index = h.storage.state.nextIndex + front.length := (List.cons.inj last).1
      rw [length_append, length_singleton, same, Nat.add_assoc]
    refine ⟨inLog_append inv.ordered (by simp) index, ?_⟩
    rintro purged isPurged last ⟨⟩
    -- The new last index is not below the old one, or the purged one if there was none.
    have ordered := inv.ordered purged isPurged
    rw [length_append, RaftStateMeta.nextIndex] at index
    rw [isPurged] at index
    cases old : h.storage.state.lastLogId with
    | none =>
      simp only [old, none_or] at index
      omega
    | some l =>
      have := ordered l old
      simp only [old, some_or] at index
      omega

theorem Inv.appendToLog (n : ℕ) :
    Exactly (n = 0 ∨ (h.storage.appendToLog entries).batches.length ≤ n)
      (h.after (h.storage.appendToLog entries) n) := by
  obtain ⟨saved, stages, final, state⟩ := LogCommits.stages_appendToLog h.storage entries
  cases progress_after stages h n with
  | nothing store appended => exact exactly_of_inv (.inl rfl) (inv.restart store appended)
  | @part n m started stopped some nonempty log unsaved restarted =>
    -- The first new entry is there, and the metadata does not know of it.
    refine exactly_of_not (by omega) fun kept => ?_
    obtain ⟨e, rest, rfl⟩ : ∃ e rest, entries = e :: rest :=
      exists_cons_of_ne_nil fun none => nonempty (by rw [none]; rfl)
    have index : e.logId.index = h.storage.state.nextIndex := (List.cons.inj extends_).1
    have outside :
        ¬(h.after (h.storage.appendToLog (e :: rest)) n).storage.state.InLog e.logId.index := by
      rw [restarted, ← inv.stored]
      exact not_inLog_of_nextIndex_le index.ge
    have missing := kept.outside _ outside
    rw [log, ← map_take, get?_foldl_set] at missing
    have present : (lastWith ((e :: rest).take m) e.logId.index).isSome := by
      rw [isSome_lastWith]
      exact mem_map.mpr ⟨e, by
        obtain ⟨k, rfl⟩ := Nat.exists_eq_succ_of_ne_zero some.ne'
        exact mem_cons_self, rfl⟩
    obtain ⟨stored, last⟩ := isSome_iff_exists.mp present
    rw [last] at missing
    cases missing
  | done started finished log metaRecord restated appended =>
    refine exactly_of_inv (.inr finished) ?_
    rw [filterMap_entry?_set] at appended
    obtain ⟨reach, ordered⟩ := inv.saved_append extends_ (restated.trans state) final
    have stored : ∀ idx, (lastWith entries idx).isSome ↔
        h.storage.state.nextIndex ≤ idx ∧ idx < h.storage.state.nextIndex + entries.length := by
      intro idx
      rw [isSome_lastWith, extends_, mem_range'_1]
    have content : ∀ idx, (h.after (h.storage.appendToLog entries) n).storage.store.log.get? idx =
        (lastWith entries idx).or (h.storage.store.log.get? idx) := by
      intro idx
      rw [log, get?_foldl_set]
    refine ⟨⟨fun idx inLog => ?_, fun idx outside => ?_⟩, ?_, fun idx entry found => ?_, ordered⟩
    · rw [content, appended, lastWith_append]
      cases new : lastWith entries idx with
      | some e => exact ⟨rfl, rfl⟩
      | none =>
        refine inv.contiguous.inside idx (((reach idx).mp inLog).resolve_right fun within => ?_)
        have := (stored idx).mpr within
        rw [new] at this
        cases this
    · rw [reach] at outside
      push Not at outside
      rw [content, inv.contiguous.outside idx outside.1, or_none]
      refine not_isSome_iff_eq_none.mp fun present => ?_
      have within := (stored idx).mp present
      exact absurd within.2 (not_lt.mpr (outside.2 within.1))
    · rw [restated, state, RaftStore.readMeta, metaRecord, inv.stored]
      cases saved <;> rfl
    · rw [content] at found
      cases new : lastWith entries idx with
      | some e =>
        rw [new] at found
        exact Option.some.inj found ▸ index_of_lastWith new
      | none =>
        rw [new] at found
        exact inv.indexed idx entry found

end Append

section Delete

variable {indices : List ℕ} (inv : h.Inv)

include inv

theorem Inv.of_deletes {call : LogCommits} {state : RaftStateMeta} {fits : Prop} {n : ℕ}
    (stages : call.Stages (indices.map .delete) (some state)) (isState : call.state = state)
    (head : ∀ i ∈ indices.head?, h.storage.state.InLog i)
    (complete : ∀ h' : LogHistory, h'.storage.state = state → h'.appended = h.appended →
      (∀ idx, h'.storage.store.log.get? idx = if idx ∈ indices then none else
        h.storage.store.log.get? idx) →
      (fits → h'.Contiguous ∧ ∀ purged ∈ state.lastPurgedLogId, ∀ last ∈ state.lastLogId,
        purged.index ≤ last.index) ∧ (h'.Contiguous → fits)) :
    Exactly (n = 0 ∨ call.batches.length ≤ n ∧ fits) (h.after call n) := by
  cases progress_after stages h n with
  | nothing store appended => exact exactly_of_inv (.inl rfl) (inv.restart store appended)
  | @part n m started stopped some nonempty log unsaved restarted =>
    refine exactly_of_not (by omega) fun kept => ?_
    obtain ⟨i, rest, rfl⟩ : ∃ i rest, indices = i :: rest :=
      exists_cons_of_ne_nil fun none => nonempty (by rw [none]; rfl)
    have inLog : (h.after call n).storage.state.InLog i := by
      rw [restarted, ← inv.stored]
      exact head i rfl
    refine kept.inLog_iff.mp inLog ?_
    rw [log, ← map_take, get?_foldl_delete, if_pos]
    obtain ⟨k, rfl⟩ := Nat.exists_eq_succ_of_ne_zero some.ne'
    exact mem_cons_self
  | done started finished log metaRecord restated appended =>
    rw [filterMap_entry?_delete, append_nil] at appended
    have content : ∀ idx, (h.after call n).storage.store.log.get? idx =
        if idx ∈ indices then none else h.storage.store.log.get? idx := by
      intro idx
      rw [log, get?_foldl_delete]
    have isState := restated.trans isState
    obtain ⟨kept, exact⟩ := complete _ isState appended content
    refine ⟨fun safe => ?_, fun contiguous => .inr ⟨finished, exact contiguous⟩⟩
    obtain ⟨contiguous, ordered⟩ := kept (safe.resolve_left started).2
    refine ⟨contiguous, ?_, fun idx entry found => ?_, isState ▸ ordered⟩
    · rw [isState, RaftStore.readMeta, metaRecord]
      rfl
    · exact inv.indexed_delete indices idx entry (log ▸ found)

/-- From an index inside the log, the conflict loop finds everything up to the end. -/
theorem Inv.foundFrom_eq {i : ℕ} {last : LogId}
    (isLast : h.storage.state.lastLogId = some last) (inLog : h.storage.state.InLog i) :
    foundFrom h.storage.store.log h.storage.store.log.entries.length i =
      List.range' i (last.index + 1 - i) := by
  have range := RaftStorage.foundFrom_eq h.storage.store.log h.storage.store.log.entries.length i
  have stop := RaftStorage.get?_after_foundFrom h.storage.store.log i
  have found : ∀ j ∈ foundFrom h.storage.store.log h.storage.store.log.entries.length i,
      (h.storage.store.log.get? j).isSome := fun j member => RaftStorage.mem_foundFrom member
  generalize foundFrom h.storage.store.log h.storage.store.log.entries.length i = list
    at range stop found ⊢
  rw [range]
  congr 1
  obtain ⟨above, last', isLast', -⟩ := inLog
  have beyond : ¬h.storage.state.InLog (i + list.length) :=
    fun inLog => inv.contiguous.inLog_iff.mp inLog stop
  have far : last.index < i + list.length := by
    by_contra near
    refine beyond ⟨fun purged isPurged => ?_, last, isLast, not_lt.mp near⟩
    exact (above purged isPurged).trans_le (Nat.le_add_right _ _)
  obtain none | positive := Nat.eq_zero_or_pos list.length
  · omega
  · have member : i + list.length - 1 ∈ list := by
      rw [range, mem_range'_1, length_range']
      omega
    have inside := inv.contiguous.inLog_iff.mpr (isSome_iff_ne_none.mp (found _ member))
    obtain ⟨-, last', isLast', within⟩ := inside
    obtain rfl := Option.some.inj (isLast.symm.trans isLast')
    omega

/-- Without the entries from `i` on the log is contiguous if the last log id is that of the entry
before. -/
theorem Inv.truncated {i : ℕ} {last : LogId} (inLog : h.storage.state.InLog i)
    (isLast : h.storage.state.lastLogId = some last) {log : SortedMap ℕ Entry}
    (before : ∀ idx < i, log.get? idx = h.storage.store.log.get? idx) {h' : LogHistory}
    (state : h'.storage.state = truncatedState h.storage.state log i)
    (appended : h'.appended = h.appended)
    (content : ∀ idx, h'.storage.store.log.get? idx =
      if i ≤ idx ∧ idx ≤ last.index then none else h.storage.store.log.get? idx) :
    (i = 1 ∧ h.storage.store.log.get? 0 = none ∨ 2 ≤ i ∧ h.storage.store.log.get? (i - 1) ≠ none →
      h'.Contiguous ∧ ∀ purged ∈ h'.storage.state.lastPurgedLogId,
        ∀ last ∈ h'.storage.state.lastLogId, purged.index ≤ last.index) ∧
    (h'.Contiguous → i = 1 ∧ h.storage.store.log.get? 0 = none ∨
      2 ≤ i ∧ h.storage.store.log.get? (i - 1) ≠ none) := by
  have purged : h'.storage.state.lastPurgedLogId = h.storage.state.lastPurgedLogId := by
    rw [state, truncatedState]
    split_ifs
    · rfl
    · split <;> rfl
  have inside : ∀ idx, idx < i → h'.storage.store.log.get? idx = h.storage.store.log.get? idx := by
    intro idx small
    rw [content, if_neg (by omega)]
  have outside : ∀ idx, i ≤ idx → h'.storage.store.log.get? idx = none := by
    intro idx large
    rw [content]
    split_ifs with gone
    · rfl
    · refine inv.contiguous.outside idx fun ⟨_, last', isLast', within⟩ => gone ⟨large, ?_⟩
      rwa [Option.some.inj (isLast.symm.trans isLast')]
  obtain ⟨above, last', isLast', within⟩ := inLog
  obtain rfl := Option.some.inj (isLast.symm.trans isLast')
  -- If the metadata still reaches to `i`, the log does not.
  have stale : ∀ id, h'.storage.state.lastLogId = some id → i ≤ id.index → ¬h'.Contiguous := by
    intro id isId reaches kept
    refine kept.inLog_iff.mp ⟨fun p isPurged => above p (purged ▸ isPurged), id, isId, reaches⟩ ?_
    exact outside i le_rfl
  obtain small | large := Nat.lt_or_ge i 2
  · obtain rfl | positive := Nat.eq_zero_or_pos i
    · obtain ⟨id, isId⟩ : ∃ id, h'.storage.state.lastLogId = some id := by
        rw [state, truncatedState, if_neg (by decide)]
        split
        · exact ⟨_, rfl⟩
        · exact ⟨last, isLast⟩
      exact ⟨fun fits => by omega, fun kept => absurd kept (stale id isId (Nat.zero_le _))⟩
    · obtain rfl : i = 1 := by omega
      have noLast : h'.storage.state.lastLogId = none := by
        rw [state, truncatedState, if_pos rfl]
      have nothing : ∀ idx, ¬h'.storage.state.InLog idx := by
        rintro idx ⟨-, id, isId, -⟩
        rw [noLast] at isId
        cases isId
      refine ⟨fun fits => ⟨⟨fun idx inLog => absurd inLog (nothing idx), fun idx _ => ?_⟩, ?_⟩, ?_⟩
      · obtain rfl | later := Nat.eq_zero_or_pos idx
        · rw [inside 0 Nat.one_pos]
          exact (fits.resolve_right fun two => absurd two.1 (by decide)).2
        · exact outside idx later
      · rintro p - id isId
        rw [noLast] at isId
        cases isId
      · intro kept
        refine .inl ⟨rfl, ?_⟩
        rw [← inside 0 Nat.one_pos]
        exact kept.outside 0 (nothing 0)
  · have previous : log.get? (RaftStorage.previousIndex i) = h.storage.store.log.get? (i - 1) := by
      rw [RaftStorage.previousIndex, if_neg (by omega)]
      exact before (i - 1) (by omega)
    cases found : h.storage.store.log.get? (i - 1) with
    | none =>
      have broken : ¬h'.Contiguous := by
        refine stale last ?_ within
        rw [state, truncatedState, if_neg (by omega), previous, found]
        exact isLast
      refine ⟨fun fits => ?_, fun kept => absurd kept broken⟩
      obtain ⟨one, -⟩ | ⟨-, present⟩ := fits
      · omega
      · exact absurd rfl present
    | some entry =>
      have index := inv.indexed (i - 1) entry found
      have newLast : h'.storage.state.lastLogId = some entry.logId := by
        rw [state, truncatedState, if_neg (by omega), previous, found]
      have reach : ∀ idx, h'.storage.state.InLog idx ↔ h.storage.state.InLog idx ∧ idx < i := by
        intro idx
        simp only [RaftStateMeta.InLog, purged, newLast, isLast, mem_def, Option.some.injEq,
          exists_eq_left']
        constructor
        · rintro ⟨low, high⟩
          exact ⟨⟨low, by omega⟩, by omega⟩
        · rintro ⟨⟨low, -⟩, small⟩
          exact ⟨low, by omega⟩
      refine ⟨fun _ => ⟨⟨fun idx inLog => ?_, fun idx beyond => ?_⟩, ?_⟩, fun _ =>
        .inr ⟨large, some_ne_none _⟩⟩
      · obtain ⟨inLog, small⟩ := (reach idx).mp inLog
        rw [inside idx small, appended]
        exact inv.contiguous.inside idx inLog
      · obtain small | far := Nat.lt_or_ge idx i
        · rw [inside idx small]
          exact inv.contiguous.outside idx fun inLog => beyond ((reach idx).mpr ⟨inLog, small⟩)
        · exact outside idx far
      · intro p isPurged id isId
        rw [newLast] at isId
        cases isId
        have := above p (purged ▸ isPurged)
        omega

theorem Inv.deleteConflictLogsSince {logId : LogId} (inLog : h.storage.state.InLog logId.index)
    (n : ℕ) : Exactly (h.Safe (.deleteConflictLogsSince logId, n))
      (h.after (h.storage.deleteConflictLogsSince logId) n) := by
  obtain ⟨above, last, isLast, within⟩ := inLog
  have found := inv.foundFrom_eq isLast ⟨above, last, isLast, within⟩
  have some : List.range' logId.index (last.index + 1 - logId.index) ≠ [] := by simp; omega
  have member : ∀ idx, idx ∈ List.range' logId.index (last.index + 1 - logId.index) ↔
      logId.index ≤ idx ∧ idx ≤ last.index := by
    intro idx
    rw [mem_range'_1]
    omega
  obtain ⟨log, stages, state, before⟩ := LogCommits.stages_deleteConflictLogsSince h.storage logId
  rw [found] at stages state before
  rw [if_neg some] at stages state
  refine inv.of_deletes stages state ?_ ?_
  · intro i isHead
    have first := (member i).mp (mem_of_mem_head? isHead)
    exact ⟨fun purged isPurged => (above purged isPurged).trans_le first.1, last, isLast, first.2⟩
  · intro h' state appended content
    rw [← state]
    refine inv.truncated ⟨above, last, isLast, within⟩ isLast (fun idx small => ?_) state appended
      ?_
    · exact before idx fun deleted => absurd small (not_lt.mpr ((member idx).mp deleted).1)
    · intro idx
      rw [content]
      exact if_congr (member idx) rfl rfl

theorem Inv.purgeLogsUpto {logId : LogId}
    (after : ∀ purged ∈ h.storage.state.lastPurgedLogId, purged.index ≤ logId.index)
    (within : ∃ last ∈ h.storage.state.lastLogId, logId.index ≤ last.index) (n : ℕ) :
    Exactly (h.Safe (.purgeLogsUpto logId, n)) (h.after (h.storage.purgeLogsUpto logId) n) := by
  obtain ⟨last, isLast, within⟩ := within
  have isLast : h.storage.state.lastLogId = some last := isLast
  refine inv.of_deletes (LogCommits.stages_purgeLogsUpto h.storage logId) rfl ?_ ?_
  · intro i isHead
    have first := mem_of_mem_head? isHead
    rw [mem_range'_1] at first
    refine ⟨fun purged isPurged => ?_, last, isLast, by omega⟩
    rw [purgeStart, mem_def.mp isPurged] at first
    exact first.1
  · intro h' state appended content
    cases purged : h.storage.state.lastPurgedLogId with
    | none =>
      -- Index 0 is in the log, and it is not deleted.
      refine ⟨fun some => absurd rfl some, fun kept => absurd (kept.outside 0 ?_) ?_⟩
      · rw [state]
        exact fun inLog => absurd (inLog.1 logId rfl) (Nat.not_lt_zero _)
      · rw [content, purgeStart, purged, if_neg (by simp)]
        refine inv.contiguous.inLog_iff.mp ⟨fun p isPurged => ?_, last, isLast, Nat.zero_le _⟩
        rw [purged] at isPurged
        cases isPurged
    | some p =>
      have bound := after p purged
      have reach : ∀ idx, h'.storage.state.InLog idx ↔ h.storage.state.InLog idx ∧
          logId.index < idx := by
        simp only [state, RaftStateMeta.InLog, purged, isLast, mem_def,
          Option.some.injEq, forall_eq', exists_eq_left']
        omega
      have gone : ∀ idx, h'.storage.store.log.get? idx =
          if p.index < idx ∧ idx ≤ logId.index then none else h.storage.store.log.get? idx := by
        intro idx
        rw [content, purgeStart, purged]
        refine if_congr ?_ rfl rfl
        show idx ∈ List.range' (p.index + 1) (logId.index + 1 - (p.index + 1)) ↔ _
        rw [mem_range'_1]
        omega
      refine ⟨fun _ => ⟨⟨fun idx inLog => ?_, fun idx beyond => ?_⟩, ?_⟩, fun _ => some_ne_none _⟩
      · obtain ⟨inLog, far⟩ := (reach idx).mp inLog
        rw [gone, if_neg (by omega), appended]
        exact inv.contiguous.inside idx inLog
      · rw [gone]
        split_ifs with deleted
        · rfl
        · refine inv.contiguous.outside idx fun inLog => beyond ((reach idx).mpr ⟨inLog, ?_⟩)
          have := inLog.1 p purged
          omega
      · rintro _ ⟨⟩ l isL
        exact Option.some.inj (isLast.symm.trans isL) ▸ within

end Delete

theorem inv_initial : initial.Inv where
  contiguous := ⟨fun _ inLog => absurd inLog.2 (by rintro ⟨_, ⟨⟩, _⟩), fun _ _ => rfl⟩
  stored := rfl
  indexed := nofun
  ordered := nofun

/-- One call, with arguments that Raft may pass. -/
theorem Inv.next (inv : h.Inv) {step : LogCall × ℕ} (taken : h.next step = some h') :
    Exactly (h.Safe step) h' := by
  obtain ⟨call, n⟩ := step
  cases call with
  | appendToLog entries =>
    rw [LogHistory.next] at taken
    split_ifs at taken with extends_
    exact Option.some.inj taken ▸ inv.appendToLog extends_ n
  | deleteConflictLogsSince logId =>
    rw [LogHistory.next] at taken
    split_ifs at taken with inLog
    exact Option.some.inj taken ▸ inv.deleteConflictLogsSince inLog n
  | purgeLogsUpto logId =>
    rw [LogHistory.next] at taken
    split_ifs at taken with bounds
    exact Option.some.inj taken ▸ inv.purgeLogsUpto bounds.1 bounds.2 n
  | installSnapshot lastLogId membership =>
    cases taken
    refine exactly_of_inv trivial ⟨⟨fun idx inLog => ?_, fun _ _ => rfl⟩, rfl, ?_, ?_⟩
    · obtain ⟨above, _, ⟨⟩, within⟩ := inLog
      exact absurd within (not_le.mpr (above lastLogId rfl))
    · exact nofun
    · rintro _ ⟨⟩ _ ⟨⟩
      exact le_rfl

/-- After safe calls log state and log agree; after a further call they agree if and only if it is
safe. -/
theorem log_contiguous (run : ReflTransGen (Run.SafeStep Safe next) initial h) :
    h.Agree ∧ ∀ step h', h.next step = some h' → (h'.Agree ↔ h.Safe step) := by
  have inv : h.Inv := Run.invariant run inv_initial fun inv safe taken => (inv.next taken).1 safe
  refine ⟨agree_iff.mpr inv.contiguous, fun step h' taken => ?_⟩
  obtain ⟨kept, exact⟩ := inv.next taken
  rw [agree_iff]
  exact ⟨exact, fun safe => (kept safe).contiguous⟩

/-- A blank entry at an index. -/
def sampleEntry (index : ℕ) : Entry := ⟨⟨1, 0, index⟩, .blank⟩

/-- The first purge leaves index 0 in the log. -/
theorem log_not_contiguous : ∃ h, ReflTransGen (Run.Step next) initial h ∧ ¬h.Agree := by
  have run : ReflTransGen (Run.Step next) initial _ := Run.step_get
    [(.appendToLog [sampleEntry 0, sampleEntry 1], 1), (.purgeLogsUpto ⟨1, 0, 1⟩, 1)]
    (by decide +kernel)
  refine ⟨_, run, fun agree => ?_⟩
  have outside := (agree_iff.mp agree).outside 0 (by decide +kernel)
  exact absurd outside (by decide +kernel)

/-- A run with a crash, a truncation and a purge behind an installed snapshot. -/
theorem log_contiguous_after_snapshot : ∃ h, ReflTransGen (Run.SafeStep Safe next) initial h ∧
      h.storage.state.lastPurgedLogId = some ⟨1, 0, 6⟩ ∧
      h.storage.state.lastLogId = some ⟨1, 0, 7⟩ ∧ h.Agree := by
  have run := Run.safeStep_get Safe next initial [(.installSnapshot ⟨1, 0, 5⟩ ⟨none, []⟩, 0),
      (.appendToLog [sampleEntry 6, sampleEntry 7, sampleEntry 8], 1),
      (.purgeLogsUpto ⟨1, 0, 7⟩, 0), (.deleteConflictLogsSince ⟨1, 0, 8⟩, 1),
      (.purgeLogsUpto ⟨1, 0, 6⟩, 1)] (by decide +kernel)
  exact ⟨_, run, by decide +kernel, by decide +kernel, (log_contiguous run).1⟩

end LogHistory

end OmniKV
