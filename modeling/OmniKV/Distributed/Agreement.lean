import OmniKV.Distributed.TwoPhase

/-!
# Agreement of two-phase commit

One coordinator and any number of participants exchange messages that can be lost, repeated and
reordered. Every trace of a decision agrees with the state of its transaction, unless one that is
already committing is aborted.
-/

namespace OmniKV.TwoPhase

open List Coordinator

/-- The coordinator, the participants, calls in flight, messages sent, and which node resolved which
transaction how. -/
structure System where
  coordinator : Coordinator
  participants : ℕ → Participant
  calls : List Call
  sent : List Message
  resolved : List (ℕ × GlobalTxnId × LogState)

inductive Action
  | begin (now : UInt64)
  | addWrite (txnId : GlobalTxnId) (nodeId : ℕ) (key : Bytes) (value : Option Bytes) (ttl : UInt64)
  | prepare (txnId : GlobalTxnId) (now : UInt64) (outcome : CommitOutcome)
  | receiveVote (result : PrepareResult)
  | finalizeCommit (txnId : GlobalTxnId)
  | abort (txnId : GlobalTxnId)
  | resume (call : ℕ) (now : UInt64) (outcome : CommitOutcome)
  | deliverPrepare (txnId : GlobalTxnId) (nodeId : ℕ) (writes : List DistWrite) (now : UInt64)
      (outcome : CommitOutcome)
  | deliverCommit (txnId : GlobalTxnId) (nodeId : ℕ) (outcome marker : CommitOutcome)
  | deliverAbort (txnId : GlobalTxnId) (nodeId : ℕ) (marker : CommitOutcome)
  | restart (nodeId : ℕ)

namespace System

/-- A new coordinator with an empty log, and participants with any databases. -/
def initial (nodeId : ℕ) (timeoutMs : UInt64) (dbs : ℕ → TimedStore) : System :=
  ⟨.new nodeId .empty timeoutMs, fun node => .new node (dbs node), [], [], []⟩

def putParticipant (s : System) (nodeId : ℕ) (p : Participant) : System :=
  { s with participants := Function.update s.participants nodeId p }

/-- One step. Calls that fail without touching the state, and `check_timeouts`, which only reads,
are no steps. -/
def next (s : System) : Action → Option System
  | .begin now => some { s with coordinator := (s.coordinator.begin now).2 }
  | .addWrite txnId nodeId key value ttl =>
    (s.coordinator.addWrite txnId nodeId key value ttl).toOption.map fun c =>
      { s with coordinator := c }
  | .prepare txnId now outcome =>
    match s.coordinator.prepare txnId now outcome with
    | (.error _, c) => some { s with coordinator := c }
    | (.ok nodes, c) => some { s with
        coordinator := c
        sent := s.sent ++ nodes.map fun node =>
          .prepare txnId node ((c.getParticipantWrites txnId node).getD []) }
  | .receiveVote result =>
    if .vote result ∈ s.sent then
      (s.coordinator.receiveVote result.txnId result).toOption.map fun (c, decision) =>
        { s with coordinator := c, calls := s.calls ++ (decision.map Call.decide).toList }
    else none
  | .finalizeCommit txnId => some { s with coordinator := s.coordinator.finalizeCommit txnId }
  | .abort txnId =>
    (s.coordinator.abort txnId).toOption.map fun (c, call) =>
      { s with coordinator := c, calls := s.calls ++ [call] }
  | .resume i now outcome =>
    s.calls[i]?.map fun call =>
      let (c, rest, messages) := s.coordinator.resume now outcome call
      { s with coordinator := c, calls := s.calls.eraseIdx i ++ rest.toList, sent :=
      s.sent ++ messages }
  | .deliverPrepare txnId nodeId writes now outcome =>
    if .prepare txnId nodeId writes ∈ s.sent then
      let (result, p) := (s.participants nodeId).prepare txnId writes now outcome
      some { s.putParticipant nodeId p with sent := s.sent ++ [.vote result] }
    else none
  | .deliverCommit txnId nodeId outcome marker =>
    if .commit txnId nodeId ∈ s.sent then
      let p := s.participants nodeId
      let applied := (p.prepared.get? txnId).isSome && outcome.stores
      some { s.putParticipant nodeId (p.commit txnId outcome marker).2 with
        resolved := s.resolved ++ if applied then [(nodeId, txnId, .commit)] else [] }
    else none
  | .deliverAbort txnId nodeId marker =>
    if .abort txnId nodeId ∈ s.sent then
      some { s.putParticipant nodeId ((s.participants nodeId).abort txnId marker) with
        resolved := s.resolved ++ [(nodeId, txnId, .abort)] }
    else none
  | .restart nodeId => some (s.putParticipant nodeId (s.participants nodeId).restart)

def Logged (s : System) (txnId : GlobalTxnId) (state : LogState) : Prop :=
  (s.coordinator.log.get? (logKey txnId state)).isSome
deriving Decidable

/-- Participants do the same with a transaction, and none has both decisions in the log. -/
def Agreement (s : System) : Prop :=
  ∀ txnId, (∀ p q, (p, txnId, .commit) ∈ s.resolved → (q, txnId, .abort) ∉ s.resolved) ∧
    ¬(s.Logged txnId .commit ∧ s.Logged txnId .abort)

/-- An abort is not called on a transaction that is committing, and the sequence counter does
not overflow. -/
def Safe (s : System) : Action → Prop
  | .begin _ => s.coordinator.nextSeq + 1 < 2 ^ 64
  | .abort txnId => s.coordinator.getState txnId ≠ some .committing
  | _ => True

instance (s : System) (a : Action) : Decidable (s.Safe a) := by
  cases a <;> unfold Safe <;> infer_instance

end System

def Call.decision : Call → GlobalTxnId × LogState
  | .decide d => (d.txnId, d.state)
  | .abort txnId _ | .remove txnId _ => (txnId, .abort)

def Message.decision? : Message → Option (GlobalTxnId × LogState)
  | .commit txnId _ => some (txnId, .commit)
  | .abort txnId _ => some (txnId, .abort)
  | .prepare .. | .vote _ => none

/-- The state in which a decision puts the transaction. -/
def LogState.txnState : LogState → DistTxnState
  | .prepare => .waitingForVotes
  | .commit => .committing
  | .abort => .aborted

theorem Decision.decision_of_mem_messages {d : Decision} {m : Message} (member : m ∈ d.messages) :
    m.decision? = some (d.txnId, d.state) := by
  rw [messages] at member
  split at member
  · rename_i state
    obtain ⟨node, -, rfl⟩ := mem_map.mp member
    rw [state]
    rfl
  · rename_i state
    obtain ⟨node, -, rfl⟩ := mem_map.mp member
    rw [state]
    rfl
  · cases member

namespace System

inductive Trace (s : System) (txnId : GlobalTxnId) (state : LogState) : Prop
  | call (call : Call) (member : call ∈ s.calls) (decision : call.decision = (txnId, state))
  | log (logged : s.Logged txnId state)
  | message (m : Message) (member : m ∈ s.sent) (decision : m.decision? = some (txnId, state))
  | resolved (node : ℕ) (member : (node, txnId, state) ∈ s.resolved)

/-- Every trace of a decision agrees with the state of an active transaction, and no two traces
disagree. -/
structure Inv (s : System) : Prop where
  activeBelow : ∀ txnId txn, s.coordinator.activeTxns.get? txnId = some txn →
    txnId.2 < s.coordinator.nextSeq
  traceBelow : ∀ txnId state, s.Trace txnId state → txnId.2 < s.coordinator.nextSeq
  standing : ∀ txnId state txn, state ≠ .prepare → s.Trace txnId state →
    s.coordinator.activeTxns.get? txnId = some txn → txn.state = state.txnState
  exclusive : ∀ txnId, ¬(s.Trace txnId .commit ∧ s.Trace txnId .abort)

theorem Inv.agreement {s : System} (inv : s.Inv) : s.Agreement := fun txnId =>
  ⟨fun p q done undone => inv.exclusive txnId ⟨.resolved p done, .resolved q undone⟩,
    fun ⟨committed, aborted⟩ => inv.exclusive txnId ⟨.log committed, .log aborted⟩⟩

theorem inv_initial (nodeId : ℕ) (timeoutMs : UInt64) (dbs : ℕ → TimedStore) :
    (initial nodeId timeoutMs dbs).Inv := by
  have none : ∀ txnId state, ¬(initial nodeId timeoutMs dbs).Trace txnId state := by
    intro txnId state trace
    cases trace with
    | call c member | message m member | resolved node member => cases member
    | log logged => cases logged
  exact ⟨nofun, fun id st trace => absurd trace (none id st),
    fun id st _ _ trace => absurd trace (none id st), fun id both => none id _ both.1⟩

variable {s s' : System}

/-- A step that decides nothing; a preparing transaction may leave its state. -/
theorem Inv.frame (inv : s.Inv) (counter : s'.coordinator.nextSeq = s.coordinator.nextSeq)
    (traces : ∀ txnId state, s'.Trace txnId state → s.Trace txnId state ∨
      (state = .prepare ∧ txnId.2 < s.coordinator.nextSeq))
    (active : ∀ txnId txn', s'.coordinator.activeTxns.get? txnId = some txn' →
      ∃ txn, s.coordinator.activeTxns.get? txnId = some txn ∧
        (txn'.state = txn.state ∨ txn.state = .preparing)) : s'.Inv where
  activeBelow txnId txn' found := by
    obtain ⟨txn, before, -⟩ := active txnId txn' found
    exact counter ▸ inv.activeBelow txnId txn before
  traceBelow txnId state trace := by
    rw [counter]
    obtain old | new := traces txnId state trace
    · exact inv.traceBelow txnId state old
    · exact new.2
  standing txnId state txn' decided trace found := by
    obtain ⟨txn, before, same⟩ := active txnId txn' found
    have old := (traces txnId state trace).resolve_right fun new => decided new.1
    have standing := inv.standing txnId state txn decided old before
    obtain same | preparing := same
    · exact same.trans standing
    · rw [preparing] at standing
      cases state with
      | prepare => exact absurd rfl decided
      | commit | abort => cases standing
  exclusive txnId both := by
    have committed := (traces txnId .commit both.1).resolve_right fun new => by cases new.1
    have aborted := (traces txnId .abort both.2).resolve_right fun new => by cases new.1
    exact inv.exclusive txnId ⟨committed, aborted⟩

/-- A step that decides one transaction, which has no trace of the other decision. -/
theorem Inv.decide (inv : s.Inv) {id : GlobalTxnId} {decision : LogState} {txn₀ : DistTransaction}
    (counter : s'.coordinator.nextSeq = s.coordinator.nextSeq)
    (before : s.coordinator.activeTxns.get? id = some txn₀)
    (open' : ∀ state, state ≠ .prepare → state ≠ decision → txn₀.state ≠ state.txnState)
    (traces : ∀ txnId state, s'.Trace txnId state → s.Trace txnId state ∨
    (txnId = id ∧ state = decision))
    (active : ∀ txnId txn', s'.coordinator.activeTxns.get? txnId = some txn' →
      if txnId = id then txn'.state = decision.txnState
      else s.coordinator.activeTxns.get? txnId = some txn') : s'.Inv where
  activeBelow txnId txn' found := by
    rw [counter]
    have after := active txnId txn' found
    split_ifs at after with same
    · exact same ▸ inv.activeBelow id txn₀ before
    · exact inv.activeBelow txnId txn' after
  traceBelow txnId state trace := by
    rw [counter]
    obtain old | new := traces txnId state trace
    · exact inv.traceBelow txnId state old
    · exact new.1 ▸ inv.activeBelow id txn₀ before
  standing txnId state txn' decided trace found := by
    have after := active txnId txn' found
    split_ifs at after with same
    · rw [after]
      obtain old | new := traces txnId state trace
      · by_contra other
        have standing := inv.standing txnId state txn₀ decided old (same ▸ before)
        exact open' state decided (fun equal => other (by rw [equal])) standing
      · rw [new.2]
    · have old := (traces txnId state trace).resolve_right fun new => same new.1
      exact inv.standing txnId state txn' decided old after
  exclusive txnId both := by
    -- A trace of the other decision is an old one, so the transaction was decided before.
    have other : ∀ state, state ≠ .prepare → state ≠ decision → ¬s'.Trace id state := by
      intro state decided different trace
      have old := (traces id state trace).resolve_right fun new => different new.2
      exact open' state decided different (inv.standing id state txn₀ decided old before)
    by_cases same : txnId = id
    · subst same
      cases decision with
      | commit => exact other .abort (by decide) (by decide) both.2
      | abort | prepare => exact other .commit (by decide) (by decide) both.1
    · have committed := (traces txnId .commit both.1).resolve_right fun new => same new.1
      have aborted := (traces txnId .abort both.2).resolve_right fun new => same new.1
      exact inv.exclusive txnId ⟨committed, aborted⟩

theorem Inv.begin (inv : s.Inv) (now : UInt64) (room : s.coordinator.nextSeq + 1 < 2 ^ 64) :
    Inv { s with coordinator := (s.coordinator.begin now).2 } := by
  have counter : (s.coordinator.begin now).2.nextSeq = s.coordinator.nextSeq + 1 :=
    wrap64_of_lt room
  have traces : ∀ txnId state, Trace { s with coordinator := (s.coordinator.begin now).2 } txnId
    state →
      s.Trace txnId state := by
    intro txnId state trace
    cases trace with
    | call c member decision => exact .call c member decision
    | log logged => exact .log logged
    | message m member decision => exact .message m member decision
    | resolved node member => exact .resolved node member
  refine ⟨fun txnId txn found => ?_, fun txnId state trace => ?_,
    fun txnId state txn decided trace found => ?_, fun txnId both => ?_⟩
  · simp only [counter]
    simp only [Coordinator.begin, SortedMap.get?_insert] at found
    split_ifs at found with new
    · rw [new]
      exact Nat.lt_succ_self _
    · exact Nat.lt_succ_of_lt (inv.activeBelow txnId txn found)
  · simp only [counter]
    exact Nat.lt_succ_of_lt (inv.traceBelow txnId state (traces txnId state trace))
  · have old := traces txnId state trace
    simp only [Coordinator.begin, SortedMap.get?_insert] at found
    split_ifs at found with new
    · have below := inv.traceBelow txnId state old
      rw [new] at below
      exact absurd below (lt_irrefl _)
    · exact inv.standing txnId state txn decided old found
  · exact inv.exclusive txnId ⟨traces _ _ both.1, traces _ _ both.2⟩

end System

namespace Coordinator

variable {c c' : Coordinator} {txnId : GlobalTxnId}

/-- An added write leaves the log, the counter and the states of the transactions alone. -/
theorem addWrite_inversion {nodeId : ℕ} {key : Bytes} {value : Option Bytes} {ttl : UInt64}
    (added : c.addWrite txnId nodeId key value ttl = .ok c') :
    ∃ txn txn', c.activeTxns.get? txnId = some txn ∧ txn'.state = txn.state ∧
      c' = c.putTxn txnId txn' := by
  rw [addWrite] at added
  split at added
  · cases added
  · rename_i txn found
    split_ifs at added with state
    refine ⟨txn, _, found, ?_, (Except.ok.inj added).symm⟩
    rfl

/-- A prepare logs its record and lets the transaction wait for votes, or does nothing. -/
theorem prepare_inversion (c : Coordinator) (txnId : GlobalTxnId) (now : UInt64)
    (outcome : CommitOutcome) :
    (c.getState txnId ≠ some .preparing ∧ (c.prepare txnId now outcome).2 = c) ∨
      ∃ txn, c.activeTxns.get? txnId = some txn ∧ txn.state = .preparing ∧
        let logged := (c.logState txnId .prepare (participantsOf txn) now outcome).2
        (c.prepare txnId now outcome).2 = logged ∨
          (c.prepare txnId now outcome).2 = logged.putTxn txnId { txn with state :=
          .waitingForVotes } := by
  rw [prepare, getState]
  split
  · rename_i missing
    rw [missing]
    exact .inl ⟨nofun, rfl⟩
  · rename_i txn found
    rw [found]
    split_ifs with state
    · exact .inl ⟨fun same => state (Option.some.inj same), rfl⟩
    · refine .inr ⟨txn, rfl, not_not.mp state, ?_⟩
      split
      · rename_i err c₁ logged
        rw [logged]
        exact .inl rfl
      · rename_i c₁ logged
        rw [logged]
        exact .inr rfl

/-- A vote is recorded for a waiting transaction; a decision is left to be logged if it ends the
wait. -/
theorem receiveVote_inversion {result : PrepareResult} {decision : Option Decision}
    (received : c.receiveVote txnId result = .ok (c', decision)) :
    ∃ txn txn', c.activeTxns.get? txnId = some txn ∧ txn.state = .waitingForVotes ∧
      c' = c.putTxn txnId txn' ∧ ((decision = none ∧ txn'.state = .waitingForVotes) ∨
        ∃ d, decision = some d ∧ d.txnId = txnId ∧ d.state ≠ .prepare ∧
        txn'.state = d.state.txnState) := by
  rw [receiveVote] at received
  split at received
  · cases received
  · rename_i txn found
    split_ifs at received with state
    dsimp only at received
    split_ifs at received
    all_goals
      obtain ⟨rfl, rfl⟩ := Prod.mk.inj (Except.ok.inj received)
      refine ⟨txn, _, found, not_not.mp state, rfl, ?_⟩
    · exact .inr ⟨_, rfl, rfl, nofun, rfl⟩
    · exact .inr ⟨_, rfl, rfl, nofun, rfl⟩
    · exact .inl ⟨rfl, not_not.mp state⟩

theorem abort_inversion {call : Call} (aborted : c.abort txnId = .ok (c', call)) :
    ∃ txn, c.activeTxns.get? txnId = some txn ∧ call.decision = (txnId, .abort) ∧
      c' = c.putTxn txnId { txn with state := .aborted } := by
  rw [abort] at aborted
  split at aborted
  · cases aborted
  · rename_i txn found
    obtain ⟨rfl, rfl⟩ := Prod.mk.inj (Except.ok.inj aborted)
    exact ⟨txn, found, rfl, rfl⟩

/-- Everything a resumed call leaves behind belongs to its decision. -/
structure Resumed (c : Coordinator) (call : Call) (c' : Coordinator) (rest : Option Call)
    (messages : List Message) : Prop where
  nextSeq : c'.nextSeq = c.nextSeq
  active : ∀ id txn, c'.activeTxns.get? id = some txn → c.activeTxns.get? id = some txn
  log : ∀ id st, (c'.log.get? (logKey id st)).isSome →
    (c.log.get? (logKey id st)).isSome ∨ call.decision = (id, st)
  rest : ∀ call' ∈ rest, call'.decision = call.decision
  messages : ∀ m ∈ messages, m.decision? = some call.decision

theorem isSome_log_logState {state : LogState} {participants : List ℕ} {now : UInt64}
    {outcome : CommitOutcome} {id : GlobalTxnId} {st : LogState}
    (logged : ((c.logState txnId state participants now outcome).2.log.get?
    (logKey id st)).isSome) : (c.log.get? (logKey id st)).isSome ∨ (txnId, state) = (id, st) := by
  rw [get?_log_logState] at logged
  split_ifs at logged with new
  · rw [new.2.1, new.2.2]
    exact .inr rfl
  · exact .inl logged

theorem resumed (c : Coordinator) (now : UInt64) (outcome : CommitOutcome) (call : Call) :
    c.Resumed call (c.resume now outcome call).1 (c.resume now outcome call).2.1
      (c.resume now outcome call).2.2 := by
  cases call with
  | decide d =>
    rw [resume]
    split
    all_goals
      rename_i c₁ logged
      obtain rfl : c₁ = (c.logState d.txnId d.state d.participants now outcome).2 := by rw [logged]
    · exact ⟨by simp, by simp, fun _ _ => isSome_log_logState, by simp,
        fun m => Decision.decision_of_mem_messages⟩
    · exact ⟨by simp, by simp, fun _ _ => isSome_log_logState, by simp, by simp⟩
  | abort txnId participants =>
    rw [resume]
    split
    all_goals
      rename_i c₁ logged
      obtain rfl : c₁ = (c.logState txnId .abort participants now outcome).2 := by rw [logged]
    · refine ⟨by simp, by simp, fun _ _ => isSome_log_logState, fun call' member => ?_, by simp⟩
      cases member
      rfl
    · exact ⟨by simp, by simp, fun _ _ => isSome_log_logState, by simp, by simp⟩
  | remove txnId participants =>
    refine ⟨rfl, fun id txn found => ?_, fun _ _ logged => .inl logged,
      by rintro _ ⟨⟩, fun m member => ?_⟩
    · rw [resume, removeTxn, SortedMap.get?_erase] at found
      split_ifs at found
      exact found
    · obtain ⟨node, -, rfl⟩ := mem_map.mp member
      rfl

end Coordinator

namespace System

variable {s s' : System} (inv : s.Inv)

include inv

/-- Only the coordinator changes, and it decides nothing. -/
theorem Inv.coordinator {c : Coordinator} (counter : c.nextSeq = s.coordinator.nextSeq)
    (log : ∀ txnId state, (c.log.get? (logKey txnId state)).isSome → s.Logged txnId state ∨
      (state = .prepare ∧ txnId.2 < s.coordinator.nextSeq))
    (active : ∀ txnId txn', c.activeTxns.get? txnId = some txn' →
      ∃ txn, s.coordinator.activeTxns.get? txnId = some txn ∧
      (txn'.state = txn.state ∨ txn.state = .preparing)) : Inv { s with coordinator := c } := by
  refine inv.frame counter (fun txnId state trace => ?_) active
  cases trace with
  | call c member decision => exact .inl (.call c member decision)
  | log logged => exact (log txnId state logged).imp_left .log
  | message m member decision => exact .inl (.message m member decision)
  | resolved node member => exact .inl (.resolved node member)

/-- The coordinator does nothing; only messages and results of a known decision are new. -/
theorem Inv.exchange (coordinator : s'.coordinator = s.coordinator)
    (calls : s'.calls = s.calls) (sent : ∀ m ∈ s'.sent, m ∈ s.sent ∨ m.decision? = none)
    (resolved : ∀ r ∈ s'.resolved, r ∈ s.resolved ∨ ∃ m ∈ s.sent, m.decision? = some r.2) :
    s'.Inv := by
  refine inv.frame (by rw [coordinator]) (fun txnId state trace => .inl ?_) fun txnId txn found =>
    ⟨txn, coordinator ▸ found, .inl rfl⟩
  cases trace with
  | call c member decision => exact .call c (calls ▸ member) decision
  | log logged =>
    rw [Logged, coordinator] at logged
    exact .log logged
  | message m member decision =>
    obtain old | silent := sent m member
    · exact .message m old decision
    · rw [silent] at decision
      cases decision
  | resolved node member =>
    obtain old | ⟨m, sent, decision⟩ := resolved _ member
    · exact .resolved node old
    · exact .message m sent decision

theorem Inv.resume {i : ℕ} {call : Call} (here : s.calls[i]? = some call)
    {c : Coordinator} {rest : Option Call} {messages : List Message}
    (resumed : s.coordinator.Resumed call c rest messages) :
    Inv { s with
      coordinator := c, calls := s.calls.eraseIdx i ++ rest.toList, sent :=
      s.sent ++ messages } := by
  have pending := mem_of_getElem? here
  refine inv.frame resumed.nextSeq (fun txnId state trace => .inl ?_) fun txnId txn found =>
    ⟨txn, resumed.active txnId txn found, .inl rfl⟩
  cases trace with
  | call c' member decision =>
    obtain old | new := mem_append.mp member
    · exact .call c' (mem_of_mem_eraseIdx old) decision
    · exact .call call pending ((resumed.rest c' (Option.mem_toList.mp new)).symm.trans decision)
  | log logged =>
    obtain old | new := resumed.log txnId state logged
    · exact .log old
    · exact .call call pending new
  | message m member decision =>
    obtain old | new := mem_append.mp member
    · exact .message m old decision
    · exact .call call pending (Option.some.inj ((resumed.messages m new).symm.trans decision))
  | resolved node member => exact .resolved node member

/-- A transaction is decided: its state changes, and a call is left that will log it. -/
theorem Inv.decided {id : GlobalTxnId} {txn txn' : DistTransaction} {call : Call}
    {decision : LogState} (before : s.coordinator.activeTxns.get? id = some txn)
    (open' : ∀ state, state ≠ .prepare → state ≠ decision → txn.state ≠ state.txnState)
    (call_eq : call.decision = (id, decision)) (after : txn'.state = decision.txnState) :
    Inv { s with coordinator := s.coordinator.putTxn id txn', calls := s.calls ++ [call] } := by
  refine inv.decide rfl before open' (fun txnId state trace => ?_) fun txnId txn'' found => ?_
  · cases trace with
    | call c member decision =>
      obtain old | new := mem_append.mp member
      · exact .inl (.call c old decision)
      · rw [mem_singleton.mp new, call_eq] at decision
        obtain ⟨sameId, sameState⟩ := Prod.mk.inj decision
        exact .inr ⟨sameId.symm, sameState.symm⟩
    | log logged => exact .inl (.log logged)
    | message m member decision => exact .inl (.message m member decision)
    | resolved node member => exact .inl (.resolved node member)
  · simp only [get?_putTxn] at found
    split_ifs at found with same
    · cases found
      rw [if_pos same]
      exact after
    · rw [if_neg same]
      exact found

theorem Inv.putTxn {id : GlobalTxnId} {txn txn' : DistTransaction}
    (before : s.coordinator.activeTxns.get? id = some txn) (same : txn'.state = txn.state) :
    Inv { s with coordinator := s.coordinator.putTxn id txn' } := by
  refine inv.coordinator rfl (fun _ _ logged => .inl logged) fun txnId txn'' found => ?_
  rw [get?_putTxn] at found
  split_ifs at found with here
  · cases found
    exact ⟨txn, here ▸ before, .inl same⟩
  · exact ⟨txn'', found, .inl rfl⟩

theorem Inv.prepare (txnId : GlobalTxnId) (now : UInt64) (outcome : CommitOutcome) :
    Inv { s with coordinator := (s.coordinator.prepare txnId now outcome).2 } := by
  obtain same | ⟨txn, found, preparing, c_eq⟩ := s.coordinator.prepare_inversion txnId now outcome
  · rw [same.2]
    exact inv
  · have below := inv.activeBelow txnId txn found
    have log : ∀ id st, ((s.coordinator.logState txnId .prepare (participantsOf txn)
        now outcome).2.log.get? (logKey id st)).isSome →
        s.Logged id st ∨ (st = .prepare ∧ id.2 < s.coordinator.nextSeq) := by
      intro id st logged
      refine (isSome_log_logState logged).imp_right fun new => ?_
      cases new
      exact ⟨rfl, below⟩
    obtain c_eq | c_eq := c_eq
    · rw [c_eq]
      refine inv.coordinator (by simp) log fun id txn' here => ⟨txn', ?_, .inl rfl⟩
      simpa using here
    · rw [c_eq]
      refine inv.coordinator (by simp [Coordinator.putTxn]) log fun id txn' here => ?_
      simp only [get?_putTxn, activeTxns_logState] at here
      split_ifs at here with same
      · exact ⟨txn, same ▸ found, .inr preparing⟩
      · exact ⟨txn', here, .inl rfl⟩

theorem Inv.next {a : Action} (safe : s.Safe a) (step : s.next a = some s') : s'.Inv := by
  cases a with
  | begin now =>
    cases step
    exact inv.begin now safe
  | addWrite txnId nodeId key value ttl =>
    obtain ⟨c, added, rfl⟩ := Option.map_eq_some_iff.mp step
    obtain ⟨txn, txn', found, same, rfl⟩ := addWrite_inversion (eq_ok_of_toOption added)
    exact inv.putTxn found same
  | prepare txnId now outcome =>
    have kept := inv.prepare txnId now outcome
    rw [System.next] at step
    split at step
    all_goals
      rename_i c prepared
      cases step
      rw [prepared] at kept
    · exact kept
    · refine kept.exchange rfl rfl (fun m member => ?_) fun r member => .inl member
      refine (mem_append.mp member).imp_right fun new => ?_
      obtain ⟨node, -, rfl⟩ := mem_map.mp new
      rfl
  | receiveVote result =>
    rw [System.next] at step
    split_ifs at step with sent
    obtain ⟨⟨c, decision⟩, received, rfl⟩ := Option.map_eq_some_iff.mp step
    obtain ⟨txn, txn', found, waiting, rfl, outcome⟩ :=
      receiveVote_inversion (eq_ok_of_toOption received)
    obtain ⟨rfl, state⟩ | decided := outcome
    · simpa using inv.putTxn found (state.trans waiting.symm)
    · obtain ⟨d, rfl, id, -, state⟩ := decided
      refine inv.decided found (fun st decided _ => ?_) (Prod.ext id rfl) state
      rw [waiting]
      cases st with
      | prepare => exact absurd rfl decided
      | commit | abort => nofun
  | finalizeCommit txnId =>
    cases step
    refine inv.coordinator rfl (fun _ _ logged => .inl logged) fun id txn found => ?_
    simp only [finalizeCommit, removeTxn, SortedMap.get?_erase] at found
    split_ifs at found
    exact ⟨txn, found, .inl rfl⟩
  | abort txnId =>
    obtain ⟨⟨c, call⟩, aborted, rfl⟩ := Option.map_eq_some_iff.mp step
    obtain ⟨txn, found, decision, rfl⟩ := abort_inversion (eq_ok_of_toOption aborted)
    refine inv.decided found (fun st decided other => ?_) decision rfl
    cases st with
    | prepare => exact absurd rfl decided
    | abort => exact absurd rfl other
    | commit =>
      intro committing
      refine safe ?_
      rw [getState, found, Option.map_some, committing]
      rfl
  | resume i now outcome =>
    obtain ⟨call, here, rfl⟩ := Option.map_eq_some_iff.mp step
    exact inv.resume here (s.coordinator.resumed now outcome call)
  | deliverPrepare txnId nodeId writes now outcome =>
    rw [System.next] at step
    split_ifs at step with sent
    cases step
    refine inv.exchange rfl rfl (fun m member => ?_) fun r member => .inl member
    refine (mem_append.mp member).imp_right fun vote => ?_
    rw [mem_singleton.mp vote]
    rfl
  | deliverCommit txnId nodeId outcome marker =>
    rw [System.next] at step
    split_ifs at step with sent
    cases step
    refine inv.exchange rfl rfl (fun m member => .inl member) fun r member => ?_
    refine (mem_append.mp member).imp_right fun new => ⟨_, sent, ?_⟩
    split_ifs at new with applied
    · rw [mem_singleton.mp new]
      rfl
    · cases new
  | deliverAbort txnId nodeId marker =>
    rw [System.next] at step
    split_ifs at step with sent
    cases step
    refine inv.exchange rfl rfl (fun m member => .inl member) fun r member => ?_
    refine (mem_append.mp member).imp_right fun new => ⟨_, sent, ?_⟩
    rw [mem_singleton.mp new]
    rfl
  | restart nodeId =>
    cases step
    exact inv.exchange rfl rfl (fun m member => .inl member) fun r member => .inl member

omit inv

/-- While no committing transaction is aborted, participants agree and the log has one decision per
transaction. -/
theorem agreement_of_run {nodeId : ℕ} {timeoutMs : UInt64} {dbs : ℕ → TimedStore}
    (run : Relation.ReflTransGen (Run.SafeStep Safe next) (initial nodeId timeoutMs dbs) s) :
    s.Agreement :=
  (Run.invariant run (inv_initial nodeId timeoutMs dbs) fun inv safe step =>
    inv.next safe step).agreement

def sampleValue : Option Bytes := some (.ofString "v")

/-- The writes of the transaction for one of two nodes. -/
def sampleWrites (nodeId : ℕ) : List DistWrite := [⟨nodeId, .ofString "k", sampleValue, 0⟩]

/-- A transaction with writes for nodes 10 and 20 that has been prepared on both. -/
def samplePrepared : List Action :=
  [.begin 0, .addWrite sampleTxn 10 (.ofString "k") sampleValue 0,
    .addWrite sampleTxn 20 (.ofString "k") sampleValue 0, .prepare sampleTxn 0 .ok,
    .deliverPrepare sampleTxn 10 (sampleWrites 10) 0 .ok, .deliverPrepare sampleTxn 20
    (sampleWrites 20) 0 .ok]

/-- Both votes arrive, the decision is logged, and node 10 commits. -/
def sampleDecided : List Action :=
  [.receiveVote ⟨10, sampleTxn, .commit⟩, .receiveVote ⟨20, sampleTxn, .commit⟩, .resume 0 0 .ok,
    .deliverCommit sampleTxn 10 .ok .ok]

/-- The transaction is aborted, and node 20 hears of it. -/
def sampleAborted : List Action :=
  [.abort sampleTxn, .resume 0 0 .ok, .resume 0 0 .ok, .deliverAbort sampleTxn 20 .ok]

/-- Node 20 commits too, and the coordinator is done. -/
def sampleFinished : List Action := [.deliverCommit sampleTxn 20 .ok .ok, .finalizeCommit sampleTxn]

/-- A caller aborts what it was told has timed out, when the decision has been logged and node 10
has committed. -/
theorem timeout_after_decision_splits :
    ∃ s₁ s, Relation.ReflTransGen (Run.Step next) (initial 1 5000 fun _ => .empty) s₁ ∧
      sampleTxn ∈ s₁.coordinator.checkTimeouts 100 ∧ Relation.ReflTransGen (Run.Step next) s₁ s ∧
      ((10, sampleTxn, .commit) ∈ s.resolved ∧ (20, sampleTxn, .abort) ∈ s.resolved) ∧
      s.Logged sampleTxn .commit ∧ s.Logged sampleTxn .abort ∧ ¬s.Agreement :=
  ⟨_, _, Run.step_get samplePrepared (by decide +kernel), by decide +kernel,
    Run.step_get (sampleDecided ++ sampleAborted) (by decide +kernel), by decide +kernel,
    by
      decide +kernel, by
      decide +kernel, fun agreement => (agreement sampleTxn).2 (by decide +kernel)⟩

theorem agreement_of_sample :
    ∃ s, Relation.ReflTransGen (Run.SafeStep Safe next) (initial 1 5000 fun _ => .empty) s ∧
      (10, sampleTxn, .commit) ∈ s.resolved ∧ (20, sampleTxn, .commit) ∈ s.resolved ∧
      s.Agreement := by
  have run := Run.safeStep_get Safe next (initial 1 5000 fun _ => .empty)
    (samplePrepared ++ sampleDecided ++ sampleFinished) (by decide +kernel)
  exact ⟨_, run, by decide +kernel, by decide +kernel, agreement_of_run run⟩

end System

end OmniKV.TwoPhase
