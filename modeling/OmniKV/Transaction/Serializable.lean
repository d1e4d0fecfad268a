import OmniKV.Transaction.SnapshotCounts
import OmniKV.Transaction.Stored

/-!
# Serializability

The transactions that committed writes, in the order of their commit numbers, are a serial history:
what one of them has read was not changed since its snapshot, or the conflict check finds the
record.
-/

namespace OmniKV

open Serial Relation List SortedMap Engine Event

namespace Transaction

variable {txn : Transaction} {key : Bytes}

theorem mem_writeKeys : key ∈ txn.writeKeys ↔ ∃ value ttl, (key, value, ttl) ∈ txn.writeSet := by
  simp [writeKeys, mem_def]

theorem buffer_eq_none_iff : txn.buffer key = none ↔ txn.writeSet.get? key = none := by
  simp [buffer]

/-- A scan inside a transaction shows the state with its own writes laid over it. -/
theorem mem_overlay (txn : Transaction) {start stop : Bytes} {stored : List (Bytes × Bytes)}
    {σ : KvState}
    (scanned : ∀ key value, (key, value) ∈ stored ↔ start ≤ key ∧ key ≤ stop ∧ σ key = some value)
    (key value : Bytes) : (key, value) ∈ txn.overlay start stop stored ↔
      start ≤ key ∧ key < stop ∧ Serial.overlay txn.buffer σ key = some value := by
  rw [overlay, mem_append, mem_filter, scanned]
  refine (or_congr_right (?own : _ ↔ InRange (start, stop) key ∧
    txn.buffer key = some (some value))).trans ?_
  case own =>
    simp only [mem_filterMap, buffer, Option.map_eq_some_iff, get?_eq_some_iff]
    constructor
    · rintro ⟨⟨k, v, ttl⟩, member, shown⟩
      split_ifs at shown with inside
      obtain ⟨v', rfl, same⟩ := Option.map_eq_some_iff.mp shown
      obtain ⟨rfl, rfl⟩ := Prod.mk.inj same
      exact ⟨inside, (some v', ttl), member, rfl⟩
    · rintro ⟨inside, ⟨v, ttl⟩, member, rfl⟩
      exact ⟨(key, some value, ttl), member, by simp [inside]⟩
  simp only [decide_eq_true_eq, ← buffer_eq_none_iff, Serial.overlay, InRange]
  cases buffered : txn.buffer key with
  | none =>
    simp only [reduceCtorEq, and_false, or_false, and_true]
    constructor
    · rintro ⟨⟨above, _, state⟩, below⟩
      exact ⟨above, below, state⟩
    · rintro ⟨above, below, state⟩
      exact ⟨⟨above, below.le, state⟩, below⟩
  | some own =>
    simp only [reduceCtorEq, and_false, false_or, Option.some.injEq, Option.getD_some, and_assoc]

def write (txn : Transaction) (key : Bytes) (value : Option Bytes) : Transaction :=
  { txn with writeSet := txn.writeSet.insert key (value, 0) }

theorem buffer_write (txn : Transaction) (key : Bytes) (value : Option Bytes) :
    (txn.write key value).buffer = Function.update txn.buffer key (some value) := by
  funext k
  simp only [buffer, write, get?_insert, Function.update_apply]
  split_ifs <;> rfl

theorem mem_writeKeys_write {k : Bytes} {value : Option Bytes} :
    k ∈ (txn.write key value).writeKeys ↔ k = key ∨ k ∈ txn.writeKeys := by
  simp only [mem_writeKeys, write, mem_insert, Prod.mk.injEq]
  constructor
  · rintro ⟨v, ttl, ⟨rfl, -⟩ | ⟨-, member⟩⟩
    · exact .inl rfl
    · exact .inr ⟨v, ttl, member⟩
  · rintro (rfl | ⟨v, ttl, member⟩)
    · exact ⟨value, 0, .inl ⟨rfl, rfl, rfl⟩⟩
    · by_cases same : k = key
      · exact ⟨value, 0, .inl ⟨same, rfl, rfl⟩⟩
      · exact ⟨v, ttl, .inr ⟨same, member⟩⟩

end Transaction

namespace Client

/-- The commit number and the events of a transaction that has committed writes. -/
def update? (c : Client) : Option (ℕ × List TxnEvent) :=
  if c.trace.any isWrite then c.result.map (·, c.trace) else none

/-- An active transaction has recorded what its client did. -/
structure Buffered (c : Client) : Prop where
  buffer : ∀ σ, final σ c.trace = overlay c.txn.buffer σ
  wrote : ∀ key, (∃ event ∈ c.trace, event.Writes key) ↔ key ∈ c.txn.writeKeys
  covers : ∀ event ∈ c.trace, ∀ key, event.Reads key →
    key ∈ c.txn.readSet ∨ ∃ range ∈ c.txn.readRanges, InRange range key
  plain : c.txn.Plain
  pending : c.result = none

variable {c : Client}

namespace Buffered

theorem new (id readSeq : ℕ) : Buffered ⟨.new id readSeq, [], none⟩ :=
  ⟨fun _ => rfl, by simp [Transaction.writeKeys, Transaction.new], by simp,
    fun _ _ _ member => absurd member (not_mem_empty _), rfl⟩

variable (buffered : c.Buffered)

include buffered

/-- A read or a scan that was recorded. -/
theorem observe (event : TxnEvent) {readSet : List Bytes}
    {readRanges : List (Bytes × Bytes)} (noWrite : event.isWrite = false)
    (keys : ∀ key ∈ c.txn.readSet, key ∈ readSet)
    (ranges : ∀ range ∈ c.txn.readRanges, range ∈ readRanges)
    (covered : ∀ key, event.Reads key → key ∈ readSet ∨ ∃ range ∈ readRanges, InRange range key) :
    Buffered { c with
      txn := { c.txn with readSet := readSet, readRanges := readRanges }
      trace := c.trace ++ [event] } := by
  refine ⟨fun σ => ?_, fun key => ?_, fun e member key reads => ?_, buffered.plain,
    buffered.pending⟩
  · rw [final_append, buffered.buffer]
    cases event <;> first | rfl | cases noWrite
  · have noKey : ¬event.Writes key := by cases event <;> simp_all [Event.Writes, isWrite]
    show (∃ e ∈ c.trace ++ [event], e.Writes key) ↔ key ∈ c.txn.writeKeys
    simp [or_and_right, exists_or, noKey, buffered.wrote]
  · obtain old | new := mem_append.mp member
    · obtain inside | ⟨range, inside, holds⟩ := buffered.covers e old key reads
      · exact .inl (keys key inside)
      · exact .inr ⟨range, ranges range inside, holds⟩
    · rw [mem_singleton.mp new] at reads
      exact covered key reads

theorem write (key : Bytes) (value : Option Bytes) (fair : key ≠ commitMarkerKey)
    (filled : value ≠ some []) :
    Buffered { c with txn := c.txn.write key value, trace := c.trace ++ [.write key value] } := by
  refine ⟨fun σ => ?_, fun k => ?_, fun e member k reads => ?_, fun k v ttl member => ?_,
    buffered.pending⟩
  · rw [final_append, buffered.buffer, Transaction.buffer_write, overlay_update]
    rfl
  · rw [Transaction.mem_writeKeys_write, ← buffered.wrote]
    simp [or_and_right, exists_or, Event.Writes, or_comm]
  · obtain old | new := mem_append.mp member
    · exact buffered.covers e old k reads
    · rw [mem_singleton.mp new] at reads
      cases reads
  · obtain same | ⟨-, old⟩ := mem_insert.mp member
    · obtain ⟨rfl, rfl, rfl⟩ : k = key ∧ v = value ∧ ttl = 0 := by simpa using same
      exact ⟨rfl, fair, filled⟩
    · exact buffered.plain k v ttl old

theorem isWrite_iff : c.trace.any isWrite ↔ c.txn.writeSet.entries ≠ [] := by
  have keys : c.txn.writeSet.entries ≠ [] ↔ ∃ key, key ∈ c.txn.writeKeys := by
    constructor
    · intro written
      obtain ⟨entry, member⟩ := exists_mem_of_ne_nil _ written
      exact ⟨entry.1, mem_map_of_mem member⟩
    · rintro ⟨key, member⟩ none
      rw [Transaction.writeKeys, none] at member
      cases member
  rw [keys, any_eq_true]
  simp only [← buffered.wrote]
  constructor
  · rintro ⟨event, member, isWrite⟩
    cases event with
    | write key value => exact ⟨key, _, member, rfl⟩
    | _ => cases isWrite
  · rintro ⟨key, event, member, writes⟩
    cases event with
    | write k value => exact ⟨_, member, rfl⟩
    | _ => cases writes

theorem update?_eq_none : c.update? = none := by
  rw [update?, buffered.pending]
  split_ifs <;> rfl

end Buffered

section

variable [External] {e e' : Engine}

/-- What a client has seen is what its snapshot says. -/
structure Traced (e : Engine) (c : Client) : Prop where
  bound : c.txn.readSeq < e.globalSeq
  answers : Valid (e.view c.txn.readSeq) c.trace
  readOnly : ∀ r, c.result = some r → c.trace.any isWrite = false → r = c.txn.readSeq

theorem Traced.mono (traced : c.Traced e) (extends' : e.Extends e') : c.Traced e' := by
  refine ⟨traced.bound.trans_le extends'.seq_le, ?_, traced.readOnly⟩
  rw [extends'.view_eq _ traced.bound]
  exact traced.answers

/-- An active client with one more event, answered as the snapshot and its own writes say. -/
theorem Traced.extend (traced : c.Traced e) (buffered : c.Buffered) {event : TxnEvent}
    {txn : Transaction} (holds : event.Holds (overlay c.txn.buffer (e.view c.txn.readSeq)))
    (readSeq : txn.readSeq = c.txn.readSeq) :
    Traced e { c with txn := txn, trace := c.trace ++ [event] } := by
  refine ⟨readSeq ▸ traced.bound, ?_, fun r done => ?_⟩
  · rw [show ({ c with txn := txn, trace := c.trace ++ [event] } : Client).txn.readSeq =
      c.txn.readSeq from readSeq]
    refine valid_append.mpr ⟨traced.answers, ?_, trivial⟩
    rw [buffered.buffer]
    exact holds
  · rw [buffered.pending] at done
    cases done

end

end Client

section

variable {α β : Type*} {l : List α} {i : ℕ} {a a' : α} {f : α → Option β}

theorem filterMap_set_of_eq (found : l[i]? = some a) (same : f a' = f a) :
    (l.set i a').filterMap f = l.filterMap f := by
  obtain ⟨bound, rfl⟩ := List.getElem?_eq_some_iff.mp found
  conv_rhs => rw [← List.set_getElem_self bound]
  rw [List.set_eq_take_append_cons_drop, List.set_eq_take_append_cons_drop, if_pos bound,
    if_pos bound,
    List.filterMap_append, List.filterMap_append, List.filterMap_cons, List.filterMap_cons, same]

theorem perm_filterMap_set {b : β} (found : l[i]? = some a) (before : f a = none)
    (after : f a' = some b) : (l.filterMap f ++ [b]).Perm ((l.set i a').filterMap f) := by
  obtain ⟨bound, rfl⟩ := List.getElem?_eq_some_iff.mp found
  have split : l = l.take i ++ l[i] :: l.drop (i + 1) := by
    rw [← List.drop_eq_getElem_cons bound, List.take_append_drop]
  conv_lhs => rw [split]
  rw [List.set_eq_take_append_cons_drop, if_pos bound, List.filterMap_append, List.filterMap_append,
    List.filterMap_cons_none before, List.filterMap_cons_some after]
  exact (List.perm_append_singleton b _).trans List.perm_middle.symm

end

def eventsOf (order : List (ℕ × List TxnEvent)) : List TxnEvent := order.flatMap Prod.snd

/-- The transactions that committed at or below a number. -/
def upTo (seq : ℕ) (order : List (ℕ × List TxnEvent)) : List (ℕ × List TxnEvent) :=
  order.filter fun u => u.1 ≤ seq

variable {order : List (ℕ × List TxnEvent)}

theorem upTo_of_le {seq : ℕ} (below : ∀ u ∈ order, u.1 ≤ seq) : upTo seq order = order :=
  filter_eq_self.mpr fun u member => decide_eq_true (below u member)

theorem upTo_append_of_lt {seq : ℕ} {u : ℕ × List TxnEvent}
    (above : seq < u.1) : upTo seq (order ++ [u]) = upTo seq order := by
  simp [upTo, above]

/-- The transactions above a number come behind those at or below it. -/
theorem upTo_append_filter (seq : ℕ) (increasing : order.Pairwise (·.1 < ·.1)) :
    order = upTo seq order ++ order.filter fun u => seq < u.1 := by
  induction order with
  | nil => rfl
  | cons u rest ih =>
    obtain ⟨first, others⟩ := pairwise_cons.mp increasing
    by_cases low : u.1 ≤ seq
    · conv_lhs => rw [ih others]
      simp [upTo, low]
    · have high : ∀ v ∈ rest, seq < v.1 := fun v member => (not_le.mp low).trans (first v member)
      have none : upTo seq rest = [] :=
        filter_eq_nil_iff.mpr fun v member => by simpa using high v member
      have all : rest.filter (fun v => seq < v.1) = rest :=
        filter_eq_self.mpr fun v member => decide_eq_true (high v member)
      rw [upTo] at none
      simp [upTo, not_le.mp low, none, all]

namespace TxnSystem

/-- The committed transactions that wrote something. -/
def updates (s : TxnSystem) : List (ℕ × List TxnEvent) := s.clients.filterMap Client.update?

section

variable [External]

/-- The committed updates by their numbers are a serial history, and the snapshots are states of it.
-/
structure Ordered (σ₀ : KvState) (s : TxnSystem) (order : List (ℕ × List TxnEvent)) : Prop where
  perm : order.Perm s.updates
  increasing : order.Pairwise (·.1 < ·.1)
  below : ∀ u ∈ order, u.1 < s.manager.db.globalSeq
  serial : Valid σ₀ (eventsOf order)
  latest : s.manager.db.latest = final σ₀ (eventsOf order)
  cut : ∀ c ∈ s.clients, s.manager.db.view c.txn.readSeq =
    final σ₀ (eventsOf (upTo c.txn.readSeq order))
  /-- The commits behind the snapshot of an active transaction are in the history. -/
  recorded : ∀ c ∈ s.clients, c.txn.state = .active → ∀ u ∈ order, c.txn.readSeq < u.1 →
    ∃ r ∈ s.manager.history, r.commitSeq = u.1 ∧ ∀ event ∈ u.2, ∀ key, event.Writes key →
    key ∈ r.writeKeys

structure Inv (σ₀ : KvState) (s : TxnSystem) : Prop where
  counted : s.Counted
  steady : s.manager.db.Steady
  traced : ∀ c ∈ s.clients, c.Traced s.manager.db
  buffered : ∀ c ∈ s.clients, c.txn.state = .active → c.Buffered
  ordered : ∃ order, s.Ordered σ₀ order

variable {σ₀ : KvState} {s s' : TxnSystem} {i : ℕ} {c c' : Client} {m : TransactionManager}

omit [External] in
theorem forall_mem_put {P : Client → Prop} (old : ∀ d ∈ s.clients, P d) (new : P c') :
    ∀ d ∈ (s.put i m c').clients, P d := by
  intro d member
  obtain here | rfl := mem_or_eq_of_mem_set member
  · exact old d here
  · exact new

variable (inv : s.Inv σ₀) (found : s.clients[i]? = some c)

include inv found

/-- A call that commits nothing. -/
theorem Inv.put (counted : (s.put i m c').Counted) (steady : m.db.Steady)
    (extends' : s.manager.db.Extends m.db) (latest : m.db.latest = s.manager.db.latest)
    (history : m.history = s.manager.history) (readSeq : c'.txn.readSeq = c.txn.readSeq)
    (update : c'.update? = c.update?) (traced : c'.Traced m.db)
    (buffered : c'.txn.state = .active → c.txn.state = .active ∧ c'.Buffered) :
    (s.put i m c').Inv σ₀ := by
  have here := mem_of_getElem? found
  obtain ⟨order, ordered⟩ := inv.ordered
  have recorded := ordered.recorded
  rw [← history] at recorded
  refine ⟨counted, steady, forall_mem_put (fun d old => (inv.traced d old).mono extends') traced,
    forall_mem_put inv.buffered fun active => (buffered active).2, order, ?_⟩
  refine ⟨?_, ordered.increasing, fun u member => ?_, ordered.serial, latest.trans ordered.latest,
    forall_mem_put (fun d old => ?_) ?_, forall_mem_put recorded fun active => ?_⟩
  · rw [updates, TxnSystem.put, filterMap_set_of_eq found update]
    exact ordered.perm
  · exact (ordered.below u member).trans_le extends'.seq_le
  · exact (extends'.view_eq _ (inv.traced d old).bound).trans (ordered.cut d old)
  · rw [readSeq]
    exact (extends'.view_eq _ (inv.traced c here).bound).trans (ordered.cut c here)
  · rw [readSeq]
    exact recorded c here (buffered active).1

omit inv found in
/-- What an active transaction has read was not written since its snapshot, if there is no conflict.
-/
theorem Ordered.undisturbed {order : List (ℕ × List TxnEvent)} (ordered : s.Ordered σ₀ order)
    (here : c ∈ s.clients) (active : c.txn.state = .active) (buffered : c.Buffered)
    (free : SsiHistory.scanConflicts c.txn s.manager.history = none) :
    ∀ event ∈ c.trace, ∀ key, event.Reads key →
      ∀ w ∈ eventsOf (order.filter fun u => c.txn.readSeq < u.1), ¬w.Writes key := by
  intro event member key reads w written writes
  obtain ⟨u, later, inside⟩ := mem_flatMap.mp written
  obtain ⟨committed, after⟩ := mem_filter.mp later
  obtain ⟨r, recorded, seq, keys⟩ :=
    ordered.recorded c here active u committed (of_decide_eq_true after)
  have wrote := keys w inside key writes
  refine SsiHistory.scanConflicts_eq_none_iff.mp free r recorded (seq ▸ of_decide_eq_true after) ?_
  exact .inl ⟨key, wrote, .inr (buffered.covers event member key reads)⟩

/-- A transaction that passes the check is put at the end of the serial history. -/
theorem Inv.commit {now : UInt64} {batch : WriteBatch} (active : c.txn.state = .active)
    (written : c.txn.writeSet.entries ≠ [])
    (free : SsiHistory.scanConflicts c.txn s.manager.history = none)
    (built : c.txn.buildWriteBatch now = .ok batch) (fits : s.manager.db.Fits batch)
    (ended : c'.txn.state ≠ .active) (readSeq : c'.txn.readSeq = c.txn.readSeq)
    (trace : c'.trace = c.trace) (result : c'.result =
    some (s.manager.db.nextBatch batch).marker.seq)
    (counted : (s.put i (afterCommit s.manager c.txn batch) c').Counted) :
    (s.put i (afterCommit s.manager c.txn batch) c').Inv σ₀ := by
  have here := mem_of_getElem? found
  have buffered := inv.buffered c here active
  have writes := buffered.isWrite_iff.mpr written
  obtain ⟨plain, forever⟩ := Transaction.plain_buildWriteBatch buffered.plain built
  have marker := seq_marker_nextBatch fits
  have same := sameData_unregisterSnapshot (s.manager.db.committed batch) c.txn.readSeq
  have extends' : s.manager.db.Extends (afterCommit s.manager c.txn batch).db :=
    (extends_committed inv.steady.serving fits).trans (extends_of_sameData same)
  have globalSeq : (afterCommit s.manager c.txn batch).db.globalSeq = s.manager.db.globalSeq +
      (batch.opCount + 1) :=
    same.globalSeq.trans (wrap64_of_lt fits.1)
  have update : c'.update? = some ((s.manager.db.nextBatch batch).marker.seq, c.trace) := by
    rw [Client.update?, trace, if_pos writes, result]
    rfl
  obtain ⟨order, ordered⟩ := inv.ordered
  -- Every earlier snapshot and commit is below the number of this one.
  have above : ∀ seq < s.manager.db.globalSeq, seq < (s.manager.db.nextBatch batch).marker.seq :=
    fun seq bound => by omega
  have cut {seq : ℕ} (bound : seq < s.manager.db.globalSeq)
      (seen : s.manager.db.view seq = final σ₀ (eventsOf (upTo seq order))) :
      (afterCommit s.manager c.txn batch).db.view seq =
        final σ₀
        (eventsOf
        (upTo seq (order ++ [((s.manager.db.nextBatch batch).marker.seq, c.trace)]))) := by
    rw [upTo_append_of_lt (above _ bound), ← seen]
    exact extends'.view_eq _ bound
  refine ⟨counted, (inv.steady.committed plain fits forever).unregisterSnapshot _,
    forall_mem_put (fun d old => (inv.traced d old).mono extends') ?_,
    forall_mem_put inv.buffered fun live => absurd live ended,
    order ++ [((s.manager.db.nextBatch batch).marker.seq, c.trace)], ?_⟩
  · have traced := (inv.traced c here).mono extends'
    refine ⟨readSeq ▸ traced.bound, ?_, fun r _ silent => ?_⟩
    · rw [readSeq, trace]
      exact traced.answers
    · rw [trace, writes] at silent
      cases silent
  refine ⟨?_, ?_, fun u member => ?_, ?_, ?_,
    forall_mem_put (fun d old => cut (inv.traced d old).bound (ordered.cut d old))
    (readSeq ▸ cut (inv.traced c here).bound (ordered.cut c here)),
    fun d member live u committed after => ?_⟩
  · exact (ordered.perm.append_right _).trans (perm_filterMap_set found buffered.update?_eq_none
      update)
  · refine pairwise_append.mpr ⟨ordered.increasing, pairwise_singleton .., ?_⟩
    intro u early v last
    rw [mem_singleton.mp last]
    exact above u.1 (ordered.below u early)
  · show u.1 < (afterCommit s.manager c.txn batch).db.globalSeq
    obtain early | last := mem_append.mp member
    · have := ordered.below u early
      omega
    · rw [mem_singleton.mp last]
      omega
  · have split := upTo_append_filter c.txn.readSeq ordered.increasing
    have serial := ordered.serial
    rw [split, eventsOf, flatMap_append] at serial
    rw [split, eventsOf, flatMap_append, flatMap_append, flatMap_singleton]
    refine valid_append_of_snapshot serial ?_ (ordered.undisturbed here active buffered free)
    exact ordered.cut c here ▸ (inv.traced c here).answers
  · rw [eventsOf, flatMap_append, flatMap_singleton, final_append, buffered.buffer]
    refine (latest_of_sameData same).trans ?_
    rw [latest_committed inv.steady.serving plain fits,
      Transaction.effect_buildWriteBatch buffered.plain built, ordered.latest]
    rfl
  · have old := (mem_or_eq_of_mem_set member).resolve_right fun same => ended (same ▸ live)
    -- The snapshot of `d` is registered, so pruning keeps what is above it.
    have floor : (afterCommit s.manager c.txn batch).db.minActiveSnapshot ≤ d.txn.readSeq := by
      refine minActiveSnapshot_le_of_registered ?_
      rw [show (afterCommit s.manager c.txn batch).db.registered d.txn.readSeq = _ from counted _]
      exact live_pos_of_mem member live
    obtain early | last := mem_append.mp committed
    · obtain ⟨r, recorded, seq, keys⟩ := ordered.recorded d old live u early after
      exact ⟨r, SsiHistory.mem_prune.mpr ⟨mem_append_left _ recorded,
        floor.trans (seq.symm ▸ after.le)⟩, seq, keys⟩
    · obtain rfl := mem_singleton.mp last
      refine ⟨c.txn.record (s.manager.db.nextBatch batch).marker.seq,
        SsiHistory.mem_prune.mpr ⟨mem_append_right _ (mem_singleton_self _), ?_⟩, rfl, ?_⟩
      · exact floor.trans (le_of_lt after)
      · exact fun event member key writes => (buffered.wrote key).mp ⟨event, member, writes⟩

omit found in
/-- A new transaction reads the latest state. -/
theorem Inv.begin (counted : Counted ⟨s.manager.begin.2,
    s.clients ++ [⟨s.manager.begin.1, [], none⟩]⟩) :
    Inv σ₀ ⟨s.manager.begin.2, s.clients ++ [⟨s.manager.begin.1, [], none⟩]⟩ := by
  have same : Engine.SameData s.manager.db s.manager.begin.2.db := ⟨rfl, rfl, rfl, rfl, rfl⟩
  have serving : s.manager.begin.2.db.Serving :=
    inv.steady.serving.of_sameData same inv.steady.serving.cached
  have readSeq : s.manager.begin.1.readSeq = s.manager.db.globalSeq - 1 := rfl
  have pos := inv.steady.pos
  obtain ⟨order, ordered⟩ := inv.ordered
  have members : ∀ d ∈ s.clients ++ [⟨s.manager.begin.1, [], none⟩],
      d ∈ s.clients ∨ d = ⟨s.manager.begin.1, [], none⟩ := by simp
  refine ⟨counted, inv.steady.of_sameData same serving, fun d member => ?_,
    fun d member active => ?_,
    order, ?_, ordered.increasing, ordered.below, ordered.serial, ?_, fun d member => ?_,
    fun d member active u committed after => ?_⟩
  · obtain old | rfl := members d member
    · exact (inv.traced d old).mono (extends_of_sameData same)
    · refine ⟨?_, trivial, fun r done => nomatch done⟩
      show s.manager.begin.1.readSeq < s.manager.db.globalSeq
      omega
  · obtain old | rfl := members d member
    · exact inv.buffered d old active
    · exact .new ..
  · have empty : Client.update? ⟨s.manager.begin.1, [], none⟩ = none := rfl
    rw [updates, filterMap_append, filterMap_cons_none empty, filterMap_nil, append_nil]
    exact ordered.perm
  · exact (latest_of_sameData same).trans ordered.latest
  · obtain old | rfl := members d member
    · exact (stateAt_of_sameData same _ 0).trans (ordered.cut d old)
    · have all : upTo s.manager.begin.1.readSeq order = order := upTo_of_le fun u member => by
        have := ordered.below u member
        omega
      rw [all, ← ordered.latest]
      exact stateAt_of_sameData same _ 0
  · obtain old | rfl := members d member
    · exact ordered.recorded d old active u committed after
    · have := ordered.below u committed
      have after : s.manager.begin.1.readSeq < u.1 := after
      omega

/-- Aborts are as above, the marker key and empty values are not used, and no counter overflows. -/
def Careful (s : TxnSystem) (call : TxnCall) : Prop :=
  s.Safe call ∧
    match call with
    | .set _ key value => key ≠ commitMarkerKey ∧ value ≠ []
    | .delete _ key => key ≠ commitMarkerKey
    | .commit i now _ _ => ∀ c ∈ s.clients[i]?, ∀ batch ∈ (c.txn.buildWriteBatch now).toOption,
        s.manager.db.Fits batch
    | _ => True

instance (s : TxnSystem) (call : TxnCall) : Decidable (s.Careful call) := by
  rcases call <;> unfold Careful <;> infer_instance

theorem Inv.answer {txn : Transaction} {event : TxnEvent} (active : c.txn.state = .active)
    (same : Engine.SameData s.manager.db m.db) (serving : m.db.Serving)
    (history : m.history = s.manager.history)
    (holds : event.Holds (overlay c.txn.buffer (s.manager.db.view c.txn.readSeq)))
    (readSeq : txn.readSeq = c.txn.readSeq)
    (after : Client.Buffered { c with txn := txn, trace := c.trace ++ [event] })
    (counted : (s.put i m { c with txn := txn, trace := c.trace ++ [event] }).Counted) :
    (s.put i m { c with txn := txn, trace := c.trace ++ [event] }).Inv σ₀ := by
  have here := mem_of_getElem? found
  have buffered := inv.buffered c here active
  have traced := (inv.traced c here).extend buffered holds readSeq
  exact inv.put found counted (inv.steady.of_sameData same serving) (extends_of_sameData same)
    (latest_of_sameData same) history readSeq
    (after.update?_eq_none.trans buffered.update?_eq_none.symm)
    (traced.mono (extends_of_sameData same)) fun _ => ⟨active, after⟩

/-- A call that ends a transaction without a commit of writes. -/
theorem Inv.close (ended : c'.txn.state ≠ .active)
    (readSeq : c'.txn.readSeq = c.txn.readSeq)
    (trace : c'.trace = c.trace) (update : c'.update? = c.update?)
    (readOnly : ∀ r, c'.result = some r → c.result = some r ∨ r = c.txn.readSeq)
    (counted : (s.put i (s.manager.cleanupTxn c.txn) c').Counted) :
    (s.put i (s.manager.cleanupTxn c.txn) c').Inv σ₀ := by
  have same := sameData_unregisterSnapshot s.manager.db c.txn.readSeq
  have traced := (inv.traced c (mem_of_getElem? found)).mono (extends_of_sameData same)
  refine inv.put found counted (inv.steady.unregisterSnapshot _) (extends_of_sameData same)
    (latest_of_sameData same) rfl readSeq update ⟨readSeq ▸ traced.bound, ?_, ?_⟩
    fun active => absurd active ended
  · rw [readSeq, trace]
    exact traced.answers
  · intro r done silent
    rw [readSeq]
    obtain before | same := readOnly r done
    · exact traced.readOnly r before (trace ▸ silent)
    · exact same

omit found

theorem Inv.next {call : TxnCall} (careful : s.Careful call) (step : s.next call = some s') :
    s'.Inv σ₀ := by
  have counted := (counted_next_iff inv.counted step).mpr careful.1
  cases effect_of_next step with
  | begun => exact inv.begin counted
  | refused other => exact inv
  | @ownRead i c key now value ttl found active written =>
    have holds :
        (read key value).Holds (overlay c.txn.buffer (s.manager.db.view c.txn.readSeq)) := by
      simp [Event.Holds, overlay, Transaction.buffer, written]
    have observed := (inv.buffered c (mem_of_getElem? found) active).observe (.read key value)
      rfl (fun k member => mem_insert_of_mem member) (fun r member => member)
      (fun k reads => .inl (mem_insert_iff.mpr (.inl reads)))
    exact inv.answer found active .rfl inv.steady.serving rfl holds rfl observed counted
  | @read i c key now found active unwritten =>
    obtain ⟨answer, serving⟩ := inv.steady.serving.find key c.txn.readSeq now
    rw [inv.steady.stateAt_eq] at answer
    rw [answer] at counted ⊢
    have holds : (read key (s.manager.db.view c.txn.readSeq key)).Holds
        (overlay c.txn.buffer (s.manager.db.view c.txn.readSeq)) := by
      simp [Event.Holds, overlay, Transaction.buffer, unwritten]
    have observed := (inv.buffered c (mem_of_getElem? found) active).observe
      (.read key (s.manager.db.view c.txn.readSeq key)) rfl
      (fun k member => mem_insert_of_mem member) (fun r member => member)
      (fun k reads => .inl (mem_insert_iff.mpr (.inl reads)))
    exact inv.answer found active (sameData_find ..) serving rfl holds rfl observed counted
  | @scanned i c start stop now found active =>
    obtain ⟨serving, entries, answer, exact⟩ :=
      inv.steady.serving.scan start stop c.txn.readSeq now
    rw [inv.steady.stateAt_eq] at exact
    rw [answer] at counted ⊢
    have holds := c.txn.mem_overlay exact
    have observed := (inv.buffered c (mem_of_getElem? found) active).observe
      (.scan start stop (c.txn.overlay start stop entries)) rfl
      (fun k member => member) (fun r member => mem_append_left [(start, stop)] member)
      (fun k reads => .inr ⟨(start, stop), by simp, reads⟩)
    exact inv.answer found active (sameData_scanLoop ..) serving rfl holds rfl observed counted
  | @set i c key value found active =>
    have wrote := (inv.buffered c (mem_of_getElem? found) active).write key (some value)
      careful.2.1 fun empty => careful.2.2 (Option.some.inj empty)
    exact inv.answer found active .rfl inv.steady.serving rfl trivial rfl wrote counted
  | @deleted i c key found active =>
    have wrote := (inv.buffered c (mem_of_getElem? found) active).write key none careful.2 (by simp)
    exact inv.answer found active .rfl inv.steady.serving rfl trivial rfl wrote counted
  | ended other found active =>
    exact inv.close found (by simp) rfl rfl rfl (fun r done => .inl done) counted
  | @readOnly i c now fault found active unwritten =>
    have buffered := inv.buffered c (mem_of_getElem? found) active
    have silent : ¬c.trace.any isWrite := fun writes => buffered.isWrite_iff.mp writes unwritten
    refine inv.close found (by simp) rfl rfl ?_ (fun r done => .inr (Option.some.inj done).symm)
      counted
    rw [buffered.update?_eq_none, Client.update?, if_neg silent]
  | @failed i c now batch fault found active built =>
    have here := mem_of_getElem? found
    have fits : s.manager.db.Fits batch := careful.2 c found batch (by rw [built]; rfl)
    have extends' := extends_abandoned inv.steady.serving fits fault.written
    exact inv.put found counted (inv.steady.abandoned fits _) extends'
      (latest_abandoned inv.steady.serving fits _) rfl rfl rfl
      ((inv.traced c here).mono extends') fun _ => ⟨active, inv.buffered c here active⟩
  | committed found active written free built =>
    exact inv.commit found active written free built (careful.2 _ found _ (by rw [built]; rfl))
      (by simp)
      rfl rfl rfl counted
  | aborted found =>
    exact inv.close found (by simp [TransactionManager.abort]) rfl rfl rfl (fun r done =>
      .inl done) counted

omit inv

theorem inv_initial (steady : m.db.Steady) (none : m.db.activeSnapshots = .empty) :
    Inv m.db.latest (initial m) :=
  ⟨counted_initial none, steady, by simp [initial], by simp [initial],
    [], .refl _, .nil, by simp, trivial, rfl, by simp [initial], by simp [initial]⟩

/-- In a run of careful calls the committed updates are a serial history that ends in the latest
state, and a committed transaction that wrote nothing reads the state at its snapshot. -/
theorem transactions_serializable (steady : m.db.Steady) (none : m.db.activeSnapshots = .empty)
    (run : ReflTransGen (Run.SafeStep Careful next) (initial m) s) :
    ∃ order, order.Perm s.updates ∧ order.Pairwise (·.1 < ·.1) ∧
      Valid m.db.latest (eventsOf order) ∧ s.manager.db.latest = final m.db.latest
        (eventsOf order) ∧ ∀ c ∈ s.clients, ∀ r, c.result = some r → c.trace.any isWrite = false →
        r = c.txn.readSeq ∧ Valid (s.manager.db.view c.txn.readSeq) c.trace ∧
        s.manager.db.view c.txn.readSeq = final m.db.latest
        (eventsOf (upTo c.txn.readSeq order)) := by
  have inv : s.Inv m.db.latest := Run.invariant run (inv_initial steady none)
    fun inv careful step => inv.next careful step
  obtain ⟨order, ordered⟩ := inv.ordered
  refine ⟨order, ordered.perm, ordered.increasing, ordered.serial, ordered.latest, ?_⟩
  intro c member r done silent
  have traced := inv.traced c member
  exact ⟨traced.readOnly r done silent, traced.answers, ordered.cut c member⟩

end

section

open Reference

def sampleKey : Bytes := .ofString "x"

def sampleValue : Bytes := .ofString "v"

/-- The abort of a timed-out transaction releases the snapshot of the second one, which has read a
key. One more writes the key, another prunes the record of this, and the second one writes the key
and commits. -/
theorem transactions_lose_update : ∃ db s order, Engine.openDb .empty = .ok db ∧
      ReflTransGen (Run.Step next) (initial (.new db [] "30s")) s ∧
      order.Perm s.updates ∧ order.Pairwise (·.1 < ·.1) ∧ ¬Valid db.latest (eventsOf order) := by
  refine ⟨_, _, _, rfl, Run.step_get [.begin, .begin, .get 1 sampleKey 0 false,
    .get 0 sampleKey 0 true, .abort 0,
      .begin, .set 2 sampleKey sampleValue, .commit 2 0 false none,
      .begin, .set 3 sampleValue sampleValue, .commit 3 0 false none,
      .set 1 sampleKey sampleValue, .commit 1 0 false none] (by decide +kernel), rotate_perm _ 1, by
        decide +kernel, ?_⟩
  refine mt (congrArg (Valid _) (?_ : _ = [.write sampleKey (some sampleValue),
    .write sampleValue (some sampleValue),
    .read sampleKey none, .write sampleKey (some sampleValue)])).mp ?_
  · decide +kernel
  · have distinct : sampleKey ≠ sampleValue := by decide
    simp [Valid, Event.Holds, apply, distinct]

/-- Two transactions with the same snapshot that write different keys both commit. -/
theorem transactions_serializable_disjoint : ∃ db s, Engine.openDb .empty = .ok db ∧
      ReflTransGen (Run.SafeStep Careful next) (initial (.new db [] "30s")) s ∧
      s.updates.length = 2 ∧ ∃ order, order.Perm s.updates ∧ Valid db.latest (eventsOf order) := by
  have run :=
    Run.safeStep_get Careful next (initial (.new (.ofRecovered (recoverFrom .empty .initial))
    [] "30s")) [.begin, .begin, .get 0 sampleKey 0 false, .set 0 sampleKey sampleValue,
      .delete 1 sampleValue, .commit 0 0 false none, .commit 1 0 false none] (by decide +kernel)
  obtain ⟨order, perm, -, serial, -⟩ := transactions_serializable (.of_openDb_empty rfl) rfl run
  exact ⟨_, _, rfl, run, by decide +kernel, order, perm, serial⟩

end

end TxnSystem

end OmniKV
