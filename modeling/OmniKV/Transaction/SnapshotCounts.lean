import OmniKV.Storage.Visibility
import OmniKV.Transaction.System

/-!
# Registered snapshots

The count of a sequence number is to be the number of active transactions that read at it, because
compactions keep only what the oldest registered snapshot needs. But `abort` releases the snapshot
again for a transaction that has already ended, which takes the count away from another one.
-/

namespace OmniKV

open Versioned Relation SortedMap Engine SsiHistory

namespace Engine

variable {e e' : Engine}

theorem registered_congr (same : e'.activeSnapshots = e.activeSnapshots) (seq : ℕ) :
    e'.registered seq = e.registered seq := by
  rw [registered, registered, same]

theorem registered_snapshot (e : Engine) (seq : ℕ) :
    e.snapshot.1.registered seq = e.registered seq + if seq = e.globalSeq - 1 then 1 else 0 := by
  simp only [registered, snapshot, get?_insert]
  split_ifs with here
  · rw [here]
    rfl
  · rfl

theorem registered_unregisterSnapshot (e : Engine) (r seq : ℕ) :
    (e.unregisterSnapshot r).registered seq = e.registered seq - if seq = r then 1 else 0 := by
  simp only [registered, unregisterSnapshot]
  cases count : e.activeSnapshots.get? r with
  | none =>
    split_ifs with here
    · simp [here, count]
    · rfl
  | some n =>
    by_cases last : n - 1 = 0
    · simp only [last, if_true, get?_filter_ne]
      split_ifs with here
      · simp [here, count, last]
      · rfl
    · simp only [last, if_false, get?_insert]
      split_ifs with here
      · simp [here, count]
      · rfl

theorem minActiveSnapshot_le_of_registered {seq : ℕ} (counted : 0 < e.registered seq) :
    e.minActiveSnapshot ≤ seq := by
  obtain ⟨oldest, first, least⟩ := exists_oldest_of_registered counted
  rw [minActiveSnapshot, first]
  exact least

section

variable [External]

theorem activeSnapshots_find (e : Engine) (key : Bytes) (seq : ℕ) (now : UInt64) :
    (e.find key seq now).2.activeSnapshots = e.activeSnapshots := by
  obtain ⟨cache, eq⟩ := exists_blockCache_find e key seq now
  rw [eq]

theorem activeSnapshots_scanLoop (now : UInt64) (vs : List Version) (e : Engine) :
    (scanLoop now vs e).2.activeSnapshots = e.activeSnapshots := by
  obtain ⟨cache, eq⟩ := exists_blockCache_scanLoop now vs e
  rw [eq]

/-- A compaction drops no version that a reader at `seq` may see. -/
def CompactionKeeps (e : Engine) (seq : ℕ) : Prop :=
  (∀ t ∈ e.roots.tables, t.Exact) → Unambiguous e.roots.versions →
    (∀ token e', (e.l1Output token).versions = e.l0Merged.retained e.compactionRetentionFloor →
      e.compactL0ToL1 token = .ok e' →
        ∀ key v, IsNewest e'.roots.versions key seq v ↔ IsNewest e.roots.versions key seq v) ∧
    ∀ token now e', (e.baseOutput token now).versions = e.baseVersions e.l1Merged now →
      e.compactL1ToL2 token now = .ok e' →
        ∀ key v, IsNewest e'.roots.versions key seq v ↔ IsNewest e.roots.versions key seq v

theorem compactionKeeps_of_floor {floor seq : ℕ} (pinned : e.compactionRetentionFloor = some floor)
    (below : floor ≤ seq) : e.CompactionKeeps seq := by
  have covered : Covered e.roots.versions (some floor) seq := .inl ⟨floor, rfl, below⟩
  intro exact distinct
  refine ⟨fun token e' written done key v => ?_, fun token now e' written done key v => ?_⟩
  · exact isNewest_compactL0ToL1 exact distinct written done (pinned ▸ covered)
  · exact isNewest_compactL1ToL2_of_floor exact distinct written done pinned covered

end

end Engine

namespace Client

/-- The transaction is active and reads at `seq`. -/
def LiveAt (seq : ℕ) (c : Client) : Prop := c.txn.state = .active ∧ c.txn.readSeq = seq
deriving Decidable

end Client

namespace TxnSystem

/-- The number of active transactions that read at a sequence number. -/
def live (s : TxnSystem) (seq : ℕ) : ℕ := s.clients.countP fun c => c.LiveAt seq

/-- The registered readers are the active transactions. -/
def Counted (s : TxnSystem) : Prop := ∀ seq, s.manager.db.registered seq = s.live seq

variable {s s' : TxnSystem} {i : ℕ} {c c' : Client} {m : TransactionManager}

theorem live_pos_of_mem (member : c ∈ s.clients) (active : c.txn.state = .active) :
    0 < s.live c.txn.readSeq :=
  List.countP_pos_iff.mpr ⟨c, member, decide_eq_true ⟨active, rfl⟩⟩

theorem live_put (found : s.clients[i]? = some c) (seq : ℕ) : (s.put i m c').live seq =
      s.live seq - (if c.LiveAt seq then 1 else 0) + if c'.LiveAt seq then 1 else 0 := by
  obtain ⟨bound, rfl⟩ := List.getElem?_eq_some_iff.mp found
  rw [live, put, List.countP_set bound]
  simp [live]

theorem live_put_of_iff (found : s.clients[i]? = some c) {seq : ℕ}
    (same : c'.LiveAt seq ↔ c.LiveAt seq) : (s.put i m c').live seq = s.live seq := by
  rw [live_put found]
  by_cases active : c.LiveAt seq
  · have := live_pos_of_mem (List.mem_of_getElem? found) active.1
    rw [active.2] at this
    rw [if_pos active, if_pos (same.mpr active)]
    omega
  · rw [if_neg active, if_neg (fun h => active (same.mp h))]
    rfl

section

variable (counted : s.Counted) (found : s.clients[i]? = some c)

include counted found

/-- A call that neither registers nor ends a transaction. -/
theorem Counted.put (snapshots : m.db.activeSnapshots = s.manager.db.activeSnapshots)
    (state : c'.txn.state = c.txn.state) (readSeq : c'.txn.readSeq = c.txn.readSeq) :
    (s.put i m c').Counted := by
  intro seq
  rw [live_put_of_iff found (by rw [Client.LiveAt, Client.LiveAt, state, readSeq])]
  exact (registered_congr snapshots seq).trans (counted seq)

theorem Counted.release (active : c.txn.state = .active) {db : Engine}
    (manager : m.db = db.unregisterSnapshot c.txn.readSeq)
    (snapshots : db.activeSnapshots = s.manager.db.activeSnapshots)
    (ended : c'.txn.state ≠ .active) : (s.put i m c').Counted := by
  intro seq
  have after : ¬c'.LiveAt seq := fun live => ended live.1
  have before : c.LiveAt seq ↔ seq = c.txn.readSeq :=
    ⟨fun live => live.2.symm, fun h => ⟨active, h.symm⟩⟩
  have counts := counted seq
  rw [live_put found, if_neg after, ← counts, ← registered_congr snapshots]
  simp only [before]
  exact (congrArg (·.registered seq) manager).trans (registered_unregisterSnapshot db _ seq)

/-- Ending a transaction twice goes unnoticed exactly when no active one reads at its sequence
number. -/
theorem counted_release_again (before : c.txn.state ≠ .active) (ended : c'.txn.state ≠ .active) :
    (s.put i (s.manager.cleanupTxn c.txn) c').Counted ↔ s.live c.txn.readSeq = 0 := by
  have kept : ∀ seq, (s.put i (s.manager.cleanupTxn c.txn) c').live seq = s.live seq := fun seq =>
    live_put_of_iff found ⟨fun live => absurd live.1 ended, fun live => absurd live.1 before⟩
  have released : ∀ seq, (s.put i (s.manager.cleanupTxn c.txn) c').manager.db.registered seq =
      s.live seq - if seq = c.txn.readSeq then 1 else 0 := fun seq =>
    (registered_unregisterSnapshot _ _ seq).trans (by rw [counted seq])
  constructor
  · intro counted'
    have here := counted' c.txn.readSeq
    rw [kept, released, if_pos rfl] at here
    omega
  · intro none seq
    rw [kept, released]
    split_ifs with here
    · rw [here, none]
    · rfl

end

/-- A transaction is aborted while it is active, or when no active one has its snapshot. -/
def Safe (s : TxnSystem) : TxnCall → Prop
  | .abort i => ∀ c, s.clients[i]? = some c → c.txn.state = .active ∨ s.live c.txn.readSeq = 0
  | _ => True

instance (s : TxnSystem) (call : TxnCall) : Decidable (s.Safe call) := by
  cases call with
  | abort i =>
    cases found : s.clients[i]? with
    | none => exact isTrue (by simp [Safe, found])
    | some c =>
      exact decidable_of_iff (c.txn.state = .active ∨ s.live c.txn.readSeq = 0)
        (by simp [Safe, found])
  | _ => exact isTrue trivial

section

variable [External]

theorem counted_next_iff {call : TxnCall} (counted : s.Counted) (step : s.next call = some s') :
    s'.Counted ↔ s.Safe call := by
  cases effect_of_next step with
  | begun =>
    refine iff_of_true (fun seq => ?_) trivial
    have registered := registered_snapshot s.manager.db seq
    have begun : (⟨s.manager.begin.1, [], none⟩ : Client).LiveAt seq ↔
        seq = s.manager.db.globalSeq - 1 := ⟨fun live => live.2.symm, fun h => ⟨rfl, h.symm⟩⟩
    rw [live, List.countP_append, List.countP_singleton]
    simp only [decide_eq_true_eq, begun]
    rw [← live, ← counted seq]
    exact registered
  | refused other =>
    refine iff_of_true counted ?_
    cases call <;> first | trivial | exact absurd rfl (other _)
  | ownRead found active written | set found active | deleted found active
  | failed found active built =>
    exact iff_of_true (counted.put found rfl rfl rfl) trivial
  | read found active unwritten =>
    exact iff_of_true (counted.put found (activeSnapshots_find ..) rfl rfl) trivial
  | scanned found active =>
    exact iff_of_true (counted.put found (activeSnapshots_scanLoop ..) rfl rfl) trivial
  | ended other found active =>
    refine iff_of_true (counted.release found active rfl rfl (by simp)) ?_
    cases call <;> first | trivial | exact absurd rfl (other _)
  | readOnly found active unwritten =>
    exact iff_of_true (counted.release found active rfl rfl (by simp)) trivial
  | @committed i c now batch found active written free built =>
    have manager : (afterCommit s.manager c.txn batch).db =
        (s.manager.db.committed batch).unregisterSnapshot c.txn.readSeq := rfl
    exact iff_of_true (counted.release found active manager rfl (by simp)) trivial
  | @aborted i c found =>
    have safe : s.Safe (.abort i) ↔ c.txn.state = .active ∨ s.live c.txn.readSeq = 0 := by
      simp [Safe, found]
    rw [safe]
    by_cases active : c.txn.state = .active
    · refine iff_of_true ?_ (.inl active)
      exact counted.release found active rfl rfl (by simp [TransactionManager.abort])
    · rw [or_iff_right active]
      exact counted_release_again counted found active (by simp [TransactionManager.abort])

omit [External] in
theorem counted_initial (none : m.db.activeSnapshots = .empty) : (initial m).Counted :=
  fun seq => by
  simp [initial, live, registered, none]

theorem counted_of_run (none : m.db.activeSnapshots = .empty)
    (run : ReflTransGen (Run.SafeStep Safe next) (initial m) s) : s.Counted :=
  Run.invariant run (counted_initial none)
    fun counted safe step => (counted_next_iff counted step).mpr safe

/-- While a transaction is aborted only if it is active, or nobody has its snapshot, the registered
counts are those of the active transactions, and a compaction keeps what they may read. This is
exact for the next call. -/
theorem registered_eq_live (none : m.db.activeSnapshots = .empty)
    (run : ReflTransGen (Run.SafeStep Safe next) (initial m) s) :
    (∀ seq, s.manager.db.registered seq = s.live seq) ∧
    (∀ c ∈ s.clients, c.txn.state = .active → s.manager.db.CompactionKeeps c.txn.readSeq) ∧
    ∀ call s', s.next call = some s' → ((∀ seq, s'.manager.db.registered seq = s'.live seq) ↔
      s.Safe call) := by
  have counted := counted_of_run none run
  refine ⟨counted, fun c member active => ?_, fun call s' step => counted_next_iff counted step⟩
  have pos : 0 < s.manager.db.registered c.txn.readSeq := by
    rw [counted]
    exact live_pos_of_mem member active
  obtain ⟨floor, pinned, below⟩ := exists_floor_of_registered pos
  exact compactionKeeps_of_floor pinned below

end

section

open Reference

/-- The commit of the first of two transactions with one snapshot times out, and it is aborted
afterwards: the second is no longer counted. -/
theorem registered_ne_live : ∃ db s, openDb .empty = .ok db ∧
      ReflTransGen (Run.Step next) (initial (.new db [] "30s")) s ∧
      s.manager.db.registered 0 ≠ s.live 0 ∧ s.manager.db.compactionRetentionFloor = none ∧
      ∃ c ∈ s.clients, c.txn.state = .active :=
  ⟨_, _, rfl, Run.step_get [.begin, .begin, .commit 0 0 true none, .abort 0] (by decide +kernel),
    by decide +kernel, by decide +kernel, by decide +kernel⟩

/-- The first transaction is aborted while active; the second when nobody reads at its snapshot. -/
theorem registered_eq_live_after_aborts : ∃ db s, openDb .empty = .ok db ∧
      ReflTransGen (Run.SafeStep Safe next) (initial (.new db [] "30s")) s ∧
      s.clients.length = 2 ∧ ∀ seq, s.manager.db.registered seq = s.live seq := by
  have run := Run.safeStep_get Safe next (initial (.new (.ofRecovered (recoverFrom .empty .initial))
    [] "30s")) [.begin, .begin, .set 0 (.ofString "k") (.ofString "v"),
      .commit 0 0 false (some ⟨.ioError "heap pwrite", 0⟩), .abort 0,
      .get 1 (.ofString "k") 0 true, .abort 1] (by decide +kernel)
  exact ⟨_, _, rfl, run, by decide +kernel, (registered_eq_live rfl run).1⟩

end

section

variable [External]

/-- Every snapshot in use was taken, so the next one is not before it. -/
def Past (s : TxnSystem) : Prop :=
  ∀ seq, (s.manager.db.activeSnapshots.get? seq).isSome → seq ≤ s.manager.db.snapshot.2

/-- The counter of sequence numbers does not wrap around. -/
def Unwrapped (s : TxnSystem) : TxnCall → Prop
  | .commit i now _ _ => ∀ c ∈ s.clients[i]?, ∀ batch, c.txn.buildWriteBatch now = .ok batch →
      s.manager.db.globalSeq + (batch.opCount + 1) < 2 ^ 64
  | _ => True

section

omit [External]

theorem Past.of_le (past : s.Past) (fewer : ∀ seq, (s'.manager.db.activeSnapshots.get? seq).isSome →
      (s.manager.db.activeSnapshots.get? seq).isSome)
    (later : s.manager.db.globalSeq ≤ s'.manager.db.globalSeq) : s'.Past := fun seq taken =>
  (past seq (fewer seq taken)).trans (Nat.sub_le_sub_right later 1)

theorem isSome_of_unregisterSnapshot {e : Engine} {r seq : ℕ}
    (taken : ((e.unregisterSnapshot r).activeSnapshots.get? seq).isSome) :
    (e.activeSnapshots.get? seq).isSome := by
  rw [unregisterSnapshot] at taken
  split at taken
  · exact taken
  · rename_i count found
    by_cases here : seq = r
    · rw [here, found]
      rfl
    · split_ifs at taken
      · rwa [get?_filter_ne, if_neg here] at taken
      · rwa [get?_insert, if_neg here] at taken

end

theorem Past.next {call : TxnCall} (past : s.Past) (unwrapped : s.Unwrapped call)
    (step : s.next call = some s') : s'.Past := by
  have cached {e : Engine} {clients : List Client} (same : ∃ cache,
    e = { s.manager.db with blockCache := cache }) :
      TxnSystem.Past ⟨{ s.manager with db := e }, clients⟩ := by
    obtain ⟨cache, rfl⟩ := same
    exact past
  cases effect_of_next step with
  | begun =>
    intro seq taken
    by_cases here : seq = s.manager.db.globalSeq - 1
    · exact here.le
    · change ((s.manager.db.activeSnapshots.insert _ _).get? seq).isSome at taken
      rw [get?_insert, if_neg here] at taken
      exact past seq taken
  | refused | ownRead | set | deleted => exact past
  | read => exact cached (exists_blockCache_find ..)
  | scanned => exact cached (exists_blockCache_scanLoop ..)
  | ended | readOnly | aborted =>
    exact past.of_le (fun _ => isSome_of_unregisterSnapshot)
      (sameData_unregisterSnapshot ..).globalSeq.ge
  | failed found active built =>
    have room := unwrapped _ found _ built
    exact past.of_le (fun _ => id) ((Nat.le_add_right ..).trans (wrap64_of_lt room).ge)
  | @committed i c now batch found active written free built =>
    have room := unwrapped _ found _ built
    have counter := globalSeq_committed_of_lt room
    refine past.of_le (fun _ => isSome_of_unregisterSnapshot) ?_
    exact (Nat.le_add_right ..).trans
      (counter.ge.trans (sameData_unregisterSnapshot ..).globalSeq.ge)

/-- No transaction that is registered, or begins later, finds another conflict in the pruned
history. -/
theorem scanConflicts_prune (none : m.db.activeSnapshots = .empty)
    (run : ReflTransGen (Run.SafeStep Unwrapped next) (initial m) s) (history : SsiHistory)
    {txn : Transaction}
    (live : 0 < s.manager.db.registered txn.readSeq ∨ s.manager.db.snapshot.2 ≤ txn.readSeq) :
    scanConflicts txn (history.prune s.manager.db.minActiveSnapshot) =
      scanConflicts txn history := by
  have past : s.Past := Run.invariant run (fun seq taken => by simp [initial, none] at taken)
    fun past unwrapped step => past.next unwrapped step
  have floor : s.manager.db.minActiveSnapshot ≤ txn.readSeq := by
    obtain counted | later := live
    · exact minActiveSnapshot_le_of_registered counted
    · refine le_trans ?_ later
      rw [minActiveSnapshot, oldestActiveSnapshot]
      cases first : s.manager.db.activeSnapshots.entries.head? with
      | none => exact le_rfl
      | some entry =>
        have taken := get?_eq_some_iff.mpr (List.mem_of_head? first)
        exact past entry.1 (taken ▸ rfl)
  exact scanConflicts_prune_of_le floor history

end

section

open Reference

/-- A manager whose store has given out one sequence number. -/
def sampleManager : TransactionManager :=
  .new { ofRecovered (recoverFrom .empty .initial) with globalSeq := 2 } [] "30s"

def sampleHistory : SsiHistory :=
  [⟨1, 0, [.ofString "k"], [], []⟩, ⟨2, 2, [.ofString "k"], [], []⟩]

/-- The record of a commit before the snapshot is dropped, one after it is found. -/
theorem scanConflicts_prune_sample :
    sampleHistory.prune sampleManager.begin.2.db.minActiveSnapshot = sampleHistory.tail ∧
      scanConflicts sampleManager.begin.1 sampleHistory.tail =
        scanConflicts sampleManager.begin.1 sampleHistory := by
  have begun : ReflTransGen (Run.SafeStep Unwrapped next) (initial sampleManager)
      ⟨sampleManager.begin.2, [⟨sampleManager.begin.1, [], none⟩]⟩ := .single ⟨.begin, trivial, rfl⟩
  have live : 0 < sampleManager.begin.2.db.registered sampleManager.begin.1.readSeq :=
    by decide +kernel
  have same := scanConflicts_prune rfl begun sampleHistory (.inl live)
  have pruned :
      sampleHistory.prune sampleManager.begin.2.db.minActiveSnapshot = sampleHistory.tail := by
    decide +kernel
  exact ⟨pruned, same⟩

end

end TxnSystem

end OmniKV
