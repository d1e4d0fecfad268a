import Mathlib.Data.Fintype.Defs
import OmniKV.Runtime.CommitSystem
import OmniKV.Storage.WellFormed

/-!
# Failed commits

The fsync of one epoch also makes batches durable whose writers wait for the next epoch. If that
next fsync fails, those writers get an error, but their batches are not discarded.
-/

namespace OmniKV

open List Option Function GroupCommit Engine LogBatch WriteAheadLog

/-- The writer holds the log lock. -/
@[simp] def Phase.HoldsLog : Phase → Prop
  | .syncing .. | .failing .. | .discarding .. => True
  | _ => False

/-- The fsync of the writer has failed, or the writer has an error. -/
@[simp] def Phase.Broken : Phase → Prop
  | .failing .. | .discarding .. | .synced _ _ (some _) | .failed _ => True
  | _ => False

@[simp] def Phase.CleansUp : Phase → Prop
  | .failing .. | .discarding .. => True
  | _ => False

theorem Phase.CleansUp.of_leader {p : Phase} {since epoch : ℕ} {err : OmniError} {poisoned : Prop}
    (leader : p = .failing since epoch err ∨ p = .discarding since epoch err ∧ poisoned) :
    p.CleansUp := by
  obtain rfl | ⟨rfl, -⟩ := leader <;> trivial

/-- The writer is acknowledged, or waits for an epoch that is published. -/
def Phase.settled (completedEpoch : ℕ) : Phase → Bool
  | .acked _ _ => true
  | .waiting _ needed => needed ≤ completedEpoch
  | _ => false

/-- When the writer appended its batch. -/
def Phase.since? : Phase → Option ℕ
  | .idle | .failed _ => none
  | .appended since | .waiting since _ | .leading since _ | .syncing since _ _ | .failing since _ _
  | .discarding since _ _ | .synced since _ _ | .acked since _ => some since

/-- When the fsync of the writer began. -/
def Phase.start? : Phase → Option ℕ
  | .syncing _ _ start => some start
  | _ => none

theorem Phase.isSome_since? {p : Phase} (busy : p ≠ .idle) (sound : ¬p.Broken) :
    ∃ since, p.since? = some since := by
  cases p <;> simp_all [Phase.since?]

namespace GroupCommit

variable {ι : Type*} {s s' : GroupCommit ι} {w : ι} {action : GroupAction ι}

/-- An fsync that began after the append of the writer has succeeded. -/
def Covered (s : GroupCommit ι) (w : ι) : Prop :=
  ∃ since ∈ (s.phase w).since?, ∃ epoch ≤ s.group.completedEpoch + 1, ∃ sync ∈ s.syncs epoch,
    sync.2 = none ∧ since < sync.1

instance (s : GroupCommit ι) (w : ι) : Decidable (s.Covered w) := by
  unfold Covered
  infer_instance

/-- Every append is in the past, and before an fsync in flight. -/
def Ordered (s : GroupCommit ι) : Prop := ∀ w, ∀ since ∈ (s.phase w).since?,
  since < s.clock ∧ ∀ w', ∀ start ∈ (s.phase w').start?, since < start

variable [DecidableEq ι] (step : s.next action = some s')

include step

theorem since?_next (busy : s.phase w ≠ .idle) (sound : ¬(s'.phase w).Broken) :
    (s'.phase w).since? = (s.phase w).since? := by
  have joined : ∀ (j : Joined) since, ¬(j.phase since).Broken →
      (j.phase since).since? = some since := by
    intro j since
    cases j <;> simp [Joined.phase, Phase.since?]
  by_cases other : w = action.writer
  · cases effect_of_next step <;> subst other <;> simp_all [Phase.since?]
  · rw [phase_next step other]

omit step

/-- One writer moves, and only an append or the start of an fsync takes a new time. -/
theorem Ordered.move {p : Phase} (ordered : s.Ordered) (phase : s'.phase = update s.phase w p)
    (clock : s.clock ≤ s'.clock)
    (appends : ∀ t ∈ p.since?, t ∈ (s.phase w).since? ∨
      t < s'.clock ∧ p.start? = none ∧ ∀ w', (s.phase w').start? = none)
    (starts : ∀ t ∈ p.start?, t ∈ (s.phase w).start? ∨ t = s.clock) : s'.Ordered := by
  have old : ∀ w₁, ∀ t ∈ (s.phase w₁).since?, t < s'.clock ∧
      ∀ w', ∀ start ∈ (s'.phase w').start?, t < start := by
    intro w₁ t appended
    obtain ⟨past, before⟩ := ordered w₁ t appended
    refine ⟨past.trans_le clock, ?_⟩
    rw [phase, forall_update_iff s.phase fun _ q => ∀ start ∈ q.start?, t < start]
    refine ⟨fun start began => ?_, fun w' _ => before w'⟩
    obtain began | rfl := starts start began
    · exact before w start began
    · exact past
  intro w₁ t appended
  by_cases same : w₁ = w
  · subst same
    rw [phase, update_self] at appended
    obtain appended | ⟨past, here, others⟩ := appends t appended
    · exact old w₁ t appended
    · refine ⟨past, ?_⟩
      rw [phase, forall_update_iff s.phase fun _ q => ∀ start ∈ q.start?, t < start]
      simp [here, others]
  · rw [phase, update_of_ne same] at appended
    exact old w₁ t appended

/-- An append waits for the log, so no fsync is in flight. -/
theorem Ordered.next (ordered : s.Ordered) (step : s.next action = some s')
    (free : ∀ w, action = .append w → ∀ w', (s.phase w').start? = none) : s'.Ordered := by
  have joined : ∀ (j : Joined) since, (j.phase since).start? = none ∧
      ∀ t ∈ (j.phase since).since?, some since = some t := by
    intro j since
    cases j <;> simp [Joined.phase, Phase.since?, Phase.start?]
  cases effect_of_next step with
  | refuse | report =>
    exact ordered.move rfl le_rfl (by simp [Phase.since?]) (by simp [Phase.start?])
  | @append w =>
    refine ordered.move rfl (Nat.le_succ _) (fun t now => .inr ?_) (by simp [Phase.start?])
    exact ⟨Option.some.inj now ▸ Nat.lt_succ_self _, rfl, free w rfl⟩
  | join before | wake before =>
    exact ordered.move rfl le_rfl (fun t same =>
      .inl (before ▸ (joined _ _).2 t same)) (by simp [joined])
  | beginSync before =>
    exact ordered.move rfl (Nat.le_succ _) (fun t same => .inl (before ▸ same))
      fun t now => .inr (Option.some.inj now).symm
  | succeed before | fail before | poison before | discard before | acknowledge before =>
    exact ordered.move rfl le_rfl (fun t same => .inl (before ▸ same)) (by simp [Phase.start?])

theorem Covered.next (covered : s.Covered w) (inv : s.Inv) (step : s.next action = some s')
    (sound : ¬(s'.phase w).Broken) : s'.Covered w := by
  obtain ⟨since, appended, epoch, published, sync, synced, ok⟩ := covered
  have busy : s.phase w ≠ .idle := fun idle => by simp [idle, Phase.since?] at appended
  refine ⟨since, since?_next step busy sound ▸ appended, epoch, ?_, sync, ?_, ok⟩
  · have := (inv.published_next step le_rfl).1
    omega
  · cases effect_of_next step with
    | succeed syncing | fail syncing =>
      obtain ⟨-, -, -, unsynced⟩ := inv.syncing_epoch syncing
      refine (update_of_ne ?_ _ _).trans synced
      rintro rfl
      cases unsynced.symm.trans synced
    | _ => exact synced

end GroupCommit

namespace CommitSystem

variable {ι : Type*} [External] [DecidableEq ι]

/-- Counters do not wrap and keys fit the log. When an fsync fails, every writer that an earlier one
has covered is acknowledged; discarding the rest succeeds, and nobody is turned away before that. -/
def Safe (tx : ι → WriteBatch) (s : CommitSystem ι) : CommitAction ι → Prop
  | .reserve w =>
    s.engine.globalSeq + ((tx w).opCount + 1) < 2 ^ 64 ∧ ∀ op ∈ (tx w).ops, op.1.length ≤ 65535
  | .join _ => s.protocol.group.poisoned = none ∨ s.walLock = none
  | .wake w => (s.protocol.phase w).settled s.protocol.group.completedEpoch ∨
      s.protocol.group.poisoned = none ∨ s.walLock = none
  | .endSync _ outcome => outcome.failure ≠ none → ∀ w, s.protocol.Covered w →
      (s.protocol.phase w).settled s.protocol.group.completedEpoch
  | .discard _ outcome => outcome = .ok
  | _ => True

instance [Fintype ι] (tx : ι → WriteBatch) (s : CommitSystem ι) (action : CommitAction ι) :
    Decidable (s.Safe tx action) := by
  cases action <;> unfold Safe <;> infer_instance

/-- Writers have reserved disjoint runs of sequence numbers, all above those of the opened database.
-/
structure Ranges (tx : ι → WriteBatch) (floor : ℕ) (progress : ι → Progress) (globalSeq : ℕ) :
    Prop where
  word : globalSeq < 2 ^ 64
  opened : floor ≤ globalSeq
  above : ∀ w seq offset, (progress w).range = some (seq, offset) → floor ≤ seq
  below : ∀ w seq offset, (progress w).range = some (seq, offset) → seq + (tx w).opCount < globalSeq
  keys : ∀ w range, (progress w).range = some range → ∀ op ∈ (tx w).ops, op.1.length ≤ 65535
  disjoint : ∀ w w' seq offset seq' offset', w ≠ w' → (progress w).range = some (seq, offset) →
    (progress w').range = some (seq', offset') →
    seq + (tx w).opCount < seq' ∨ seq' + (tx w').opCount < seq

/-- A version of the opened database, or of a writer that has inserted its batch. -/
def Inserted (tx : ι → WriteBatch) (floor : ℕ) (progress : ι → Progress) (v : Version) : Prop :=
  v.seq < floor ∨ ∃ w seq offset, progress w = .inserted seq offset ∧
    ∃ r ∈ ((tx w).logBatch seq offset).records, r.version = v

/-- A batch of the opened log, or of a writer with this property. -/
def Owned (tx : ι → WriteBatch) (floor : ℕ) (s : CommitSystem ι) (owner : ι → Prop) (b : LogBatch) :
    Prop :=
  (∀ r ∈ b.records, r.seq < floor) ∨ ∃ w, s.batchOf tx w = some b ∧ owner w

/-- The log holds these batches, and the first of them are durable. -/
structure Logged (tx : ι → WriteBatch) (floor : ℕ) (s : CommitSystem ι)
    (durable pending : List LogBatch) : Prop where
  data : s.engine.files.wal.data = frames (durable ++ pending)
  durableOffset : s.engine.files.wal.durableOffset = (frames durable).length
  undurable : s.engine.files.wal.pending = (frames pending).length
  known : ∀ b ∈ durable ++ pending, b.KeysFit ∧ Owned tx floor s (s.protocol.phase · ≠ .idle) b

/-- Before a failure, between a failure and the end of its clean-up, and afterwards. From the
failure on every durable batch belongs to a writer that is or will be acknowledged. -/
inductive Stage (tx : ι → WriteBatch) (floor : ℕ) (s : CommitSystem ι)
    (durable pending : List LogBatch) : Prop
  | healthy (clear : s.protocol.group.poisoned = none) (sound : ∀ w, ¬(s.protocol.phase w).Broken)
      (covered : ∀ b ∈ durable, Owned tx floor s s.protocol.Covered b)
  | failing (w : ι) (since epoch : ℕ) (err : OmniError)
      (leader : s.protocol.phase w = .failing since epoch err ∨
        s.protocol.phase w = .discarding since epoch err ∧ s.protocol.group.poisoned ≠ none)
      (clear : ∀ epoch, s.protocol.group.failures epoch = none)
      (none_failed : ∀ w err, s.protocol.phase w ≠ .failed err)
      (settled : ∀ b ∈ durable, Owned tx floor s s.protocol.Settled b)
  | discarded (poisoned : s.protocol.group.poisoned ≠ none) (gone : pending = [])
      (synced : s.engine.files.wal.synced = s.engine.files.wal.data)
      (settled : ∀ b ∈ durable, Owned tx floor s s.protocol.Settled b)
      (leaders : ∀ w, (s.protocol.phase w).Leads →
        ∃ since epoch err, s.protocol.phase w = .synced since epoch (some err))

structure Inv (tx : ι → WriteBatch) (floor : ℕ) (s : CommitSystem ι) : Prop where
  protocol : s.protocol.Inv
  published : s.protocol.Healthy
  ordered : s.protocol.Ordered
  ranges : Ranges tx floor s.progress s.engine.globalSeq
  lock : ∀ w, (s.protocol.phase w).HoldsLog → s.walLock = some w
  memtable : ∀ v ∈ s.engine.roots.memtable, Inserted tx floor s.progress v
  inserted : ∀ w seq offset, s.progress w = .inserted seq offset →
    ∃ since epoch, s.protocol.phase w = .acked since epoch
  log : ∃ durable pending, Logged tx floor s durable pending ∧ Stage tx floor s durable pending

omit [DecidableEq ι] in
theorem inv_initial {tx : ι → WriteBatch} {d : Disk} {e : Engine} (opened : openDb d = .ok e)
    (wf : e.WellFormed) : Inv tx e.globalSeq (initial e : CommitSystem ι) := by
  have new : e.files.wal = .new e.files.wal.data := by
    obtain ⟨m, -, rfl⟩ := openDb_eq_ok_iff.mp opened
    rfl
  obtain ⟨batches, fit, data, below⟩ := wf.log
  refine ⟨GroupCommit.inv_initial, fun _ => ⟨fun _ => rfl, nofun⟩, nofun,
    ⟨(Nat.lt_succ_self _).trans wf.bound, le_rfl, nofun, nofun, nofun, nofun⟩, fun w holds =>
    holds.elim, ?_,
    nofun, batches, [], ⟨?_, ?_, congrArg WriteAheadLog.pending new, ?_⟩,
      .healthy rfl (fun _ => id) ?_⟩
  · intro v member
    exact .inl (wf.memtables _ (StorageRoots.mem_memtables.mpr (.inl rfl)) v member).2
  · rw [append_nil]
    exact data
  · rw [← data]
    exact congrArg WriteAheadLog.durableOffset new
  · rw [append_nil]
    exact fun b member => ⟨fit b member, .inl (below b member)⟩
  · exact fun b member => .inl (below b member)

section

variable {tx : ι → WriteBatch} {s s' : CommitSystem ι} {action : GroupAction ι}
  {durable pending : List LogBatch} {floor : ℕ}

omit [DecidableEq ι] in
theorem batchOf_congr (progress : s'.progress = s.progress) (w : ι) :
    s'.batchOf tx w = s.batchOf tx w := by
  rw [batchOf, batchOf, progress]

omit [DecidableEq ι] in
theorem Owned.imp {owner owner' : ι → Prop} {b : LogBatch} (owned : Owned tx floor s owner b)
    (batches : ∀ w b, s.batchOf tx w = some b → s'.batchOf tx w = some b)
    (moved : ∀ w, owner w → owner' w) : Owned tx floor s' owner' b := by
  refine owned.imp_right ?_
  rintro ⟨w, batch, own⟩
  exact ⟨w, batches w b batch, moved w own⟩

theorem settled_step (settled : ∀ b ∈ durable, Owned tx floor s s.protocol.Settled b)
    (inv : s.protocol.Inv)
    (step : s.protocol.next action = some s'.protocol) (progress : s'.progress = s.progress) :
    ∀ b ∈ durable, Owned tx floor s' s'.protocol.Settled b :=
  fun b member => (settled b member).imp (fun w _ => (batchOf_congr progress w).trans)
    fun _ ok => ok.next inv step

variable (logged : Logged tx floor s durable pending)

include logged

theorem Logged.known_next {p : GroupCommit ι} (step : s.protocol.next action = some p)
    {b : LogBatch}
    (member : b ∈ durable ++ pending) : b.KeysFit ∧ Owned tx floor s (p.phase · ≠ .idle) b :=
  (logged.known b member).imp_right fun owned => owned.imp (fun _ _ => id) fun _ =>
    ne_idle_next step

theorem Logged.step (step : s.protocol.next action = some s'.protocol)
    (progress : s'.progress = s.progress)
    (wal : s'.engine.files.wal = s.engine.files.wal) : Logged tx floor s' durable pending := by
  refine ⟨wal ▸ logged.data, wal ▸ logged.durableOffset, wal ▸ logged.undurable, fun b member => ?_⟩
  exact (logged.known_next step member).imp_right fun owned =>
    owned.imp (fun w _ => (batchOf_congr progress w).trans) fun _ => id

omit logged

variable (inv : Inv tx floor s)

include inv

theorem Inv.step (step : s.protocol.next action = some s'.protocol)
    (progress : s'.progress = s.progress) (seq : s'.engine.globalSeq = s.engine.globalSeq)
    (memtable : s'.engine.roots.memtable = s.engine.roots.memtable)
    (free : ∀ w, action = .append w → s.walLock = none)
    (lock : ∀ w, (s'.protocol.phase w).HoldsLog → s'.walLock = some w)
    (log : ∃ durable pending, Logged tx floor s' durable pending ∧
    Stage tx floor s' durable pending) : Inv tx floor s' where
  protocol := inv.protocol.next step
  published := inv.published.next inv.protocol step
  ordered := by
    refine inv.ordered.next step fun w append w' => ?_
    have held := inv.lock w'
    rw [free w append] at held
    cases phase : s.protocol.phase w' <;> simp_all [Phase.start?]
  ranges := by
    rw [progress, seq]
    exact inv.ranges
  lock := lock
  memtable := by
    rw [memtable, progress]
    exact inv.memtable
  inserted := by
    intro w n offset inserted
    rw [progress] at inserted
    obtain ⟨since, epoch, acked⟩ := inv.inserted w n offset inserted
    exact ⟨since, epoch, acked_next step acked⟩
  log := log

theorem Inv.lock_next {p : GroupCommit ι} (step : s.protocol.next action = some p)
    (actor : ¬(p.phase action.writer).HoldsLog) : ∀ w, (p.phase w).HoldsLog → s.walLock = some w :=
  forall_phase_next step (P := fun w p => p.HoldsLog → s.walLock = some w) (absurd · actor)
    fun w _ => inv.lock w

variable {w : ι} {progress : ι → Progress} {seq : ℕ}

omit [DecidableEq ι] in
/-- A writer that cleans up leads the sync in flight and holds the log. -/
theorem Inv.cleansUp (cleans : (s.protocol.phase w).CleansUp) :
    (s.protocol.phase w).Leads ∧ s.walLock = some w := by
  have held := inv.lock w
  cases phase : s.protocol.phase w <;> simp_all

omit inv in
theorem Stage.step (stage : Stage tx floor s durable pending) (inv : Inv tx floor s)
    (step : s.protocol.next action = some s'.protocol) (progress : s'.progress = s.progress)
    (wal : s'.engine.files.wal = s.engine.files.wal)
    (quiet : ¬(s.protocol.phase action.writer).CleansUp)
    (calm : s.protocol.group.poisoned = none → (∀ w, ¬(s.protocol.phase w).Broken) →
      s'.protocol.group.poisoned = none ∧ ¬(s'.protocol.phase action.writer).Broken)
    (during : ∀ w, (s.protocol.phase w).CleansUp →
    (∀ epoch, s.protocol.group.failures epoch = none) →
      (∀ epoch, s'.protocol.group.failures epoch = none) ∧
      ¬(s'.protocol.phase action.writer).Broken)
    (after : s.protocol.group.poisoned ≠ none → (∀ w, (s.protocol.phase w).Leads →
        ∃ since epoch err, s.protocol.phase w = .synced since epoch (some err)) →
      ¬(s'.protocol.phase action.writer).Leads) : Stage tx floor s' durable pending := by
  cases stage with
  | healthy clear sound covered =>
    obtain ⟨clear', actor⟩ := calm clear sound
    have sound' := forall_phase_next step (P := fun _ p => ¬p.Broken) actor fun w _ => sound w
    exact .healthy clear' sound' fun b member => (covered b member).imp
      (fun w _ => (batchOf_congr progress w).trans) fun w ok => ok.next inv.protocol step (sound' w)
  | failing w since epoch err leader clear none_failed settled =>
    have cleans := Phase.CleansUp.of_leader leader
    obtain ⟨clear', actor⟩ := during w cleans clear
    have other : w ≠ action.writer := fun same => quiet (same ▸ cleans)
    refine .failing w since epoch err ?_ clear' ?_ (settled_step settled inv.protocol step progress)
    · rw [phase_next step other]
      exact leader.imp_right (And.imp_right (poisoned_next step))
    · refine forall_phase_next step (P := fun _ p => ∀ err, p ≠ .failed err) ?_ fun w _ =>
        none_failed w
      intro err failed
      exact actor (failed ▸ trivial)
  | discarded poisoned gone synced settled leaders =>
    refine .discarded (poisoned_next step poisoned) gone (wal ▸ synced)
      (settled_step settled inv.protocol step progress) ?_
    exact forall_phase_next step (P := fun _ p => p.Leads → ∃ since epoch err,
      p = .synced since epoch (some err)) (absurd · (after poisoned leaders)) fun w _ => leaders w

theorem Inv.turn {p : GroupCommit ι} (step : s.protocol.next action = some p)
    (free : ∀ w, action = .append w → s.walLock = none)
    (unlocked : ¬(p.phase action.writer).HoldsLog)
    (quiet : ¬(s.protocol.phase action.writer).CleansUp)
    (calm : s.protocol.group.poisoned = none → (∀ w, ¬(s.protocol.phase w).Broken) →
      p.group.poisoned = none ∧ ¬(p.phase action.writer).Broken)
    (during : ∀ w, (s.protocol.phase w).CleansUp →
    (∀ epoch, s.protocol.group.failures epoch = none) →
      (∀ epoch, p.group.failures epoch = none) ∧ ¬(p.phase action.writer).Broken)
    (after : s.protocol.group.poisoned ≠ none → ¬(p.phase action.writer).Leads) :
    Inv tx floor { s with protocol := p } := by
  obtain ⟨durable, pending, logged, stage⟩ := inv.log
  exact inv.step step rfl rfl rfl free (inv.lock_next step unlocked) ⟨durable, pending,
    logged.step step rfl rfl, stage.step inv step rfl rfl quiet calm during fun poisoned _ =>
    after poisoned⟩

theorem Inv.join (safe : s.Safe tx (.join w)) (step : s.next tx (.join w) = some s') :
    Inv tx floor s' := by
  obtain ⟨p, moved, rfl⟩ := map_eq_some_iff.mp step
  cases effect_of_next moved with
  | @join _ since appended =>
    -- A writer is turned away if the engine is poisoned, and queues or leads otherwise.
    have phase : ¬(s.protocol.group.joinGroup.1.phase since).HoldsLog ∧
        (s.protocol.group.poisoned = none → ¬(s.protocol.group.joinGroup.1.phase since).Broken) ∧
        (s.protocol.group.poisoned ≠ none → ¬(s.protocol.group.joinGroup.1.phase since).Leads) := by
      obtain ⟨err, poisoned, joined⟩ | ⟨clear, -, joined⟩ | ⟨clear, -, joined⟩ :=
        s.protocol.group.joinGroup_cases <;> simp [*, Joined.phase]
    obtain ⟨unlocked, sound, follows⟩ := phase
    refine inv.turn moved (by simp) (by simpa using unlocked) (by simp [appended]) ?_ ?_
      (by simpa using follows)
    · intro clear _
      simpa [clear] using sound clear
    · intro w' cleans noFailures
      have clear := safe.resolve_right (by simp [(inv.cleansUp cleans).2])
      simpa [noFailures] using sound clear

theorem Inv.wake (safe : s.Safe tx (.wake w)) (step : s.next tx (.wake w) = some s') :
    Inv tx floor s' := by
  obtain ⟨p, moved, rfl⟩ := map_eq_some_iff.mp step
  cases effect_of_next moved with
  | @wake _ since needed waiting =>
    -- A waiter gets an error from its epoch or from the poison, and leads only without one.
    have phase : ¬((s.protocol.group.wake needed).1.phase since).HoldsLog ∧
      (s.protocol.group.failures needed = none →
          needed ≤ s.protocol.group.completedEpoch ∨ s.protocol.group.poisoned = none →
          ¬((s.protocol.group.wake needed).1.phase since).Broken) ∧
        (s.protocol.group.poisoned ≠ none →
        ¬((s.protocol.group.wake needed).1.phase since).Leads) := by
      obtain ⟨err, ⟨done, cause⟩ | ⟨pending, cause⟩, woken⟩ | ⟨-, -, woken⟩ | ⟨-, clear, -, woken⟩ |
        ⟨-, -, -, woken⟩ := s.protocol.group.wake_cases needed <;> simp [*, Joined.phase]
    obtain ⟨unlocked, sound, follows⟩ := phase
    refine inv.turn moved (by simp) (by simpa using unlocked) (by simp [waiting]) ?_ ?_
      (by simpa using follows)
    · intro clear _
      simpa [clear] using sound ((inv.published clear).1 needed) (.inr clear)
    · intro w' cleans noFailures
      have published : needed ≤ s.protocol.group.completedEpoch ∨
          s.protocol.group.poisoned = none := by
        simpa [Safe, waiting, Phase.settled, (inv.cleansUp cleans).2] using safe
      exact ⟨fun epoch => GroupState.failures_wake_eq_none (noFailures epoch), by
        simpa using sound (noFailures needed) published⟩

theorem Inv.poison (step : s.next tx (.poison w) = some s') : Inv tx floor s' := by
  obtain ⟨p, moved, rfl⟩ := map_eq_some_iff.mp step
  obtain ⟨durable, pending, logged, stage⟩ := inv.log
  cases effect_of_next moved with
  | @poison _ since epoch err failing =>
    refine inv.step moved rfl rfl rfl (by simp) ?_ ⟨durable, pending, logged.step moved rfl rfl, ?_⟩
    · exact forall_phase_next moved (P := fun w p => p.HoldsLog → s.walLock = some w)
        (fun _ => inv.lock w (by simp [failing])) fun w' _ => inv.lock w'
    · cases stage with
      | healthy clear sound => exact absurd (by simp [failing]) (sound w)
      | failing w' since' epoch' err' leader clear none_failed settled =>
        refine .failing w since epoch err (.inr ⟨update_self .., some_ne_none _⟩) clear ?_
          (settled_step settled inv.protocol moved rfl)
        exact forall_phase_next moved (P := fun _ p => ∀ err, p ≠ .failed err) (by simp) fun w' _ =>
          none_failed w'
      | discarded poisoned gone synced settled leaders =>
        obtain ⟨_, _, _, h⟩ := leaders w (by simp [failing])
        simp [failing] at h

theorem Inv.markSynced (step : s.next tx (.markSynced w) = some s') : Inv tx floor s' := by
  obtain ⟨p, moved, rfl⟩ := map_eq_some_iff.mp step
  obtain ⟨since, epoch, failure, synced, unlocked, follows, calm⟩ : ∃ since epoch failure,
      s.protocol.phase w = .synced since epoch failure ∧ ¬(p.phase w).HoldsLog ∧
      ¬(p.phase w).Leads ∧
      (failure = none → p.group.poisoned = s.protocol.group.poisoned ∧ ¬(p.phase w).Broken) := by
    cases effect_of_next moved with
    | acknowledge synced => exact ⟨_, _, _, synced, by simp [GroupState.completeSync]⟩
    | report synced => exact ⟨_, _, _, synced, by simp⟩
  refine inv.turn moved (by simp) unlocked (by simp [synced]) ?_ ?_ fun _ => follows
  · intro clear sound
    cases failure with
    | none => exact ⟨(calm rfl).1.trans clear, (calm rfl).2⟩
    | some err => exact absurd (by simp [synced]) (sound w)
  · intro w' cleans _
    -- The failing writer is the only leader.
    obtain rfl := inv.protocol.oneLeader w w' (by simp [synced]) (inv.cleansUp cleans).1
    simp [synced] at cleans

theorem Inv.beginSync (step : s.next tx (.beginSync w) = some s') : Inv tx floor s' := by
  simp only [next] at step
  split at step <;> cases step
  next p free moved =>
    obtain ⟨durable, pending, logged, stage⟩ := inv.log
    cases effect_of_next moved with
    | beginSync leading =>
      refine inv.step moved rfl rfl rfl (by simp) ?_ ⟨durable, pending, logged.step moved rfl rfl,
        stage.step inv moved rfl rfl (by simp [leading]) ?_ ?_ ?_⟩
      · refine forall_phase_next moved (P := fun w' p => p.HoldsLog → some w = some w')
          (fun _ => rfl) fun w' _ holds => ?_
        have held := inv.lock w' holds
        simp [free] at held
      · intro clear _
        simp [clear]
      · intro w' cleans _
        have held := (inv.cleansUp cleans).2
        simp [free] at held
      · intro _ leaders
        obtain ⟨_, _, _, h⟩ := leaders w (by simp [leading])
        simp [leading] at h

theorem Inv.append (step : s.next tx (.append w) = some s') : Inv tx floor s' := by
  simp only [next] at step
  split at step
  next seq offset p written free moved =>
    obtain ⟨durable, pending, logged, stage⟩ := inv.log
    have noLeader : ∀ w', ¬(s.protocol.phase w').CleansUp := by
      intro w' cleans
      simpa [free] using (inv.cleansUp cleans).2
    cases effect_of_next moved with
    | refuse idle poisoned =>
      obtain ⟨err, poison⟩ := ne_none_iff_exists'.mp poisoned
      rw [poison] at step
      cases step
      exact inv.turn moved (fun _ _ => free) (by simp) (noLeader _) (absurd · poisoned)
        (fun w' cleans => absurd cleans (noLeader w')) (by simp)
    | append idle clear =>
      rw [clear] at step
      cases step
      set b := (tx w).logBatch seq offset with hb
      have batch : s.batchOf tx w = some b := by simp [batchOf, written, Progress.range, hb]
      refine inv.step moved rfl rfl rfl (fun _ _ => free) (inv.lock_next moved (by simp))
        ⟨durable, pending ++ [b], ⟨?_, ?_, ?_, ?_⟩, ?_⟩
      · simp [walAppend, appendBatchNosync, logged.data]
      · exact logged.durableOffset
      · simp [walAppend, appendBatchNosync, logged.undurable]
      · intro b' member
        rw [← append_assoc] at member
        obtain old | new := mem_append.mp member
        · exact logged.known_next moved old
        · rw [mem_singleton.mp new]
          have keys := inv.ranges.keys w (seq, offset) (by simp [written, Progress.range])
          exact ⟨WriteBatch.keysFit_logBatch keys _ _, .inr ⟨w, batch, by simp⟩⟩
      · cases stage with
        | healthy clear sound covered =>
          have sound' := forall_phase_next moved (P := fun _ p => ¬p.Broken) (by simp) fun w' _ =>
            sound w'
          exact .healthy clear sound' fun b member => (covered b member).imp (fun _ _ => id)
            fun w' ok => ok.next inv.protocol moved (sound' w')
        | failing w' _ _ _ leader => exact absurd (.of_leader leader) (noLeader w')
        | discarded poisoned => exact absurd clear poisoned
  next => cases step

omit [DecidableEq ι] in
/-- Before a failure is published, a writer that waits for a published epoch is settled. -/
theorem Inv.settled (clear : s.protocol.group.poisoned = none)
    (settled : (s.protocol.phase w).settled s.protocol.group.completedEpoch) :
    s.protocol.Settled w := by
  obtain ⟨noFailures, succeeded⟩ := inv.published clear
  have ok := inv.protocol.phases w
  cases phase : s.protocol.phase w with
  | acked since epoch => exact .inl ⟨since, epoch, phase⟩
  | waiting since needed =>
    rw [phase] at settled ok
    have published : needed ≤ s.protocol.group.completedEpoch := of_decide_eq_true settled
    obtain ⟨⟨start, failure⟩, synced⟩ :=
      ne_none_iff_exists'.mp (inv.protocol.recorded needed ok.2.1 published)
    cases failure with
    | none => exact .inr ⟨since, needed, start, phase, published, synced, noFailures needed⟩
    | some err => exact absurd synced (succeeded needed published start err)
  | _ => simp [phase, Phase.settled] at settled

theorem Inv.endSync {outcome : SyncOutcome}
    (safe : s.Safe tx (.endSync w outcome)) (step : s.next tx (.endSync w outcome) = some s') :
    Inv tx floor s' := by
  obtain ⟨p, moved, rfl⟩ := map_eq_some_iff.mp step
  obtain ⟨since, epoch, start, syncing, group, recorded, ended⟩ : ∃ since epoch start,
      s.protocol.phase w = .syncing since epoch start ∧ p.group = s.protocol.group ∧
      p.syncs epoch = some (start, outcome.failure) ∧
      (outcome.failure = none ∧ p.phase w = .synced since epoch none ∨
        ∃ err, outcome.failure = some err ∧ p.phase w = .failing since epoch err) := by
    generalize outcome.failure = failure at moved
    cases effect_of_next moved with
    | succeed syncing => exact ⟨_, _, _, syncing, rfl, update_self .., .inl ⟨rfl, update_self ..⟩⟩
    | fail syncing => exact ⟨_, _, _, syncing, rfl, update_self .., .inr ⟨_, rfl, update_self ..⟩⟩
  obtain ⟨durable, pending, logged, stage⟩ := inv.log
  have leads : (s.protocol.phase w).Leads := by simp [syncing]
  have held : s.walLock = some w := inv.lock w (by simp [syncing])
  -- A sync is in flight, so nothing has failed yet.
  obtain ⟨clear, sound, covered⟩ : s.protocol.group.poisoned = none ∧
      (∀ w, ¬(s.protocol.phase w).Broken) ∧ ∀ b ∈ durable,
      Owned tx floor s s.protocol.Covered b := by
    cases stage with
    | healthy clear sound covered => exact ⟨clear, sound, covered⟩
    | failing w' _ _ _ leader =>
      have cleans := Phase.CleansUp.of_leader leader
      obtain rfl := inv.protocol.oneLeader w w' leads (inv.cleansUp cleans).1
      simp [syncing] at cleans
    | discarded _ _ _ _ leaders =>
      obtain ⟨_, _, _, h⟩ := leaders w leads
      simp [syncing] at h
  obtain ⟨ok, phase⟩ | ⟨err, failed, phase⟩ := ended
  · obtain rfl : outcome = .ok := by
      cases outcome <;> simp_all [SyncOutcome.failure]
    have sound' := forall_phase_next moved (P := fun _ p => ¬p.Broken) (by simp [phase]) fun w' _ =>
      sound w'
    refine inv.step moved rfl rfl rfl (by simp) ?_
      ⟨durable ++ pending, [], ⟨?_, ?_, rfl, ?_⟩,
      .healthy (group ▸ clear) sound' fun b member => ?_⟩
    · refine forall_phase_next moved (P := fun w p => p.HoldsLog → none = some w) (by simp [phase])
        fun w' other holds => ?_
      exact absurd (Option.some.inj (held.symm.trans (inv.lock w' holds))).symm other
    · rw [append_nil]
      exact logged.data
    · show s.engine.files.wal.durableOffset + s.engine.files.wal.pending = _
      rw [logged.durableOffset, logged.undurable, frames_append, length_append]
    · exact fun b member => logged.known_next moved (append_nil (durable ++ pending) ▸ member)
    · -- Every append came before the start of this fsync.
      refine (logged.known b member).2.imp (fun _ _ => id) fun w' busy => ?_
      obtain ⟨t, appended⟩ := Phase.isSome_since? busy (sound w')
      refine ⟨t, (since?_next moved busy (sound' w')).trans appended, epoch, ?_, (start, none),
        recorded, rfl, (inv.ordered w' t appended).2 w start (by rw [syncing]; rfl)⟩
      have epochs := inv.protocol.epochs
      have current := (inv.protocol.syncing_epoch syncing).1
      simp only [EpochsOk] at epochs
      show epoch ≤ p.group.completedEpoch + 1
      rw [group]
      omega
  · have wal : (syncFiles s.engine outcome).files.wal = s.engine.files.wal := by
      cases outcome with
      | ok => cases failed
      | heapFailed err | walFailed err => rfl
    have settled : ∀ b ∈ durable, Owned tx floor s s.protocol.Settled b := fun b member =>
      (covered b member).imp (fun _ _ => id) fun w' ok =>
        inv.settled clear (safe (by simp [failed]) w' ok)
    refine inv.step moved rfl ?_ ?_ (by simp) ?_ ⟨durable, pending, logged.step moved rfl wal,
      .failing w since epoch err (.inl phase) (group ▸ (inv.published clear).1) ?_
        (settled_step settled inv.protocol moved rfl)⟩
    · cases outcome <;> rfl
    · cases outcome <;> rfl
    · rw [failed]
      exact forall_phase_next moved (P := fun w p => p.HoldsLog → s.walLock = some w) (fun _ =>
        held) fun w' _ => inv.lock w'
    · refine forall_phase_next moved (P := fun _ p => ∀ err, p ≠ .failed err) (by simp [phase])
        fun w' _ err' failed => sound w' ?_
      simp [failed]

theorem Inv.discard {outcome : DiscardOutcome}
    (safe : s.Safe tx (.discard w outcome)) (step : s.next tx (.discard w outcome) = some s') :
    Inv tx floor s' := by
  obtain ⟨p, moved, rfl⟩ := map_eq_some_iff.mp step
  obtain rfl : outcome = .ok := safe
  obtain ⟨since, epoch, err, discarding, group, phase⟩ : ∃ since epoch err,
      s.protocol.phase w = .discarding since epoch err ∧ p.group = s.protocol.group ∧
      p.phase w = .synced since epoch (some err) := by
    cases effect_of_next moved with
    | discard discarding => exact ⟨_, _, _, discarding, rfl, update_self ..⟩
  obtain ⟨durable, pending, logged, stage⟩ := inv.log
  have leads : (s.protocol.phase w).Leads := by simp [discarding]
  have alone : ∀ w', (p.phase w').Leads → w' = w :=
    forall_phase_next moved (P := fun w' p => p.Leads → w' = w) (fun _ => rfl)
      fun w' _ leads' => inv.protocol.oneLeader w' w leads' leads
  obtain ⟨poisoned, settled⟩ : s.protocol.group.poisoned ≠ none ∧
      ∀ b ∈ durable, Owned tx floor s s.protocol.Settled b := by
    cases stage with
    | healthy clear sound => exact absurd (by simp [discarding]) (sound w)
    | failing w' _ _ _ leader _ _ settled =>
      obtain rfl := inv.protocol.oneLeader w w' leads (inv.cleansUp (.of_leader leader)).1
      obtain h | ⟨-, poisoned⟩ := leader
      · simp [discarding] at h
      · exact ⟨poisoned, settled⟩
    | discarded poisoned _ _ settled _ => exact ⟨poisoned, settled⟩
  have kept : s.engine.files.wal.data.take s.engine.files.wal.durableOffset ++
      List.replicate (s.engine.files.wal.durableOffset - s.engine.files.wal.data.length) 0 =
      frames durable := by
    rw [logged.durableOffset, logged.data]
    simp
  refine inv.step moved rfl rfl rfl (by simp) ?_ ⟨durable, [], ⟨?_, logged.durableOffset, rfl, ?_⟩,
    .discarded (group ▸ poisoned) rfl rfl (settled_step settled inv.protocol moved rfl) ?_⟩
  · intro w' holds
    have leads' : (p.phase w').Leads := by
      cases h : p.phase w' <;> simp_all
    obtain rfl := alone w' leads'
    simp [phase] at holds
  · rw [append_nil]
    exact kept
  · intro b member
    rw [append_nil] at member
    exact logged.known_next moved (mem_append_left _ member)
  · intro w' leads'
    obtain rfl := alone w' leads'
    exact ⟨since, epoch, err, phase⟩

omit [DecidableEq ι] in
/-- A step that leaves the protocol and the log alone. -/
theorem Inv.private (protocol : s'.protocol = s.protocol)
    (lock : s'.walLock = s.walLock) (wal : s'.engine.files.wal = s.engine.files.wal)
    (batches : ∀ w b, s.batchOf tx w = some b → s'.batchOf tx w = some b)
    (ranges : Ranges tx floor s'.progress s'.engine.globalSeq)
    (memtable : ∀ v ∈ s'.engine.roots.memtable, Inserted tx floor s'.progress v)
    (inserted : ∀ w seq offset, s'.progress w = .inserted seq offset →
      ∃ since epoch, s.protocol.phase w = .acked since epoch) : Inv tx floor s' where
  protocol := protocol ▸ inv.protocol
  published := protocol ▸ inv.published
  ordered := protocol ▸ inv.ordered
  ranges := ranges
  lock := by
    rw [protocol, lock]
    exact inv.lock
  memtable := memtable
  inserted := protocol ▸ inserted
  log := by
    obtain ⟨durable, pending, logged, stage⟩ := inv.log
    have owned {owner : ι → Prop} (ok : ∀ b ∈ durable, Owned tx floor s owner b) :
        ∀ b ∈ durable, Owned tx floor s' owner b := fun b member => (ok b member).imp batches
        fun _ => id
    refine ⟨durable, pending, ⟨wal ▸ logged.data, wal ▸ logged.durableOffset,
      wal ▸ logged.undurable, fun b member => ?_⟩, ?_⟩
    · exact (logged.known b member).imp_right fun known => known.imp batches
        fun w busy => protocol ▸ busy
    · cases stage with
      | healthy clear sound ok =>
        exact .healthy (protocol ▸ clear) (protocol ▸ sound) (protocol ▸ owned ok)
      | failing w since epoch err leader clear none_failed ok =>
        exact .failing w since epoch err (protocol ▸ leader) (protocol ▸ clear)
          (protocol ▸ none_failed) (protocol ▸ owned ok)
      | discarded poisoned gone synced ok leaders =>
        exact .discarded (protocol ▸ poisoned) gone (wal ▸ synced) (protocol ▸ owned ok)
          (protocol ▸ leaders)

omit [External] inv in
theorem Ranges.reserve (ranges : Ranges tx floor progress seq)
    (offset : ℕ) (start : progress w = .start) (room : seq + ((tx w).opCount + 1) < 2 ^ 64)
    (keys : ∀ op ∈ (tx w).ops, op.1.length ≤ 65535) :
    Ranges tx floor (update progress w (.reserved seq offset)) (seq + ((tx w).opCount + 1)) := by
  have cases : ∀ w' range, (update progress w (.reserved seq offset) w').range = some range →
      w' = w ∧ range = (seq, offset) ∨ w' ≠ w ∧ (progress w').range = some range := by
    intro w' range reserved
    by_cases same : w' = w
    · subst same
      rw [update_self] at reserved
      exact .inl ⟨rfl, (Option.some.inj reserved).symm⟩
    · exact .inr ⟨same, by rwa [update_of_ne same] at reserved⟩
  refine ⟨room, ranges.opened.trans (Nat.le_add_right _ _), fun w' n o reserved => ?_,
    fun w' n o reserved => ?_, fun w' range reserved => ?_, ?_⟩
  · obtain ⟨rfl, same⟩ | ⟨-, old⟩ := cases w' _ reserved
    · obtain ⟨rfl, -⟩ := Prod.mk.inj same
      exact ranges.opened
    · exact ranges.above w' n o old
  · obtain ⟨rfl, same⟩ | ⟨-, old⟩ := cases w' _ reserved
    · obtain ⟨rfl, -⟩ := Prod.mk.inj same
      omega
    · have := ranges.below w' n o old
      omega
  · obtain ⟨rfl, -⟩ | ⟨-, old⟩ := cases w' _ reserved
    · exact keys
    · exact ranges.keys w' range old
  · intro a b n o n' o' distinct ha hb
    obtain ⟨rfl, sameA⟩ | ⟨-, oldA⟩ := cases a _ ha <;>
      obtain ⟨rfl, sameB⟩ | ⟨-, oldB⟩ := cases b _ hb
    · exact absurd rfl distinct
    · obtain ⟨rfl, -⟩ := Prod.mk.inj sameA
      exact .inr (ranges.below b n' o' oldB)
    · obtain ⟨rfl, -⟩ := Prod.mk.inj sameB
      exact .inl (ranges.below a n o oldA)
    · exact ranges.disjoint a b n o n' o' distinct oldA oldB

omit [External] inv in
/-- A writer that moves on keeps its reservation. -/
theorem range_update {p : Progress} (same : p.range = (progress w).range) (w' : ι) :
    (update progress w p w').range = (progress w').range := by
  by_cases h : w' = w
  · subst h
    rw [update_self, same]
  · rw [update_of_ne h]

omit [External] [DecidableEq ι] inv in
theorem Ranges.congr {progress' : ι → Progress} (ranges : Ranges tx floor progress seq)
    (same : ∀ w, (progress' w).range = (progress w).range) : Ranges tx floor progress' seq := by
  obtain ⟨word, opened, above, below, keys, disjoint⟩ := ranges
  constructor
  · exact word
  · exact opened
  · simpa only [same] using above
  · simpa only [same] using below
  · simpa only [same] using keys
  · simpa only [same] using disjoint

omit inv in
/-- A writer that has inserted its batch is not the one that moves. -/
theorem Inserted.update {v : Version} (inserted : Inserted tx floor progress v)
    (before : ∀ n offset, progress w ≠ .inserted n offset) (p : Progress) :
    Inserted tx floor (Function.update progress w p) v := by
  refine inserted.imp_right ?_
  rintro ⟨w', n, offset, old, rest⟩
  refine ⟨w', n, offset, ?_, rest⟩
  rw [update_of_ne, old]
  rintro rfl
  exact before n offset old

theorem Inv.reserve (safe : s.Safe tx (.reserve w)) (step : s.next tx (.reserve w) = some s') :
    Inv tx floor s' := by
  simp only [next] at step
  split at step
  next start =>
    cases step
    have seq : (s.engine.reserve (tx w)).globalSeq = s.engine.globalSeq + ((tx w).opCount + 1) :=
      wrap64_of_lt safe.1
    refine inv.private rfl rfl rfl ?_ ?_ ?_ ?_
    · intro w' b batch
      have other : w' ≠ w := by
        rintro rfl
        simp [batchOf, start, Progress.range] at batch
      simpa [batchOf, setProgress, other] using batch
    · rw [seq]
      exact inv.ranges.reserve _ start safe.1 safe.2
    · exact fun v member => (inv.memtable v member).update (by simp [start]) _
    · intro w' n offset new
      simp only [setProgress, update_apply] at new
      split_ifs at new
      exact inv.inserted w' n offset new
  next => cases step

theorem Inv.heapWrite (step : s.next tx (.heapWrite w) = some s') : Inv tx floor s' := by
  simp only [next] at step
  split at step
  next seq offset reserved =>
    cases step
    have same : ∀ w', (update s.progress w (.written seq offset) w').range =
        (s.progress w').range := range_update (by simp [reserved, Progress.range])
    refine inv.private rfl rfl ?_ ?_ (inv.ranges.congr same) ?_ ?_
    · simp [heapWrite_eq]
    · intro w' b batch
      simpa [batchOf, setProgress, same] using batch
    · exact fun v member => (inv.memtable v member).update (by simp [reserved]) _
    · intro w' n offset' new
      simp only [setProgress, update_apply] at new
      split_ifs at new
      exact inv.inserted w' n offset' new
  next => cases step

theorem Inv.insert (step : s.next tx (.insert w) = some s') : Inv tx floor s' := by
  simp only [next] at step
  split at step
  next seq offset since epoch written acked =>
    cases step
    have same : ∀ w', (update s.progress w (.inserted seq offset) w').range =
        (s.progress w').range := range_update (by simp [written, Progress.range])
    refine inv.private rfl rfl rfl ?_ (inv.ranges.congr same) ?_ ?_
    · intro w' b batch
      simpa [batchOf, setProgress, same] using batch
    · intro v member
      obtain old | ⟨r, hr, rfl⟩ := Memtable.mem_of_mem_insertAll member
      · exact (inv.memtable v old).update (by simp [written]) _
      · rw [filter_all] at hr
        exact .inr ⟨w, seq, offset, update_self .., r, (mem_filter.mp hr).1, rfl⟩
    · intro w' n offset' new
      simp only [setProgress, update_apply] at new
      split_ifs at new with h
      · exact ⟨since, epoch, h ▸ acked⟩
      · exact inv.inserted w' n offset' new
  next => cases step

theorem Inv.next {action : CommitAction ι} (safe : s.Safe tx action)
    (step : s.next tx action = some s') : Inv tx floor s' := by
  cases action with
  | reserve w => exact inv.reserve safe step
  | heapWrite w => exact inv.heapWrite step
  | append w => exact inv.append step
  | join w => exact inv.join safe step
  | wake w => exact inv.wake safe step
  | beginSync w => exact inv.beginSync step
  | endSync w outcome => exact inv.endSync safe step
  | poison w => exact inv.poison step
  | discard w outcome => exact inv.discard safe step
  | markSynced w => exact inv.markSynced step
  | insert w => exact inv.insert step

omit inv

section

omit [DecidableEq ι]

/-- The records of a writer have the sequence numbers that it has reserved. -/
theorem Ranges.seq_mem {n : ℕ} (ranges : Ranges tx floor progress n) {offset : ℕ}
    (range : (progress w).range = some (seq, offset)) {r : OmniRecord}
    (member : r ∈ ((tx w).logBatch seq offset).records) :
    seq ≤ r.seq ∧ r.seq < seq + (tx w).opCount := by
  have below := ranges.below w seq offset range
  have word := ranges.word
  have seqs : (((tx w).logBatch seq offset).records).map OmniRecord.seq =
      List.range' seq (tx w).opCount := WriteBatch.seq_userRecords (by omega)
  have listed : r.seq ∈ List.range' seq (tx w).opCount := seqs ▸ mem_map_of_mem member
  simpa [mem_range'_1] using listed

/-- No two writers have a record with the same sequence number. -/
theorem Ranges.eq_of_seq_eq {n : ℕ} (ranges : Ranges tx floor progress n)
    {w' : ι} {offset seq' offset' : ℕ} (range : (progress w).range = some (seq, offset))
    (range' : (progress w').range = some (seq', offset')) {r r' : OmniRecord}
    (member : r ∈ ((tx w).logBatch seq offset).records)
    (member' : r' ∈ ((tx w').logBatch seq' offset').records) (same : r.seq = r'.seq) : w = w' := by
  by_contra distinct
  have here := ranges.seq_mem range member
  have there := ranges.seq_mem range' member'
  have := ranges.disjoint w w' seq offset seq' offset' distinct range range'
  omega

theorem batchOf_eq_some {b : LogBatch} (batch : s.batchOf tx w = some b) :
    ∃ seq offset, (s.progress w).range = some (seq, offset) ∧ b = (tx w).logBatch seq offset := by
  obtain ⟨⟨seq, offset⟩, range, rfl⟩ := map_eq_some_iff.mp batch
  exact ⟨seq, offset, range, rfl⟩

/-- What the invariant says about a writer that got an error. -/
theorem Inv.absent_of_failed (inv : Inv tx floor s) {err : OmniError} {b : LogBatch}
    (failed : s.protocol.phase w = .failed err) (batch : s.batchOf tx w = some b) {r : OmniRecord}
    (member : r ∈ b.records) : r.version ∉ s.engine.roots.memtable ∧
      ∀ file, s.engine.files.wal.Survives file → r ∉ replay file := by
  obtain ⟨seq, offset, range, rfl⟩ := batchOf_eq_some batch
  have new : floor ≤ r.seq := (inv.ranges.above w seq offset range).trans
    (inv.ranges.seq_mem range member).1
  constructor
  · intro readable
    obtain old | ⟨w', seq', offset', inserted, r', member', same⟩ := inv.memtable _ readable
    · exact absurd old (not_lt.mpr new)
    obtain rfl := inv.ranges.eq_of_seq_eq range (by simp [inserted, Progress.range]) member member'
      (congrArg Version.seq same).symm
    obtain ⟨since, epoch, acked⟩ := inv.inserted w seq' offset' inserted
    simp [failed] at acked
  · intro file survives replayed
    obtain ⟨durable, pending, logged, stage⟩ := inv.log
    cases stage with
    | healthy clear sound => exact sound w (by simp [failed])
    | failing _ _ _ _ _ _ none_failed _ => exact none_failed w err failed
    | discarded poisoned gone synced settled leaders =>
      -- Only the durable batches are left, and each belongs to another writer.
      subst gone
      rw [survives.eq_data synced, logged.data, append_nil,
        replay_logBatches fun b hb => (logged.known b (by simpa using hb)).1] at replayed
      obtain ⟨b', inLog, member'⟩ := mem_flatMap.mp replayed
      obtain old | ⟨w', batch', ok⟩ := settled b' inLog
      · exact absurd (old r member') (not_lt.mpr new)
      · obtain ⟨seq', offset', range', rfl⟩ := batchOf_eq_some batch'
        obtain rfl := inv.ranges.eq_of_seq_eq range range' member member' rfl
        obtain ⟨_, _, h⟩ | ⟨_, _, _, h, -⟩ := ok <;> simp [failed] at h

end

omit [External] [DecidableEq ι] in
theorem roots_syncFiles (e : Engine) (outcome : SyncOutcome) :
    (syncFiles e outcome).roots = e.roots := by
  cases outcome <;> rfl

theorem tables_next {action : CommitAction ι} (step : s.next tx action = some s') (m : Memtable) :
    { s'.engine.roots with memtable := m } = { s.engine.roots with memtable := m } := by
  cases action with
  | reserve w | heapWrite w | beginSync w | insert w =>
    simp only [next] at step
    split at step
    · cases step; rfl
    · cases step
  | append w =>
    simp only [next] at step
    split at step
    · split at step <;> cases step <;> rfl
    · cases step
  | endSync w outcome =>
    obtain ⟨p, -, rfl⟩ := map_eq_some_iff.mp step
    rw [roots_syncFiles]
  | join w | wake w | poison w | discard w | markSynced w =>
    obtain ⟨p, -, rfl⟩ := map_eq_some_iff.mp step
    rfl

/-- In any interleaving of safe steps on an opened database no record of a failed commit is in the
memtable, nor does it come back from the log. -/
theorem failed_batch_absent {d : Disk} {e : Engine} (opened : openDb d = .ok e) (wf : e.WellFormed)
    (run : Relation.ReflTransGen (Run.SafeStep (Safe tx) (next tx)) (initial e) s)
    {w : ι} {err : OmniError} {b : LogBatch} (failed : s.protocol.phase w = .failed err)
    (batch : s.batchOf tx w = some b) {r : OmniRecord} (member : r ∈ b.records) :
    r.version ∉ s.engine.roots.memtable ∧
      { s.engine.roots with memtable := e.roots.memtable } = e.roots ∧
      ∀ file, s.engine.files.wal.Survives file → r ∉ replay file := by
  have reached := Run.invariant
      (I := fun s => Inv tx e.globalSeq s ∧ { s.engine.roots with memtable := e.roots.memtable } =
      e.roots) run
      ⟨inv_initial opened wf, rfl⟩ fun inv safe step =>
        ⟨inv.1.next safe step, (tables_next step _).trans inv.2⟩
  obtain ⟨unread, unlogged⟩ := reached.1.absent_of_failed failed batch member
  exact ⟨unread, reached.2, unlogged⟩

end

end CommitSystem

section

open scoped Reference
open CommitSystem

def twoWriters : Fin 2 → WriteBatch := fun _ => sampleWrite

def newEngine : Engine := .ofRecovered (recoverFrom .empty .initial)

/-- The first fsync makes both batches durable; the second writer then leads an fsync that fails. -/
def overtakenRun : List (CommitAction (Fin 2)) :=
  [.reserve 0, .heapWrite 0, .append 0, .join 0, .reserve 1, .heapWrite 1, .append 1, .join 1,
    .beginSync 0, .endSync 0 .ok, .markSynced 0, .insert 0, .wake 1, .beginSync 1,
    .endSync 1 (.walFailed (.ioError "WAL fsync")), .poison 1, .discard 1 .ok, .markSynced 1]

/-- The second writer starts after the first one is done. -/
def separateRun : List (CommitAction (Fin 2)) :=
  [.reserve 0, .heapWrite 0, .append 0, .join 0, .beginSync 0, .endSync 0 .ok, .markSynced 0,
    .insert 0, .reserve 1, .heapWrite 1, .append 1, .join 1, .beginSync 1,
    .endSync 1 (.walFailed (.ioError "WAL fsync")), .poison 1, .discard 1 .ok, .markSynced 1]

/-- The writer got an error. -/
def Phase.isFailed : Phase → Bool
  | .failed _ => true
  | _ => false

/-- The second writer gets an error, and its record comes back when the log is replayed. -/
theorem failed_batch_replayed : openDb .empty = .ok newEngine ∧ ∃ s : CommitSystem (Fin 2),
        Relation.ReflTransGen (Run.Step (next twoWriters)) (initial newEngine) s ∧
        (s.protocol.phase 1).isFailed ∧
        ∃ b, s.batchOf twoWriters 1 = some b ∧ ∃ r ∈ b.records,
        r ∈ replay s.engine.files.wal.data :=
  ⟨rfl, _, Run.step_get overtakenRun (by decide +kernel), by decide +kernel, by decide +kernel⟩

/-- A database with one commit, opened again. -/
def reopened : Engine :=
  .ofRecovered (recoverFrom (newEngine.committed sampleWrite).close
    (newEngine.committed sampleWrite).files.manifest)

/-- An fsync fails after the first writer is acknowledged: the record of the second is gone for
good. -/
theorem failed_batch_absent_separate :
    replay reopened.files.wal.data ≠ [] ∧ ∃ s : CommitSystem (Fin 2),
      Relation.ReflTransGen (Run.SafeStep (Safe twoWriters) (next twoWriters)) (initial reopened)
        s ∧ ∃ err b, s.protocol.phase 1 = .failed err ∧ s.batchOf twoWriters 1 = some b ∧
        b.records ≠ [] ∧ ∀ r ∈ b.records, r.version ∉ s.engine.roots.memtable ∧
          { s.engine.roots with memtable := reopened.roots.memtable } = reopened.roots ∧
          ∀ file, s.engine.files.wal.Survives file → r ∉ replay file := by
  have opened : (newEngine.committed sampleWrite).reopen = .ok reopened :=
    reopen_eq_ok (by decide +kernel)
  have wf : reopened.WellFormed :=
    (wellFormed_initial.committed (by decide +kernel) (by decide +kernel)).reopen
      (by decide +kernel) opened
  have outcome : ∃ s, Run.guarded (Safe twoWriters) (next twoWriters) (initial reopened)
    separateRun = some s ∧
      (s.protocol.phase 1).isFailed ∧ ∃ b, s.batchOf twoWriters 1 = some b ∧ b.records ≠ [] := by
    decide +kernel
  obtain ⟨s, run, failed, b, batch, nonempty⟩ := outcome
  obtain ⟨err, phase⟩ : ∃ err, s.protocol.phase 1 = .failed err := by
    cases h : s.protocol.phase 1 <;> simp [h, Phase.isFailed] at failed ⊢
  have reached := Run.safeStep_of_guarded run
  exact ⟨by decide +kernel, s, reached, err, b, phase, batch, nonempty, fun r member =>
    failed_batch_absent opened wf reached phase batch member⟩

end

end OmniKV
