import Mathlib.Data.List.Sort
import OmniKV.Runtime.Publication

/-!
# Read points

What a reader sees stays fixed as long as no commit still has to insert a version up to its sequence
number. `snapshot` returns the last reserved number when no commit is in flight. Readers outside of
transactions take the counter itself: a commit may be in flight below it.
-/

namespace OmniKV

open Versioned Relation List StorageRoots Publication Engine

theorem Memtable.scan_congr {m m' : Memtable} {a b : Bytes} {s : ℕ}
    (same : ∀ v : Version, a ≤ v.key → v.key ≤ b → v.seq ≤ s → (v ∈ m ↔ v ∈ m')) :
    m.scan a b s = m'.scan a b s := by
  have sorted : ∀ n : Memtable, (n.scan a b s).Pairwise fun v w =>
      slot v.key v.seq < slot w.key w.seq := by
    intro n
    have entries : n.versions.Pairwise fun v w => slot v.key v.seq < slot w.key w.seq :=
      pairwise_map.mpr n.map.sorted
    refine entries.sublist (List.Sublist.trans filter_sublist ?_)
    exact (takeWhile_sublist _).trans (filter_sublist.map _)
  have irrefl : Std.Irrefl fun v w : Version => slot v.key v.seq < slot w.key w.seq :=
    ⟨fun v => lt_irrefl _⟩
  have antisymm : Std.Antisymm fun v w : Version => slot v.key v.seq < slot w.key w.seq :=
    ⟨fun v w less greater => absurd greater less.not_gt⟩
  refine (sorted m).eq_of_mem_iff (sorted m') fun v => ?_
  rw [mem_scan, mem_scan]
  constructor
  · rintro ⟨member, start, stop, visible⟩
    exact ⟨(same v start stop visible).mp member, start, stop, visible⟩
  · rintro ⟨member, start, stop, visible⟩
    exact ⟨(same v start stop visible).mpr member, start, stop, visible⟩

namespace PublishPhase

def Done : PublishPhase → Prop
  | .returned .. | .failed .. => True
  | _ => False

theorem holds_or_done {p : PublishPhase} (reserved : p.range ≠ none) : p.Holds ∨ p.Done := by
  cases p <;> simp_all [range, Holds, Done]

end PublishPhase

namespace Publication

section

variable {ι : Type*} [DecidableEq ι] [External] {tx : ι → WriteBatch} {e : Engine}
  {s t t' : Publication ι} {action : PublishAction ι} {seen : Bytes → ℕ → Prop}

omit [DecidableEq ι] in
theorem Quiet.not_done {b : WriteBatch} {p p' : PublishPhase} (quiet : Quiet b p p') : ¬p.Done := by
  intro done
  cases quiet with
  | fail err may => cases p <;> first | exact may | exact done
  | _ => exact done

/-- Between `s` and `t` nothing has happened to the versions that a reader looks at, nor will it. -/
structure Settled (tx : ι → WriteBatch) (seen : Bytes → ℕ → Prop) (s t : Publication ι) : Prop where
  counter : s.engine.globalSeq ≤ t.engine.globalSeq
  memtable : ∀ v : Version, seen v.key v.seq → (v ∈ t.engine.roots.memtable ↔
    v ∈ s.engine.roots.memtable)
  writers : ∀ w, (s.phase w).Done ∧ t.phase w = s.phase w ∨ ∀ range,
  (t.phase w).range = some range →
      ∀ r ∈ ((tx w).logBatch range.1 range.2).records, ¬seen r.key r.seq

variable (settled : Settled tx seen s t)

include settled

theorem Settled.update {w : ι} {p : PublishPhase}
    (active : ¬(t.phase w).Done) (phase : t'.phase = Function.update t.phase w p)
    (new : ∀ range, p.range = some range →
      ∀ r ∈ ((tx w).logBatch range.1 range.2).records, ¬seen r.key r.seq) (w' : ι) :
    (s.phase w').Done ∧ t'.phase w' = s.phase w' ∨ ∀ range, (t'.phase w').range = some range →
        ∀ r ∈ ((tx w').logBatch range.1 range.2).records, ¬seen r.key r.seq := by
  rw [phase]
  by_cases eq : w' = w
  · subst eq
    rw [Function.update_self]
    exact .inr new
  · rw [Function.update_of_ne eq]
    exact settled.writers w'

/-- One step keeps the reader's versions, if a commit that reserves gets none of them. -/
theorem Settled.next (inv : Inv tx e t) (room : t.Room tx action)
    (fresh : ∀ w, action = .reserve w →
      ∀ r ∈ (t.engine.nextBatch (tx w)).records, ¬seen r.key r.seq)
    (step : t.next tx action = some t') : Settled tx seen s t' := by
  have unseen : ∀ {w}, ¬(t.phase w).Done → ∀ range, (t.phase w).range = some range →
      ∀ r ∈ ((tx w).logBatch range.1 range.2).records, ¬seen r.key r.seq := by
    intro w active
    refine (settled.writers w).resolve_left ?_
    rintro ⟨done, same⟩
    exact active (same ▸ done)
  cases effect_of_next step with
  | none phase roots seq =>
    refine ⟨seq ▸ settled.counter, ?_, ?_⟩
    · rw [roots]
      exact settled.memtable
    · rw [phase]
      exact settled.writers
  | quiet w p quiet phase roots seq =>
    refine ⟨seq ▸ settled.counter, ?_, settled.update quiet.not_done phase ?_⟩
    · rw [roots]
      exact settled.memtable
    · rw [quiet.range_eq]
      exact unseen quiet.not_done
  | reserve w taken entered phase roots seq =>
    have active : ¬(t.phase w).Done := by
      rw [entered]
      exact id
    refine ⟨?_, ?_, settled.update active phase ?_⟩
    · subst taken
      rw [seq, wrap64_of_lt room]
      exact settled.counter.trans (Nat.le_add_right _ _)
    · rw [roots]
      exact settled.memtable
    · rintro range reserved
      cases reserved
      exact fresh w taken
  | insert w seq offset r todo inserting phase roots counter =>
    have active : ¬(t.phase w).Done := by
      rw [inserting]
      exact id
    have reserved : (t.phase w).range = some (seq, offset) := by
      rw [inserting]
      rfl
    have publishing : (t.phase w).publishing = some ((seq, offset), r :: todo) := by
      rw [inserting]
      rfl
    have batch := inv.published.todo publishing r (.head _)
    refine ⟨counter ▸ settled.counter, fun v visible => ?_, settled.update active phase ?_⟩
    · rw [roots, mem_memtableInsert_singleton, ← settled.memtable v visible]
      -- The inserted record is not one that the reader looks at.
      have other : r.key ≠ commitMarkerKey → ¬(v.key = r.key ∧ v.seq = r.seq) := by
        rintro user ⟨key, seq⟩
        exact unseen active _ reserved r (mem_records_of_mem_all batch user) (key ▸ seq ▸ visible)
      constructor
      · rintro (⟨user, rfl⟩ | ⟨-, stored⟩)
        · exact absurd ⟨rfl, rfl⟩ (other user)
        · exact stored
      · exact fun stored => .inr ⟨other, stored⟩
    · exact fun range same => unseen active range (reserved.trans same)

omit [DecidableEq ι] settled in
theorem mem_versions_of_published (published : Published tx e s) {v : Version} :
    v ∈ s.engine.roots.versions ↔ v ∈ s.engine.roots.memtable ∨
      (∃ m ∈ e.roots.frozenMemtables, v ∈ m) ∨ ∃ t ∈ e.roots.tables, v ∈ t.versions := by
  have tables : s.engine.roots.tables = e.roots.tables := by
    rw [published.roots]
    rfl
  have frozen : s.engine.roots.frozenMemtables = e.roots.frozenMemtables := by rw [published.roots]
  rw [mem_versions, tables, ← or_assoc]
  refine or_congr_left ?_
  simp only [mem_memtables, frozen, or_and_right, exists_or, exists_eq_left]

omit settled

theorem settled_of_snapshot {s' : Publication ι} (inv : Inv tx e s) (positive : 0 < e.globalSeq)
    (taken : s.next tx .snapshot = some s')
    (after : ReflTransGen (Run.SafeStep (Room tx) (next tx)) s' t) :
    Inv tx e t ∧ Settled tx (fun _ seq => seq ≤ s.engine.snapshot.2) s t := by
  have counter : s.engine.snapshot.2 + 1 = s.engine.globalSeq := by
    have := inv.reservations.start
    simp only [snapshot]
    omega
  have start : Settled tx (fun _ seq => seq ≤ s.engine.snapshot.2) s s' := by
    simp only [next] at taken
    split_ifs at taken with free
    cases taken
    refine ⟨le_rfl, fun v _ => Iff.rfl, fun w => ?_⟩
    -- No commit holds the lock, so those with a range have returned.
    by_cases reserved : (s.phase w).range = none
    · exact .inr fun range some => absurd some (by simp [reserved])
    · refine .inl ⟨(PublishPhase.holds_or_done reserved).resolve_left fun holds => ?_, rfl⟩
      have := inv.locked w holds
      simp [free] at this
  refine Run.invariant (I := fun t => Inv tx e t ∧ Settled tx _ s t) after
    ⟨inv.next (show s.Room tx .snapshot from trivial) taken, start⟩
    fun {u u' action} kept room step => ?_
  obtain ⟨inv, settled⟩ := kept
  refine ⟨inv.next room step, settled.next inv room (fun w new r member => ?_) step⟩
  subst new
  have room : u.engine.globalSeq + ((tx w).opCount + 1) < 2 ^ 64 := room
  have above := (seq_of_mem_nextBatch (by omega) member).1
  have := settled.counter
  omega

/-- The records of a writer are all at or below the snapshot, and in the memtable by then, or all
above it.
-/
def OneSide (tx : ι → WriteBatch) (s t : Publication ι) (w : ι) : Prop :=
  ∀ range ∈ (t.phase w).range, (∀ r ∈ ((tx w).logBatch range.1 range.2).records,
    r.seq ≤ s.engine.snapshot.2 ∧
      (r.key ≠ commitMarkerKey → r.version ∈ s.engine.roots.memtable)) ∨
    ∀ r ∈ ((tx w).logBatch range.1 range.2).records, s.engine.snapshot.2 < r.seq

instance (tx : ι → WriteBatch) (s t : Publication ι) (w : ι) : Decidable (OneSide tx s t w) := by
  have : ∀ v, Decidable (v ∈ s.engine.roots.memtable) :=
    fun v => inferInstanceAs (Decidable (v ∈ s.engine.roots.memtable.versions))
  unfold OneSide
  infer_instance

/-- Every batch is on one side of a snapshot, unless its commit had failed, and no later step
changes what it shows. -/
theorem snapshot_is_cut {s' : Publication ι} (positive : 0 < e.globalSeq)
    (word : e.globalSeq < 2 ^ 64)
    (before : ReflTransGen (Run.SafeStep (Room tx) (next tx)) (initial e) s)
    (taken : s.next tx .snapshot = some s')
    (after : ReflTransGen (Run.SafeStep (Room tx) (next tx)) s' t) :
    (∀ w, (∀ range err, s.phase w ≠ .failed range err) → OneSide tx s t w) ∧
    ∀ key v, IsNewest t.engine.roots.versions key s.engine.snapshot.2 v ↔
      IsNewest s.engine.roots.versions key s.engine.snapshot.2 v := by
  have inv := inv_of_run word before
  obtain ⟨inv', settled⟩ := settled_of_snapshot inv positive taken after
  constructor
  · intro w succeeds range reserved
    obtain ⟨done, same⟩ | above := settled.writers w
    · left
      intro r member
      rw [same] at reserved
      have below := (inv.reservations.seq_of_mem reserved member).2.1
      refine ⟨Nat.le_sub_one_of_lt below, fun user => ?_⟩
      cases phase : s.phase w with
      | returned seq offset =>
        rw [phase] at reserved
        cases reserved
        have publishing : (s.phase w).publishing = some ((seq, offset), []) := by
          rw [phase]
          rfl
        exact (inv.published.inserted publishing r member user).resolve_left (by simp)
      | failed range err => exact absurd phase (succeeds range err)
      | _ => exact (phase ▸ done).elim
    · exact .inr fun r member => not_le.mp (above range reserved r member)
  · intro key v
    have same : ∀ {v : Version}, v.seq ≤ s.engine.snapshot.2 →
        (v ∈ t.engine.roots.versions ↔ v ∈ s.engine.roots.versions) := by
      intro v visible
      rw [mem_versions_of_published inv.published, mem_versions_of_published inv'.published,
        settled.memtable v visible]
    constructor
    · intro newest
      refine ⟨(same newest.seq_le).mp newest.mem, newest.key_eq, newest.seq_le,
        fun w hw hk hs => ?_⟩
      exact newest.max w ((same hs).mpr hw) hk hs
    · intro newest
      refine ⟨(same newest.seq_le).mpr newest.mem, newest.key_eq, newest.seq_le,
        fun w hw hk hs => ?_⟩
      exact newest.max w ((same hs).mp hw) hk hs

end

section

open Reference

/-- A failed commit has numbers below the next snapshot, but no records. And when the counter wraps,
a later commit gets numbers below an earlier snapshot. -/
theorem snapshot_not_cut : (∃ e s s', openDb .empty = .ok e ∧
      ReflTransGen (Run.Step (next fun _ : Unit => sampleWrite)) (initial e) s ∧
      s.next (fun _ => sampleWrite) .snapshot = some s' ∧ ¬OneSide (fun _ => sampleWrite) s s' ()) ∧
    ∃ e s' t, openDb .empty = .ok e ∧
      (initial { e with globalSeq := 2 ^ 64 - 1 }).next (fun _ => sampleWrite) .snapshot = some s' ∧
      ReflTransGen (Run.Step (next fun _ : Bool => sampleWrite)) s' t ∧
      (∀ range err, t.phase true ≠ .failed range err) ∧
      ¬OneSide (fun _ => sampleWrite) (initial { e with globalSeq := 2 ^ 64 - 1 }) t true := by
  refine ⟨⟨_, _, _, rfl, Run.step_get [.enter (), .reserve (), .fail () .writeStall]
    (by decide +kernel),
      (Option.some_get (by decide +kernel)).symm, by decide +kernel⟩,
    _, _, _, rfl, (Option.some_get (by decide +kernel)).symm,
    Run.step_get [.enter false, .reserve false, .enter true, .reserve true] (by decide +kernel),
    fun range err failed => ?_, by decide +kernel⟩
  cases failed

def commitSteps {ι : Type*} (w : ι) : List (PublishAction ι) :=
  [.enter w, .reserve w, .write w, .sync, .acknowledge w, .insert w, .insert w, .finish w]

/-- A snapshot between two commits, the second of which is still inserting. -/
theorem snapshot_is_cut_between : ∃ e s s' t, openDb .empty = .ok e ∧
      s.next (fun _ : Bool => sampleWrite) .snapshot = some s' ∧
      s.phase false = .returned 1 0 ∧ (t.phase true).Holds ∧
      (∀ w, OneSide (fun _ => sampleWrite) s t w) ∧
      ∀ key v, IsNewest t.engine.roots.versions key s.engine.snapshot.2 v ↔
        IsNewest s.engine.roots.versions key s.engine.snapshot.2 v := by
  have outcome : ∃ e, openDb .empty = .ok e ∧ (0 < e.globalSeq ∧ e.globalSeq < 2 ^ 64) ∧
      ∃ s, Run.guarded (Room fun _ => sampleWrite) (next fun _ : Bool => sampleWrite)
        (initial e) (commitSteps false) = some s ∧ (s.phase false = .returned 1 0 ∧
        s.phase true = .idle) ∧ ∃ s', s.next (fun _ => sampleWrite) .snapshot = some s' ∧
          ∃ t, Run.guarded (Room fun _ => sampleWrite) (next fun _ : Bool => sampleWrite)
            s' ((commitSteps true).take 6) = some t ∧ (t.phase true).Holds := by
    decide +kernel
  obtain ⟨e, start, ⟨positive, word⟩, s, before, ⟨returned, idle⟩, s', taken, t, after, holds⟩ :=
    outcome
  obtain ⟨cut, newest⟩ := snapshot_is_cut positive word (Run.safeStep_of_guarded before) taken
    (Run.safeStep_of_guarded after)
  refine ⟨e, s, s', t, start, taken, returned, holds, fun w => cut w fun range err failed => ?_,
    newest⟩
  cases w with
  | false => exact nomatch returned.symm.trans failed
  | true => exact nomatch idle.symm.trans failed

end

section

variable {ι : Type*} [DecidableEq ι] [External] {tx : ι → WriteBatch} {e : Engine}
  {u t : Publication ι} {a b : Bytes}

def Clear (tx : ι → WriteBatch) (u : Publication ι) (a b : Bytes) : Prop :=
  ∀ w, (u.phase w).Holds → (u.phase w).range ≠ none → ∀ op ∈ (tx w).ops, ¬(a ≤ op.1 ∧ op.1 ≤ b)

/-- A commit that starts at the reader's counter does not begin with a key of the range. -/
def Beyond (tx : ι → WriteBatch) (a b : Bytes) (seq : ℕ) (s : Publication ι) :
    PublishAction ι → Prop
  | .reserve w => s.engine.globalSeq + ((tx w).opCount + 1) < 2 ^ 64 ∧
      (s.engine.globalSeq = seq → ∀ op ∈ (tx w).ops.head?, ¬(a ≤ op.1 ∧ op.1 ≤ b))
  | _ => True

instance (tx : ι → WriteBatch) (a b : Bytes) (seq : ℕ) (s : Publication ι)
    (action : PublishAction ι) : Decidable (s.Beyond tx a b seq action) := by
  rcases action <;> unfold Beyond <;> infer_instance

/-- A reader at `seq` sees the record. -/
def Sees (t : Publication ι) (seq : ℕ) (r : OmniRecord) : Prop :=
  r.version ∈ t.engine.roots.versions ∧ r.seq ≤ seq

/-- A reader of the range at `seq` sees all effects of the writer's batch or none. -/
def AllOrNone (tx : ι → WriteBatch) (t : Publication ι) (a b : Bytes) (seq : ℕ) (w : ι) : Prop :=
  ∀ range ∈ (t.phase w).range, (∀ r ∈ ((tx w).logBatch range.1 range.2).records, a ≤ r.key →
    r.key ≤ b →
      r.key ≠ commitMarkerKey → t.Sees seq r) ∨
    ∀ r ∈ ((tx w).logBatch range.1 range.2).records, a ≤ r.key → r.key ≤ b → ¬t.Sees seq r

instance (tx : ι → WriteBatch) (t : Publication ι) (a b : Bytes) (seq : ℕ) (w : ι) :
    Decidable (AllOrNone tx t a b seq w) := by
  have : ∀ r, Decidable (t.Sees seq r) := fun r => inferInstanceAs (Decidable (_ ∧ _))
  unfold AllOrNone
  infer_instance

omit [DecidableEq ι] in
/-- A failed commit leaves nothing in the store. -/
theorem Inv.not_mem_versions_of_failed (inv : Inv tx e t)
    (below : ∀ v ∈ e.roots.versions, v.seq < e.globalSeq) {w : ι} {range : ℕ × ℕ} {err : OmniError}
    (failed : t.phase w = .failed (some range) err) {r : OmniRecord}
    (member : r ∈ ((tx w).logBatch range.1 range.2).records) :
    r.version ∉ t.engine.roots.versions := by
  have reserved : (t.phase w).range = some range := by
    rw [failed]
    rfl
  have start := (inv.reservations.seq_of_mem reserved member).1
  have old : r.version ∉ e.roots.versions := fun stored => absurd (below _ stored) start.not_gt
  intro stored
  obtain fresh | frozen | table := (mem_versions_of_published inv.published).mp stored
  · obtain initial | ⟨w', range', todo, publishing, r', member', same⟩ :=
      inv.published.origin _ fresh
    · exact old (mem_versions.mpr (.inl ⟨_, mem_memtables.mpr (.inl rfl), initial⟩))
    · have seq : r.seq = r'.seq := (congrArg Version.seq same).symm
      obtain ⟨rfl, -⟩ := inv.reservations.eq_of_seq_eq reserved
        (PublishPhase.range_of_publishing publishing) member member' seq
      rw [failed] at publishing
      cases publishing
  · obtain ⟨m, hm, stored⟩ := frozen
    exact old (mem_versions.mpr (.inl ⟨m, mem_memtables.mpr (.inr hm), stored⟩))
  · exact old (mem_versions.mpr (.inr table))

/-- A run after a reader has taken the counter. -/
theorem settled_of_getSeq (inv : Inv tx e u) (clear : u.Clear tx a b)
    (after : ReflTransGen (Run.SafeStep (Beyond tx a b u.engine.getSeq) (next tx)) u t) :
    Inv tx e t ∧ Settled tx (fun key seq => a ≤ key ∧ key ≤ b ∧ seq ≤ u.engine.getSeq) u t := by
  have start : Settled tx (fun key seq => a ≤ key ∧ key ≤ b ∧ seq ≤ u.engine.getSeq) u u := by
    refine ⟨le_rfl, fun v _ => Iff.rfl, fun w => ?_⟩
    by_cases reserved : (u.phase w).range = none
    · exact .inr fun range some => absurd some (by simp [reserved])
    · obtain holds | done := PublishPhase.holds_or_done reserved
      · refine .inr fun range _ r member seen => ?_
        have key : r.key ∈ (tx w).ops.map Prod.fst :=
          (tx w).key_userRecords range.1 range.2 ▸ mem_map_of_mem member
        obtain ⟨op, hop, same⟩ := mem_map.mp key
        exact clear w holds reserved op hop (same ▸ ⟨seen.1, seen.2.1⟩)
      · exact .inl ⟨done, rfl⟩
  refine Run.invariant (I := fun t => Inv tx e t ∧ Settled tx _ u t) after ⟨inv, start⟩
    fun {s s' action} kept ok step => ?_
  obtain ⟨inv, settled⟩ := kept
  have room : s.Room tx action := by
    cases action with
    | reserve w => exact ok.1
    | _ => trivial
  refine ⟨inv.next room step, settled.next inv room (fun w new r member seen => ?_) step⟩
  subst new
  have room : s.engine.globalSeq + (tx w).opCount < 2 ^ 64 := by
    have := ok.1
    omega
  have above := (seq_of_mem_nextBatch room member).1
  have counter : u.engine.getSeq ≤ s.engine.globalSeq := settled.counter
  -- Only the first record can be as low as the reader's number.
  have first : r.seq = s.engine.globalSeq := le_antisymm (seen.2.2.trans counter) above
  have same : s.engine.globalSeq = u.engine.getSeq :=
    le_antisymm (above.trans seen.2.2) counter
  obtain ⟨op, hop, key⟩ := WriteBatch.key_of_seq_eq room member first
  exact ok.2 same op hop (key ▸ ⟨seen.1, seen.2.1⟩)

/-- If no commit in flight writes to the range and the next one does not begin with one of its keys,
every batch is visible as a whole or not at all. -/
theorem latest_scan_atomic (word : e.globalSeq < 2 ^ 64) (below : ∀ v ∈ e.roots.versions,
    v.seq < e.globalSeq)
    (before : ReflTransGen (Run.SafeStep (Room tx) (next tx)) (initial e) u)
    (clear : u.Clear tx a b)
    (after : ReflTransGen (Run.SafeStep (Beyond tx a b u.engine.getSeq) (next tx)) u t) :
    (∀ w, AllOrNone tx t a b u.engine.getSeq w) ∧
      t.engine.roots.scan a b u.engine.getSeq = u.engine.roots.scan a b u.engine.getSeq := by
  have inv := inv_of_run word before
  obtain ⟨inv', settled⟩ := settled_of_getSeq inv clear after
  constructor
  · intro w range reserved
    obtain ⟨done, same⟩ | above := settled.writers w
    · cases phase : t.phase w with
      | returned seq offset =>
        left
        intro r member start stop user
        rw [same] at reserved
        have bound : r.seq ≤ u.engine.getSeq := (inv.reservations.seq_of_mem reserved member).2.1.le
        obtain rfl : (seq, offset) = range := by
          rw [← same, phase] at reserved
          exact Option.some.inj reserved
        have publishing : (t.phase w).publishing = some ((seq, offset), []) := by
          rw [phase]
          rfl
        have stored := (inv'.published.inserted publishing r member user).resolve_left (by simp)
        exact ⟨(mem_versions_of_published inv'.published).mpr (.inl stored), bound⟩
      | failed range' err =>
        right
        rw [phase] at reserved
        obtain rfl : range' = some range := reserved
        exact fun r member _ _ sees => inv'.not_mem_versions_of_failed below phase member sees.1
      | _ =>
        rw [← same, phase] at done
        exact done.elim
    · exact .inr fun r member start stop sees => above range reserved r member ⟨start, stop, sees.2⟩
  · have memtable := Memtable.scan_congr fun v start stop visible =>
      settled.memtable v ⟨start, stop, visible⟩
    have candidates : t.engine.roots.candidates a b u.engine.getSeq =
        u.engine.roots.candidates a b u.engine.getSeq := by
      simp only [StorageRoots.candidates, memtable]
      rw [inv.published.roots, inv'.published.roots]
      rfl
    rw [StorageRoots.scan, StorageRoots.scan, candidates]

end

section

open Reference

/-- The range that holds the keys of `samplePair`. -/
def sampleRange : Bytes × Bytes := (Bytes.ofString "k1", Bytes.ofString "k2")

/-- The first record of a commit of two keys gets the reader's number: the reader sees one of them.
-/
theorem latest_scan_torn : ∃ e t, openDb .empty = .ok e ∧
      ReflTransGen (Run.Step (next fun _ : Unit => samplePair)) (initial e) t ∧
      ¬AllOrNone (fun _ => samplePair) t sampleRange.1 sampleRange.2 e.getSeq () ∧
      t.engine.roots.scan sampleRange.1 sampleRange.2 e.getSeq ≠
        e.roots.scan sampleRange.1 sampleRange.2 e.getSeq := by
  have outcome : ∃ e, openDb .empty = .ok e ∧
      ∃ t, [.enter (), .reserve (), .write (), .sync, .acknowledge (), .insert (),
      .insert ()].foldlM
        (next fun _ : Unit => samplePair) (initial e) = some t ∧
          ¬AllOrNone (fun _ => samplePair) t sampleRange.1 sampleRange.2 e.getSeq () ∧
            (t.engine.roots.candidates sampleRange.1 sampleRange.2 e.getSeq).length = 1 ∧
            e.roots.candidates sampleRange.1 sampleRange.2 e.getSeq = [] := by
    decide +kernel
  obtain ⟨e, start, t, run, torn, one, none⟩ := outcome
  refine ⟨e, t, start, Run.step_of_foldlM run, torn, ?_⟩
  obtain ⟨v, single⟩ := length_eq_one_iff.mp one
  rw [StorageRoots.scan, StorageRoots.scan, single, none, mergeSort_nil]
  simp [dedupByKey, dedupFrom]

/-- One writer for `samplePair` and one for `sampleWrite`. -/
def sampleWriters (w : Bool) : WriteBatch := bif w then samplePair else sampleWrite

/-- A reader after the commit of two keys, with a commit of another key running. -/
theorem latest_scan_atomic_whole : ∃ (e : Engine) (u t : Publication Bool), openDb .empty = .ok e ∧
      u.phase true = .returned 1 0 ∧ (t.phase false).Holds ∧
      (∀ w, AllOrNone sampleWriters t sampleRange.1 sampleRange.2 u.engine.getSeq w) ∧
      t.engine.roots.scan sampleRange.1 sampleRange.2 u.engine.getSeq =
        u.engine.roots.scan sampleRange.1 sampleRange.2 u.engine.getSeq := by
  have outcome : ∃ e, openDb .empty = .ok e ∧
      (e.globalSeq < 2 ^ 64 ∧ ∀ v ∈ e.roots.versionList, v.seq < e.globalSeq) ∧
      ∃ u, Run.guarded (Room sampleWriters) (next sampleWriters) (initial e)
        [.enter true, .reserve true, .write true, .sync, .acknowledge true, .insert true,
        .insert true,
          .insert true, .finish true] = some u ∧ (u.phase true = .returned 1 0 ∧
          u.phase false = .idle) ∧
        ∃ t, Run.guarded (Beyond sampleWriters sampleRange.1 sampleRange.2 u.engine.getSeq)
          (next sampleWriters) u ((commitSteps false).take 6) = some t ∧ (t.phase false).Holds := by
    decide +kernel
  obtain ⟨e, start, ⟨word, below⟩, u, before, ⟨returned, idle⟩, t, after, holds⟩ := outcome
  have clear : u.Clear sampleWriters sampleRange.1 sampleRange.2 := by
    intro w holds
    cases w with
    | false => exact (idle ▸ holds).elim
    | true => exact (returned ▸ holds).elim
  have below : ∀ v ∈ e.roots.versions, v.seq < e.globalSeq :=
    fun v stored => below v (mem_versionList.mpr stored)
  exact ⟨e, u, t, start, returned, holds,
    latest_scan_atomic word below (Run.safeStep_of_guarded before) clear
    (Run.safeStep_of_guarded after)⟩

end

end Publication

end OmniKV
