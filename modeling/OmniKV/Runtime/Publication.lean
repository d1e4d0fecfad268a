import Mathlib.Data.Finset.Insert
import OmniKV.Data.Run
import OmniKV.Storage.Tiers
import OmniKV.Storage.Commit

/-!
# Publication of commits

A commit holds the shared side of the transition lock from before it reserves its sequence numbers
until its last record is in the memtable; choosing a read point takes the exclusive side.
-/

namespace OmniKV

open Versioned Relation Function

/-- How far a commit is. The sequence number and the offset are those it reserved. -/
inductive PublishPhase
  | idle
  | entered
  | reserved (seq offset : ℕ)
  | logged (seq offset : ℕ)
  | inserting (seq offset : ℕ) (todo : List OmniRecord)
  | returned (seq offset : ℕ)
  | failed (range : Option (ℕ × ℕ)) (err : OmniError)
deriving DecidableEq

namespace PublishPhase

def range : PublishPhase → Option (ℕ × ℕ)
  | .idle | .entered => none
  | .reserved seq offset | .logged seq offset | .inserting seq offset _ | .returned seq offset =>
    some (seq, offset)
  | .failed range _ => range

/-- The commit holds the shared side of the transition lock. -/
def Holds : PublishPhase → Prop
  | .entered | .reserved .. | .logged .. | .inserting .. => True
  | _ => False

instance : DecidablePred Holds := fun p => by
  cases p <;> unfold Holds <;> infer_instance

/-- An error may end the commit here. -/
def MayFail : PublishPhase → Prop
  | .entered | .reserved .. | .logged .. => True
  | _ => False

instance : DecidablePred MayFail := fun p => by
  cases p <;> unfold MayFail <;> infer_instance

/-- A commit that inserts its records: what it reserved, and the records still to come. -/
def publishing : PublishPhase → Option ((ℕ × ℕ) × List OmniRecord)
  | .inserting seq offset todo => some ((seq, offset), todo)
  | .returned seq offset => some ((seq, offset), [])
  | _ => none

theorem range_of_publishing {p : PublishPhase} {range : ℕ × ℕ} {todo : List OmniRecord}
    (publishing : p.publishing = some (range, todo)) : p.range = some range := by
  cases p <;> simp_all [PublishPhase.publishing, PublishPhase.range]

end PublishPhase

structure Publication (ι : Type*) where
  engine : Engine
  phase : ι → PublishPhase
  /-- The holders of the shared side of the transition lock. -/
  readers : Finset ι

/-- The steps of the commits and of `snapshot`. -/
inductive PublishAction (ι : Type*)
  | enter (w : ι)
  | reserve (w : ι)
  | write (w : ι)
  | sync
  | acknowledge (w : ι)
  | insert (w : ι)
  | finish (w : ι)
  | fail (w : ι) (err : OmniError)
  | snapshot

namespace Publication

variable {ι : Type*} [DecidableEq ι]

def initial (e : Engine) : Publication ι := ⟨e, fun _ => .idle, ∅⟩

def setPhase (s : Publication ι) (w : ι) (p : PublishPhase) : Publication ι :=
  { s with phase := update s.phase w p }

/-- Return from the commit and let go of the transition lock. -/
def leave (s : Publication ι) (w : ι) (p : PublishPhase) : Publication ι :=
  { s.setPhase w p with readers := s.readers.erase w }

variable [External]

/-- What an action does, if it is possible. A writer goes on when its group is synced. -/
def next (tx : ι → WriteBatch) (s : Publication ι) : PublishAction ι → Option (Publication ι)
  | .enter w =>
    match s.phase w with
    | .idle => some { s.setPhase w .entered with readers := insert w s.readers }
    | _ => none
  | .reserve w =>
    match s.phase w with
    | .entered =>
      if s.engine.roots.sstables.length ≥ s.engine.l0WriteStallThreshold then
        some (s.leave w (.failed none .writeStall))
      else
        some { s.setPhase w (.reserved s.engine.globalSeq s.engine.heapOffset) with
          engine := s.engine.reserve (tx w) }
    | _ => none
  | .write w =>
    match s.phase w with
    | .reserved seq offset => some { s.setPhase w (.logged seq offset) with
        engine := (s.engine.heapWrite (wrap64 offset) ((tx w).prepped.map (·.bytes))).walAppend
          ((tx w).logBatch seq offset).all }
    | _ => none
  | .sync => some { s with engine := s.engine.syncGroupCommitFiles }
  | .acknowledge w =>
    match s.phase w with
    | .logged seq offset =>
      some (s.setPhase w (.inserting seq offset ((tx w).logBatch seq offset).all))
    | _ => none
  | .insert w =>
    match s.phase w with
    | .inserting seq offset (r :: todo) => some { s.setPhase w (.inserting seq offset todo) with
        engine := s.engine.memtableInsert [r] }
    | _ => none
  | .finish w =>
    match s.phase w with
    | .inserting seq offset [] => some (s.leave w (.returned seq offset))
    | _ => none
  | .fail w err =>
    if (s.phase w).MayFail then some (s.leave w (.failed (s.phase w).range err)) else none
  | .snapshot => if s.readers = ∅ then some { s with engine := s.engine.snapshot.1 } else none

/-- The 64-bit sequence counter does not overflow. -/
def Room (tx : ι → WriteBatch) (s : Publication ι) : PublishAction ι → Prop
  | .reserve w => s.engine.globalSeq + ((tx w).opCount + 1) < 2 ^ 64
  | _ => True

instance (tx : ι → WriteBatch) (s : Publication ι) (action : PublishAction ι) :
    Decidable (s.Room tx action) := by
  rcases action <;> unfold Room <;> infer_instance

/-- Steps of a commit that touch neither the counter nor the memtable. -/
inductive Quiet (tx : WriteBatch) : PublishPhase → PublishPhase → Prop
  | enter : Quiet tx .idle .entered
  | write (seq offset : ℕ) : Quiet tx (.reserved seq offset) (.logged seq offset)
  | acknowledge (seq offset : ℕ) :
      Quiet tx (.logged seq offset) (.inserting seq offset (tx.logBatch seq offset).all)
  | finish (seq offset : ℕ) : Quiet tx (.inserting seq offset []) (.returned seq offset)
  | fail {p : PublishPhase} (err : OmniError) (may : p.MayFail) : Quiet tx p (.failed p.range err)

inductive Effect (tx : ι → WriteBatch) (s : Publication ι) (action : PublishAction ι)
    (s' : Publication ι) : Prop
  | none (phase : s'.phase = s.phase) (roots : s'.engine.roots = s.engine.roots)
      (seq : s'.engine.globalSeq = s.engine.globalSeq)
  | quiet (w : ι) (p : PublishPhase) (step : Quiet (tx w) (s.phase w) p)
      (phase : s'.phase = update s.phase w p) (roots : s'.engine.roots = s.engine.roots)
      (seq : s'.engine.globalSeq = s.engine.globalSeq)
  | reserve (w : ι) (taken : action = .reserve w) (entered : s.phase w = .entered)
      (phase : s'.phase = update s.phase w (.reserved s.engine.globalSeq s.engine.heapOffset))
      (roots : s'.engine.roots = s.engine.roots)
      (seq : s'.engine.globalSeq = wrap64 (s.engine.globalSeq + ((tx w).opCount + 1)))
  | insert (w : ι) (seq offset : ℕ) (r : OmniRecord) (todo : List OmniRecord)
      (inserting : s.phase w = .inserting seq offset (r :: todo))
      (phase : s'.phase = update s.phase w (.inserting seq offset todo))
      (roots : s'.engine.roots = (s.engine.memtableInsert [r]).roots)
      (seq : s'.engine.globalSeq = s.engine.globalSeq)

variable {tx : ι → WriteBatch} {s s' : Publication ι} {action : PublishAction ι}
  {p : PublishPhase} {w : ι} {first : ℕ} {e : Engine} {r : OmniRecord}

theorem Quiet.range_eq {b : WriteBatch} {p' : PublishPhase} (quiet : Quiet b p p') :
    p'.range = p.range := by
  cases quiet <;> rfl

/-- Only an acknowledged commit starts to insert. -/
theorem Quiet.publishing_eq {b : WriteBatch} {p' : PublishPhase} (quiet : Quiet b p p') :
    p'.publishing = p.publishing ∨ ∃ seq offset, p = .logged seq offset ∧
      p' = .inserting seq offset (b.logBatch seq offset).all := by
  cases quiet with
  | enter | write | finish => exact .inl rfl
  | acknowledge seq offset => exact .inr ⟨seq, offset, rfl, rfl⟩
  | fail err may => cases p <;> first | exact .inl rfl | exact may.elim

theorem effect_of_next (step : s.next tx action = some s') : Effect tx s action s' := by
  cases action with
  | enter w =>
    simp only [next] at step
    split at step
    next idle =>
      cases step
      exact .quiet w .entered (idle ▸ .enter) rfl rfl rfl
    next => cases step
  | reserve w =>
    simp only [next] at step
    split at step
    next entered =>
      split_ifs at step with full <;> cases step
      · refine .quiet w _ ?_ rfl rfl rfl
        rw [entered]
        exact .fail .writeStall trivial
      · exact .reserve w rfl entered rfl rfl rfl
    next => cases step
  | write w =>
    simp only [next] at step
    split at step
    next seq offset reserved =>
      cases step
      exact .quiet w _ (reserved ▸ .write seq offset) rfl rfl rfl
    next => cases step
  | sync =>
    cases step
    exact .none rfl rfl rfl
  | acknowledge w =>
    simp only [next] at step
    split at step
    next seq offset logged =>
      cases step
      exact .quiet w _ (logged ▸ .acknowledge seq offset) rfl rfl rfl
    next => cases step
  | insert w =>
    simp only [next] at step
    split at step
    next seq offset r todo inserting =>
      cases step
      exact .insert w seq offset r todo inserting rfl rfl rfl
    next => cases step
  | finish w =>
    simp only [next] at step
    split at step
    next seq offset inserting =>
      cases step
      exact .quiet w _ (inserting ▸ .finish seq offset) rfl rfl rfl
    next => cases step
  | fail w err =>
    simp only [next] at step
    split_ifs at step with may
    cases step
    exact .quiet w _ (.fail err may) rfl rfl rfl
  | snapshot =>
    simp only [next] at step
    split_ifs at step
    cases step
    exact .none rfl rfl rfl

/-- Every writer inside its commit is a holder of the lock. -/
def Locked (s : Publication ι) : Prop := ∀ w, (s.phase w).Holds → w ∈ s.readers

omit [External] in
theorem Locked.update (locked : s.Locked) (phase : s'.phase = update s.phase w p)
    (self : p.Holds → w ∈ s'.readers)
    (others : ∀ w' ≠ w, w' ∈ s.readers → w' ∈ s'.readers) : s'.Locked := by
  intro w' holds
  rw [phase] at holds
  by_cases same : w' = w
  · subst same
    rw [update_self] at holds
    exact self holds
  · rw [update_of_ne same] at holds
    exact others w' same (locked w' holds)

omit [External] in
theorem Locked.leave (locked : s.Locked) (out : ¬p.Holds) : (s.leave w p).Locked :=
  locked.update rfl (fun holds => absurd holds out) fun _ ne member =>
    Finset.mem_erase.mpr ⟨ne, member⟩

theorem Locked.next (locked : s.Locked) (step : s.next tx action = some s') : s'.Locked := by
  cases action with
  | enter w =>
    simp only [Publication.next] at step
    split at step <;> cases step
    exact locked.update rfl (fun _ => Finset.mem_insert_self ..) fun _ _ => Finset.mem_insert_of_mem
  | reserve w =>
    simp only [Publication.next] at step
    split at step
    next entered =>
      split_ifs at step with full <;> cases step
      · exact locked.leave id
      · exact locked.update rfl (fun _ => locked w (entered ▸ trivial)) fun _ _ => id
    next => cases step
  | write w | acknowledge w | insert w =>
    simp only [Publication.next] at step
    split at step
    next inside =>
      cases step
      exact locked.update rfl (fun _ => locked w (inside ▸ trivial)) fun _ _ => id
    next => cases step
  | sync =>
    cases step
    exact locked
  | finish w =>
    simp only [Publication.next] at step
    split at step <;> cases step
    exact locked.leave id
  | fail w err =>
    simp only [Publication.next] at step
    split_ifs at step
    cases step
    exact locked.leave id
  | snapshot =>
    simp only [Publication.next] at step
    split_ifs at step
    cases step
    exact locked

/-- The writers' sequence numbers: reserved after the start, below the counter, disjoint. -/
structure Reservations (tx : ι → WriteBatch) (first : ℕ) (phase : ι → PublishPhase)
    (globalSeq : ℕ) : Prop where
  word : globalSeq < 2 ^ 64
  start : first ≤ globalSeq
  bounds : ∀ {w range}, (phase w).range = some range → first ≤ range.1 ∧ range.1 +
  (tx w).opCount < globalSeq
  disjoint : ∀ {w w' range range'}, w ≠ w' → (phase w).range = some range →
    (phase w').range = some range' →
      range.1 + (tx w).opCount < range'.1 ∨ range'.1 + (tx w').opCount < range.1

structure Published (tx : ι → WriteBatch) (e : Engine) (s : Publication ι) : Prop where
  roots : s.engine.roots = { e.roots with memtable := s.engine.roots.memtable }
  todo : ∀ {w range todo}, (s.phase w).publishing = some (range, todo) →
    ∀ r ∈ todo, r ∈ ((tx w).logBatch range.1 range.2).all
  inserted : ∀ {w range todo}, (s.phase w).publishing = some (range, todo) →
    ∀ r ∈ ((tx w).logBatch range.1 range.2).records, r.key ≠ commitMarkerKey →
      r ∈ todo ∨ r.version ∈ s.engine.roots.memtable
  origin : ∀ v ∈ s.engine.roots.memtable, v ∈ e.roots.memtable ∨
    ∃ w range todo, (s.phase w).publishing = some (range, todo) ∧
      ∃ r ∈ ((tx w).logBatch range.1 range.2).records, r.version = v

omit [External] [DecidableEq ι] in
theorem Reservations.of_range_eq {n : ℕ} {phase phase' : ι → PublishPhase}
    (reservations : Reservations tx first phase n)
    (same : ∀ w, (phase' w).range = (phase w).range) : Reservations tx first phase' n where
  word := reservations.word
  start := reservations.start
  bounds reserved := reservations.bounds (same _ ▸ reserved)
  disjoint ne reserved reserved' :=
    reservations.disjoint ne (same _ ▸ reserved) (same _ ▸ reserved')

omit [External] in
theorem range_update {phase : ι → PublishPhase} (same : p.range = (phase w).range) (w' : ι) :
    (update phase w p w').range = (phase w').range := by
  by_cases eq : w' = w
  · rw [eq, update_self, same]
  · rw [update_of_ne eq]

theorem Reservations.next (reservations : Reservations tx first s.phase s.engine.globalSeq)
    (room : s.Room tx action)
    (step : s.next tx action = some s') : Reservations tx first s'.phase s'.engine.globalSeq := by
  cases effect_of_next step with
  | none phase _ seq =>
    rw [phase, seq]
    exact reservations
  | quiet w p quiet phase _ seq =>
    rw [phase, seq]
    exact reservations.of_range_eq (range_update quiet.range_eq)
  | insert w _ _ _ _ inserting phase _ seq =>
    rw [phase, seq]
    exact reservations.of_range_eq (range_update (inserting ▸ rfl))
  | reserve w taken entered phase _ seq =>
    subst taken
    have room : s.engine.globalSeq + ((tx w).opCount + 1) < 2 ^ 64 := room
    have start := reservations.start
    rw [wrap64_of_lt room] at seq
    -- The new range starts at the counter, above all others.
    have new : ∀ {w' range}, (s'.phase w').range = some range →
        w' = w ∧ range = (s.engine.globalSeq, s.engine.heapOffset) ∨ w' ≠ w ∧
        (s.phase w').range = some range := by
      intro w' range reserved
      rw [phase] at reserved
      by_cases same : w' = w
      · subst same
        rw [update_self] at reserved
        exact .inl ⟨rfl, (Option.some.inj reserved).symm⟩
      · rw [update_of_ne same] at reserved
        exact .inr ⟨same, reserved⟩
    refine ⟨by omega, by omega, fun {w' range} reserved => ?_,
      fun {w' w'' range range'} ne reserved reserved' => ?_⟩
    · obtain ⟨rfl, rfl⟩ | ⟨-, old⟩ := new reserved
      · exact ⟨start, by omega⟩
      · obtain ⟨le, lt⟩ := reservations.bounds old
        exact ⟨le, by omega⟩
    · obtain ⟨rfl, rfl⟩ | ⟨-, old⟩ := new reserved <;>
        obtain ⟨rfl, rfl⟩ | ⟨-, old'⟩ := new reserved'
      · exact absurd rfl ne
      · exact .inr (reservations.bounds old').2
      · exact .inl (reservations.bounds old).2
      · exact reservations.disjoint ne old old'

section

variable {first n : ℕ} {phase : ι → PublishPhase}

omit [DecidableEq ι] in
theorem Reservations.seq_of_mem (reservations : Reservations tx first phase n) {w : ι}
    {range : ℕ × ℕ} (reserved : (phase w).range = some range) {r : OmniRecord}
    (member : r ∈ ((tx w).logBatch range.1 range.2).records) :
    first ≤ r.seq ∧ r.seq < n ∧ range.1 ≤ r.seq ∧ r.seq < range.1 + (tx w).opCount := by
  have word := reservations.word
  have bounds := reservations.bounds reserved
  have seqs := WriteBatch.seq_of_mem_logBatch (by omega) member
  omega

omit [DecidableEq ι] in
/-- A sequence number determines the writer and the record. -/
theorem Reservations.eq_of_seq_eq (reservations : Reservations tx first phase n) {w w' : ι}
    {range range' : ℕ × ℕ} (reserved : (phase w).range = some range)
    (reserved' : (phase w').range = some range') {r r' : OmniRecord}
    (member : r ∈ ((tx w).logBatch range.1 range.2).records)
    (member' : r' ∈ ((tx w').logBatch range'.1 range'.2).records) (same : r.seq = r'.seq) :
    w = w' ∧ r = r' := by
  have here := reservations.seq_of_mem reserved member
  have there := reservations.seq_of_mem reserved' member'
  have eq : w = w' := by
    by_contra ne
    have := reservations.disjoint ne reserved reserved'
    omega
  subst eq
  obtain rfl := Option.some.inj (reserved.symm.trans reserved')
  have word := reservations.word
  have bounds := reservations.bounds reserved
  exact ⟨rfl, WriteBatch.eq_of_seq_eq (by omega) member member' same⟩

end

omit [External] in
theorem mem_memtableInsert_singleton {v : Version} : v ∈ (e.memtableInsert [r]).roots.memtable ↔
      (r.key ≠ commitMarkerKey ∧ v = r.version) ∨
        (r.key ≠ commitMarkerKey → ¬(v.key = r.key ∧ v.seq = r.seq)) ∧ v ∈ e.roots.memtable := by
  by_cases marker : r.key = commitMarkerKey
  · have skipped : (e.memtableInsert [r]).roots.memtable = e.roots.memtable := by
      simp [Engine.memtableInsert, marker, Memtable.insertAll]
    rw [skipped]
    simp [marker]
  · have added : (e.memtableInsert [r]).roots.memtable = e.roots.memtable.insert r.version := by
      simp [Engine.memtableInsert, marker, Memtable.insertAll]
    rw [added, Memtable.mem_insert]
    simp only [ne_eq, marker, not_false_eq_true, true_and, forall_const]
    rfl

theorem mem_records_of_mem_all {b : LogBatch} (member : r ∈ b.all)
    (user : r.key ≠ commitMarkerKey) : r ∈ b.records := by
  obtain record | marker := List.mem_append.mp member
  · exact record
  · exact absurd (List.mem_singleton.mp marker ▸ b.marker_key) user

omit [DecidableEq ι] in
/-- A step that inserts nothing: a commit may start to publish. -/
theorem Published.of_roots_eq (published : Published tx e s)
    (roots : s'.engine.roots = s.engine.roots)
    (phases : ∀ w, (s'.phase w).publishing = (s.phase w).publishing ∨
    (s.phase w).publishing = none ∧ ∃ range,
        (s'.phase w).publishing = some (range, ((tx w).logBatch range.1 range.2).all)) :
        Published tx e s' := by
  have known : ∀ {w range todo}, (s'.phase w).publishing = some (range, todo) →
      (s.phase w).publishing = some (range, todo) ∨
      todo = ((tx w).logBatch range.1 range.2).all := by
    intro w range todo publishing
    obtain same | ⟨-, new, starts⟩ := phases w
    · exact .inl (same ▸ publishing)
    · obtain ⟨rfl, rfl⟩ := Prod.mk.inj (Option.some.inj (starts.symm.trans publishing))
      exact .inr rfl
  refine ⟨?_, fun publishing r later => ?_, fun publishing r member user => ?_, fun v member => ?_⟩
  · rw [roots]
    exact published.roots
  · obtain old | rfl := known publishing
    · exact published.todo old r later
    · exact later
  · obtain old | rfl := known publishing
    · rw [roots]
      exact published.inserted old r member user
    · exact .inl (List.mem_append_left _ member)
  · rw [roots] at member
    refine (published.origin v member).imp_right ?_
    rintro ⟨w, range, todo, publishing, found⟩
    refine ⟨w, range, todo, ?_, found⟩
    obtain same | ⟨silent, -⟩ := phases w
    · rw [same, publishing]
    · rw [silent] at publishing
      cases publishing

theorem Published.insert (published : Published tx e s)
    (reservations : Reservations tx first s.phase s.engine.globalSeq) {seq offset : ℕ}
    {todo : List OmniRecord} (inserting : s.phase w = .inserting seq offset (r :: todo))
    (phase : s'.phase = update s.phase w (.inserting seq offset todo))
    (roots : s'.engine.roots = (s.engine.memtableInsert [r]).roots) : Published tx e s' := by
  have here : (s.phase w).publishing = some ((seq, offset), r :: todo) := by rw [inserting]; rfl
  have self : (s'.phase w).publishing = some ((seq, offset), todo) := by
    rw [phase, update_self]
    rfl
  have others : ∀ w' ≠ w, (s'.phase w').publishing = (s.phase w').publishing := by
    intro w' ne
    rw [phase, update_of_ne ne]
  have batch : r ∈ ((tx w).logBatch seq offset).all := published.todo here r (.head _)
  -- What a writer has still to insert was already outstanding, except for `r`.
  have before : ∀ {w' range rest}, (s'.phase w').publishing = some (range, rest) →
      ∃ rest', (s.phase w').publishing = some (range, rest') ∧ rest ⊆ rest' ∧
        ∀ r' ∈ rest', r' ∈ rest ∨ w' = w ∧ r' = r := by
    intro w' range rest publishing
    by_cases eq : w' = w
    · subst eq
      obtain ⟨rfl, rfl⟩ := Prod.mk.inj (Option.some.inj (self.symm.trans publishing))
      refine ⟨_, here, List.subset_cons_self .., fun r' later => ?_⟩
      exact (List.mem_cons.mp later).symm.imp_right fun same => ⟨rfl, same⟩
    · exact ⟨rest, others w' eq ▸ publishing, List.Subset.refl _, fun r' later => .inl later⟩
  refine ⟨?_, fun {w' range rest} publishing r' later => ?_,
    fun {w' range rest} publishing r' member user => ?_, fun v member => ?_⟩
  · rw [roots]
    have rest := congrArg (fun r' : StorageRoots =>
      { r' with memtable := (s.engine.memtableInsert [r]).roots.memtable }) published.roots
    exact rest
  · obtain ⟨rest', old, sub, -⟩ := before publishing
    exact published.todo old r' (sub later)
  · obtain ⟨rest', old, -, rest⟩ := before publishing
    rw [roots, mem_memtableInsert_singleton]
    obtain later | stored := published.inserted old r' member user
    · refine (rest r' later).imp_right ?_
      rintro ⟨-, rfl⟩
      exact .inl ⟨user, rfl⟩
    · by_cases same : r.key ≠ commitMarkerKey ∧ r'.key = r.key ∧ r'.seq = r.seq
      · -- The place of `r` is taken by `r` itself.
        have records := mem_records_of_mem_all batch same.1
        have reserved := PublishPhase.range_of_publishing old
        have reserved' := PublishPhase.range_of_publishing here
        obtain ⟨-, rfl⟩ := reservations.eq_of_seq_eq reserved reserved' member records same.2.2
        exact .inr (.inl ⟨user, rfl⟩)
      · exact .inr (.inr ⟨fun user place => same ⟨user, place⟩, stored⟩)
  · rw [roots, mem_memtableInsert_singleton] at member
    obtain ⟨user, rfl⟩ | ⟨-, stored⟩ := member
    · exact .inr ⟨w, _, _, self, r, mem_records_of_mem_all batch user, rfl⟩
    · refine (published.origin v stored).imp_right ?_
      rintro ⟨w', range, rest, publishing, found⟩
      by_cases eq : w' = w
      · subst eq
        obtain ⟨rfl, rfl⟩ := Prod.mk.inj (Option.some.inj (here.symm.trans publishing))
        exact ⟨w', _, _, self, found⟩
      · exact ⟨w', range, rest, (others w' eq).trans publishing, found⟩

/-- The invariant of publication, for commits on an engine that started as `e`. -/
structure Inv (tx : ι → WriteBatch) (e : Engine) (s : Publication ι) : Prop where
  locked : s.Locked
  reservations : Reservations tx e.globalSeq s.phase s.engine.globalSeq
  published : Published tx e s

omit [DecidableEq ι] in
theorem inv_initial (word : e.globalSeq < 2 ^ 64) : Inv tx e (initial e : Publication ι) where
  locked _ holds := holds.elim
  reservations := ⟨word, le_rfl, nofun, nofun⟩
  published := ⟨rfl, nofun, nofun, fun _ member => .inl member⟩

theorem Inv.next (inv : Inv tx e s) (room : s.Room tx action) (step : s.next tx action = some s') :
    Inv tx e s' := by
  refine ⟨inv.locked.next step, inv.reservations.next room step, ?_⟩
  cases effect_of_next step with
  | none phase roots _ => exact inv.published.of_roots_eq roots fun w => .inl (by rw [phase])
  | quiet w p quiet phase roots _ =>
    refine inv.published.of_roots_eq roots fun w' => ?_
    rw [phase]
    by_cases eq : w' = w
    · subst eq
      rw [update_self]
      obtain same | ⟨seq, offset, logged, rfl⟩ := quiet.publishing_eq
      · exact .inl same
      · exact .inr ⟨by rw [logged]; rfl, (seq, offset), rfl⟩
    · exact .inl (by rw [update_of_ne eq])
  | reserve w _ entered phase roots _ =>
    refine inv.published.of_roots_eq roots fun w' => .inl ?_
    rw [phase]
    by_cases eq : w' = w
    · rw [eq, update_self, entered]
      rfl
    · rw [update_of_ne eq]
  | insert w seq offset r todo inserting phase roots _ =>
    exact inv.published.insert inv.reservations inserting phase roots

theorem inv_of_run (word : e.globalSeq < 2 ^ 64)
    (run : ReflTransGen (Run.SafeStep (Room tx) (Publication.next tx)) (initial e) s) :
    Inv tx e s :=
  Run.invariant run (inv_initial word) fun inv room step => inv.next room step

end Publication

end OmniKV
