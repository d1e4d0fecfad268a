import Mathlib.Data.Finset.Card
import OmniKV.Data.Run
import OmniKV.Storage.Batch

/-!
# Group commit

Writers append to the log and join a group that shares one fsync. A writer that arrives while epoch
`E` is being synced waits for `E + 1`, because the fsync of `E` may have started before its append.
Every interleaving, every outcome of an fsync and wake-ups at any time are possible.
-/

namespace OmniKV

open Function

/-- The state behind the group lock. Epoch zero stands for no sync in flight. -/
structure GroupState where
  waiters : ℕ → ℕ
  currentEpoch : ℕ
  completedEpoch : ℕ
  nextEpoch : ℕ
  failures : ℕ → Option OmniError
  poisoned : Option OmniError

/-- How one pass through `join_group` ends. -/
inductive Joined
  | failed (err : OmniError)
  | follower (epoch : ℕ)
  | leader (epoch : ℕ)
  | waiting (needed : ℕ)

variable (g : GroupState)

namespace GroupState

def new : GroupState := ⟨fun _ => 0, 0, 0, 1, fun _ => none, none⟩

def beginNextSync : ℕ × GroupState :=
  (g.nextEpoch, { g with nextEpoch := g.nextEpoch + 1, currentEpoch := g.nextEpoch })

def release (epoch : ℕ) : Option OmniError × GroupState :=
  (g.failures epoch, if g.waiters epoch = 0 then g
    else if g.waiters epoch - 1 = 0 then
      { g with
        waiters := update g.waiters epoch 0
        failures := update g.failures epoch none }
    else { g with waiters := update g.waiters epoch (g.waiters epoch - 1) })

/-- `join_group` up to the first wait. -/
def joinGroup : Joined × GroupState :=
  match g.poisoned with
  | some err => (.failed err, g)
  | none =>
    if g.currentEpoch = 0 then
      let (epoch, g') := g.beginNextSync
      (.leader epoch, g')
    else
      let needed := g.currentEpoch + 1
      (.waiting needed, { g with waiters := update g.waiters needed (g.waiters needed + 1) })

/-- One turn of the waiting loop of `join_group`. -/
def wake (needed : ℕ) : Joined × GroupState :=
  if needed ≤ g.completedEpoch then
    match g.release needed with
    | (some err, g') => (.failed err, g')
    | (none, g') => (.follower needed, g')
  else
    match g.poisoned with
    | some err => (.failed err, (g.release needed).2)
    | none =>
      if g.currentEpoch = 0 then
        (.leader needed, (g.beginNextSync.2.release needed).2)
      else (.waiting needed, g)

/-- The leader publishes the outcome of its fsync. -/
def completeSync (epoch : ℕ) (failure : Option OmniError) : GroupState :=
  let g' := { g with completedEpoch := max g.completedEpoch epoch, currentEpoch := 0 }
  match failure with
  | none => g'
  | some err =>
    { g' with
      poisoned := some err
      failures :=
        if g.waiters epoch = 0 then g.failures
        else update g.failures epoch (some err) }

def poison (err : OmniError) : GroupState := { g with poisoned := some err }

end GroupState

open GroupState

/-- Where a writer is in its commit. A failed fsync poisons the engine, discards what is not
durable, and only then is published. -/
inductive Phase
  | idle
  | appended (since : ℕ)
  | waiting (since needed : ℕ)
  | leading (since epoch : ℕ)
  | syncing (since epoch start : ℕ)
  | failing (since epoch : ℕ) (err : OmniError)
  | discarding (since epoch : ℕ) (err : OmniError)
  | synced (since epoch : ℕ) (failure : Option OmniError)
  | acked (since epoch : ℕ)
  | failed (err : OmniError)

/-- The phase after a pass through `join_group`. -/
def Joined.phase (since : ℕ) : Joined → Phase
  | .failed err => .failed err
  | .follower epoch => .acked since epoch
  | .leader epoch => .leading since epoch
  | .waiting needed => .waiting since needed

/-- The writer owns the sync in flight. -/
@[simp] def Phase.Leads : Phase → Prop
  | .leading .. | .syncing .. | .failing .. | .discarding .. | .synced .. => True
  | _ => False

def Phase.Waits (p : Phase) : Prop := ∃ since needed, p = .waiting since needed

/-- All writers and the group state. The protocol reads neither the clock nor `syncs`. -/
structure GroupCommit (ι : Type*) where
  group : GroupState
  phase : ι → Phase
  clock : ℕ
  syncs : ℕ → Option (ℕ × Option OmniError)

/-- The sections of the commit path that take a lock once. -/
inductive GroupAction (ι : Type*)
  | append (w : ι)
  | join (w : ι)
  | wake (w : ι)
  | beginSync (w : ι)
  | endSync (w : ι) (failure : Option OmniError)
  | poison (w : ι)
  | discard (w : ι)
  | markSynced (w : ι)

@[simp] def GroupAction.writer {ι : Type*} : GroupAction ι → ι
  | .append w | .join w | .wake w | .beginSync w | .endSync w _ | .poison w | .discard w
  | .markSynced w => w

namespace GroupCommit

variable {ι : Type*}

def initial : GroupCommit ι := ⟨.new, fun _ => .idle, 0, fun _ => none⟩

def Counted (phase : ι → Phase) (waiters : ℕ → ℕ) : Prop :=
  ∃ queue : ℕ → Finset ι, (∀ epoch w, w ∈ queue epoch ↔ ∃ since, phase w = .waiting since epoch) ∧
      ∀ epoch, (queue epoch).card = waiters epoch

variable [DecidableEq ι]

/-- The error for a commit that finds the engine poisoned when it takes the log lock. -/
def poisonedError : OmniError :=
  .ioError "group commit engine poisoned by an earlier fsync failure"

def goto (s : GroupCommit ι) (w : ι) (p : Phase) : GroupCommit ι :=
  { s with phase := update s.phase w p }

variable (s : GroupCommit ι)

include s

@[simp] theorem phase_goto (w : ι) (p : Phase) : (s.goto w p).phase w = p :=
  update_self ..

@[simp] theorem group_goto (w : ι) (p : Phase) : (s.goto w p).group = s.group := rfl

@[simp] theorem syncs_goto (w : ι) (p : Phase) : (s.goto w p).syncs = s.syncs := rfl

/-- What an action does, if the writer is where it can take it. -/
def next (s : GroupCommit ι) : GroupAction ι → Option (GroupCommit ι)
  | .append w =>
    match s.phase w, s.group.poisoned with
    | .idle, some _ => some (s.goto w (.failed poisonedError))
    | .idle, none => some { s.goto w (.appended s.clock) with clock := s.clock + 1 }
    | _, _ => none
  | .join w =>
    match s.phase w with
    | .appended since =>
      some { s.goto w (s.group.joinGroup.1.phase since) with group := s.group.joinGroup.2 }
    | _ => none
  | .wake w =>
    match s.phase w with
    | .waiting since needed =>
      some { s.goto w ((s.group.wake needed).1.phase since) with
        group := (s.group.wake needed).2 }
    | _ => none
  | .beginSync w =>
    match s.phase w with
    | .leading since epoch =>
      some { s.goto w (.syncing since epoch s.clock) with clock := s.clock + 1 }
    | _ => none
  | .endSync w failure =>
    match s.phase w with
    | .syncing since epoch start =>
      let p := match failure with
        | none => .synced since epoch none
        | some err => .failing since epoch err
      some { s.goto w p with syncs := update s.syncs epoch (some (start, failure)) }
    | _ => none
  | .poison w =>
    match s.phase w with
    | .failing since epoch err =>
      some { s.goto w (.discarding since epoch err) with group := s.group.poison err }
    | _ => none
  | .discard w =>
    match s.phase w with
    | .discarding since epoch err => some (s.goto w (.synced since epoch (some err)))
    | _ => none
  | .markSynced w =>
    match s.phase w with
    | .synced since epoch failure =>
      let p := match failure with
        | none => .acked since epoch
        | some err => .failed err
      some { s.goto w p with group := s.group.completeSync epoch failure }
    | _ => none

/-- One step of some writer. -/
def Step (s s' : GroupCommit ι) : Prop := Run.Step next s s'

/-- A state that some interleaving reaches. -/
def Reachable (s : GroupCommit ι) : Prop := Relation.ReflTransGen Step initial s

end GroupCommit

namespace GroupCommit.Counted

variable {ι : Type*} {phase : ι → Phase} {waiters : ℕ → ℕ} {w w' : ι} {since since' epoch : ℕ}
  {p : Phase} (counted : Counted phase waiters) (waits : phase w = .waiting since epoch)

include counted waits

theorem pos : 0 < waiters epoch := by
  obtain ⟨queue, mem, card⟩ := counted
  rw [← card]
  exact Finset.card_pos.mpr ⟨w, (mem epoch w).mpr ⟨since, waits⟩⟩

theorem one_lt (waits' : phase w' = .waiting since' epoch) (distinct : w ≠ w') :
    1 < waiters epoch := by
  obtain ⟨queue, mem, card⟩ := counted
  rw [← card]
  exact Finset.one_lt_card.mpr ⟨w, (mem epoch w).mpr ⟨since, waits⟩, w',
    (mem epoch w').mpr ⟨since', waits'⟩, distinct⟩

variable [DecidableEq ι]

omit waits in
theorem stay (before : ¬(phase w).Waits) (after : ¬p.Waits) :
    Counted (update phase w p) waiters := by
  obtain ⟨queue, mem, card⟩ := counted
  refine ⟨queue, fun epoch w' => ?_, card⟩
  rw [mem]
  by_cases same : w' = w
  · subst same
    rw [update_self]
    exact iff_of_false (fun ⟨_, h⟩ => before ⟨_, _, h⟩) (fun ⟨_, h⟩ => after ⟨_, _, h⟩)
  · rw [update_of_ne same]

omit waits in
theorem enter (before : ¬(phase w).Waits) : Counted (update phase w (.waiting since epoch))
      (update waiters epoch (waiters epoch + 1)) := by
  obtain ⟨queue, mem, card⟩ := counted
  have outside : ∀ epoch, w ∉ queue epoch := fun epoch member =>
    before ((mem epoch w).mp member |>.elim fun since h => ⟨since, epoch, h⟩)
  refine ⟨update queue epoch (insert w (queue epoch)), fun epoch' w' => ?_, fun epoch' => ?_⟩
  · rcases eq_or_ne epoch' epoch with rfl | otherEpoch <;> rcases eq_or_ne w' w with rfl | other
    · simp
    · simp [other, mem]
    · simp [otherEpoch, otherEpoch.symm, outside]
    · simp [otherEpoch, other, mem]
  · by_cases sameEpoch : epoch' = epoch
    · subst sameEpoch
      simp [outside, card]
    · simp [sameEpoch, card]

theorem leave (after : ¬p.Waits) :
    Counted (update phase w p) (update waiters epoch (waiters epoch - 1)) := by
  obtain ⟨queue, mem, card⟩ := counted
  refine ⟨update queue epoch ((queue epoch).erase w), fun epoch' w' => ?_, fun epoch' => ?_⟩
  · simp only [Phase.Waits, not_exists] at after
    rcases eq_or_ne epoch' epoch with rfl | otherEpoch <;> rcases eq_or_ne w' w with rfl | other
    · simp [after]
    · simp [other, mem]
    · simp [otherEpoch, otherEpoch.symm, mem, waits, after]
    · simp [otherEpoch, other, mem]
  · by_cases sameEpoch : epoch' = epoch
    · subst sameEpoch
      have member : w ∈ queue epoch' := (mem epoch' w).mpr ⟨since, waits⟩
      simp [Finset.card_erase_of_mem member, card]
    · simp [sameEpoch, card]

end GroupCommit.Counted

/-- What the phase of a writer says about the shared state. -/
def Phase.Ok (clock : ℕ) (syncs : ℕ → Option (ℕ × Option OmniError)) : Phase → Prop
  | .idle | .failed _ => True
  | .appended since => since < clock
  | .waiting since needed =>
    since < clock ∧ 0 < needed ∧ needed ≤ g.nextEpoch ∧
      ∀ start failure, syncs needed = some (start, failure) → since < start ∧
        (needed ≤ g.completedEpoch → failure ≠ none → g.failures needed ≠ none)
  | .leading since epoch =>
    epoch = g.currentEpoch ∧ 0 < epoch ∧ since < clock ∧ syncs epoch = none
  | .syncing since epoch start =>
    epoch = g.currentEpoch ∧ 0 < epoch ∧ since < start ∧ syncs epoch = none
  | .failing since epoch err | .discarding since epoch err =>
    epoch = g.currentEpoch ∧ 0 < epoch ∧ ∃ start, syncs epoch = some (start, some err) ∧
      since < start
  | .synced since epoch failure =>
    epoch = g.currentEpoch ∧ 0 < epoch ∧ ∃ start, syncs epoch = some (start, failure) ∧
      since < start
  | .acked since epoch =>
    epoch ≤ g.completedEpoch ∧ ∃ start, syncs epoch = some (start, none) ∧ since < start

namespace GroupCommit

variable {ι : Type*}

/-- One sync is in flight, or none. -/
def EpochsOk : Prop :=
  g.currentEpoch = 0 ∧ g.nextEpoch = g.completedEpoch + 1 ∨
    g.currentEpoch = g.completedEpoch + 1 ∧ g.nextEpoch = g.currentEpoch + 1

structure Inv (s : GroupCommit ι) : Prop where
  phases : ∀ w, (s.phase w).Ok s.group s.clock s.syncs
  epochs : EpochsOk s.group
  oneLeader : ∀ w w', (s.phase w).Leads → (s.phase w').Leads → w = w'
  recorded : ∀ epoch, 0 < epoch → epoch ≤ s.group.completedEpoch → s.syncs epoch ≠ none
  fresh : ∀ epoch, s.group.nextEpoch ≤ epoch → s.syncs epoch = none
  covered : ∀ w w' since since' epoch start, s.phase w = .waiting since epoch →
    s.phase w' = .syncing since' epoch start → since < start
  counted : Counted s.phase s.group.waiters

theorem inv_initial : Inv (initial : GroupCommit ι) where
  phases _ := trivial
  epochs := .inl ⟨rfl, rfl⟩
  oneLeader _ _ h := h.elim
  recorded epoch pos small := absurd (Nat.le_zero.mp small) pos.ne'
  fresh _ _ := rfl
  covered _ _ _ _ _ _ h := nomatch h
  counted := ⟨fun _ => ∅, by simp [initial], by simp [initial, new]⟩

/-- Before the engine is poisoned, every published epoch succeeded. -/
def Healthy (s : GroupCommit ι) : Prop :=
  s.group.poisoned = none → (∀ epoch, s.group.failures epoch = none) ∧
    ∀ epoch ≤ s.group.completedEpoch, ∀ start err, s.syncs epoch ≠ some (start, some err)

variable {s : GroupCommit ι}

/-- One writer moves to another phase, and the shared state changes with it. -/
theorem Inv.move [DecidableEq ι] {s' : GroupCommit ι} {w : ι} {p : Phase} (inv : Inv s)
    (phase : s'.phase = update s.phase w p) (here : p.Ok s'.group s'.clock s'.syncs)
    (others : ∀ w' ≠ w, (s.phase w').Ok s.group s.clock s.syncs →
    (s.phase w').Ok s'.group s'.clock s'.syncs) (leads : p.Leads → ∀ w' ≠ w, ¬(s.phase w').Leads)
    (waits : ∀ since epoch, p = .waiting since epoch →
      ∀ w' ≠ w, ∀ since' start, s.phase w' = .syncing since' epoch start → since < start)
    (syncs : ∀ since epoch start, p = .syncing since epoch start →
      ∀ w' ≠ w, ∀ since', s.phase w' = .waiting since' epoch → since' < start)
    (epochs : EpochsOk s'.group)
    (recorded : ∀ epoch, 0 < epoch → epoch ≤ s'.group.completedEpoch → s'.syncs epoch ≠ none)
    (fresh : ∀ epoch, s'.group.nextEpoch ≤ epoch → s'.syncs epoch = none)
    (counted : Counted (update s.phase w p) s'.group.waiters) : Inv s' where
  phases := by
    rw [phase, forall_update_iff s.phase fun _ q => q.Ok s'.group s'.clock s'.syncs]
    exact ⟨here, fun w' distinct => others w' distinct (inv.phases w')⟩
  epochs := epochs
  oneLeader := by
    intro a b ha hb
    rw [phase] at ha hb
    have old := inv.oneLeader a b
    grind [update_self, update_of_ne]
  recorded := recorded
  fresh := fresh
  covered := by
    intro a b since since' epoch start ha hb
    rw [phase] at ha hb
    have old := inv.covered a b since since' epoch start
    grind [update_self, update_of_ne]
  counted := phase ▸ counted

/-- The sync in flight has one owner. -/
theorem Inv.not_leads {w : ι} (inv : Inv s) (leads : (s.phase w).Leads) :
    ∀ w' ≠ w, ¬(s.phase w').Leads :=
  fun w' distinct leads' => distinct (inv.oneLeader w' w leads' leads)

theorem Inv.not_leads_of_idle (inv : Inv s) (idle : s.group.currentEpoch = 0) (w : ι) :
    ¬(s.phase w).Leads := by
  intro leads
  have ok := inv.phases w
  cases phase : s.phase w <;> rw [phase] at ok leads <;> first | exact leads | skip
  all_goals
    obtain ⟨current, pos, -⟩ := ok
    omega

end GroupCommit

theorem Phase.Ok.mono {p : Phase} {g g' : GroupState} {clock clock' : ℕ}
    {syncs syncs' : ℕ → Option (ℕ × Option OmniError)} (ok : p.Ok g clock syncs)
    (clock_le : clock ≤ clock') (next_le : g.nextEpoch ≤ g'.nextEpoch)
    (completed_le : g.completedEpoch ≤ g'.completedEpoch)
    (published : ∀ epoch ≤ g.completedEpoch, syncs' epoch = syncs epoch) (leads : p.Leads →
      g'.currentEpoch = g.currentEpoch ∧ syncs' g.currentEpoch = syncs g.currentEpoch)
    (waits : ∀ since needed, p = .waiting since needed →
      ∀ start failure, syncs' needed = some (start, failure) → since < start ∧
        (needed ≤ g'.completedEpoch → failure ≠ none → g'.failures needed ≠ none)) :
        p.Ok g' clock' syncs' := by
  cases p with
  | idle | failed err => trivial
  | appended since => exact Nat.lt_of_lt_of_le ok clock_le
  | waiting since needed =>
    exact ⟨ok.1.trans_le clock_le, ok.2.1, ok.2.2.1.trans next_le, waits since needed rfl⟩
  | acked since epoch =>
    refine ⟨ok.1.trans completed_le, ?_⟩
    rw [published epoch ok.1]
    exact ok.2
  | leading since epoch =>
    obtain ⟨rfl, pos, before, unsynced⟩ := ok
    exact ⟨(leads trivial).1.symm, pos, before.trans_le clock_le, (leads trivial).2.trans unsynced⟩
  | syncing since epoch start =>
    obtain ⟨rfl, pos, before, unsynced⟩ := ok
    exact ⟨(leads trivial).1.symm, pos, before, (leads trivial).2.trans unsynced⟩
  | failing since epoch err | discarding since epoch err | synced since epoch failure =>
    obtain ⟨rfl, pos, synced⟩ := ok
    exact ⟨(leads trivial).1.symm, pos, (leads trivial).2 ▸ synced⟩

theorem Phase.Ok.later {p : Phase} {g g' : GroupState} {clock clock' : ℕ}
    {syncs : ℕ → Option (ℕ × Option OmniError)} (ok : p.Ok g clock syncs)
    (clock_le : clock ≤ clock')
    (current : g'.currentEpoch = g.currentEpoch) (next : g'.nextEpoch = g.nextEpoch)
    (completed : g'.completedEpoch = g.completedEpoch) (failures : g'.failures = g.failures) :
    p.Ok g' clock' syncs := by
  refine ok.mono clock_le next.ge completed.ge (fun _ _ => rfl) (fun _ => ⟨current, rfl⟩) ?_
  rintro since needed rfl
  rw [completed, failures]
  exact ok.2.2.2

namespace GroupState

theorem joinGroup_cases : (∃ err, g.poisoned = some err ∧ g.joinGroup = (.failed err, g)) ∨
      (g.poisoned = none ∧ g.currentEpoch = 0 ∧ g.joinGroup = (.leader g.nextEpoch,
        { g with nextEpoch := g.nextEpoch + 1, currentEpoch := g.nextEpoch })) ∨
      (g.poisoned = none ∧ g.currentEpoch ≠ 0 ∧ g.joinGroup = (.waiting (g.currentEpoch + 1),
        { g with waiters :=
            update g.waiters (g.currentEpoch + 1) (g.waiters (g.currentEpoch + 1) + 1) })) := by
  cases poisoned : g.poisoned with
  | some err => exact .inl ⟨err, rfl, by simp [joinGroup, poisoned]⟩
  | none =>
    by_cases idle : g.currentEpoch = 0
    · exact .inr (.inl ⟨rfl, idle, by simp [joinGroup, poisoned, idle, beginNextSync]⟩)
    · exact .inr (.inr ⟨rfl, idle, by simp [joinGroup, poisoned, idle]⟩)

theorem wake_cases (needed : ℕ) :
    (∃ err, (needed ≤ g.completedEpoch ∧ g.failures needed = some err ∨
        g.completedEpoch < needed ∧ g.poisoned = some err) ∧
        g.wake needed = (.failed err, (g.release needed).2)) ∨
    (needed ≤ g.completedEpoch ∧ g.failures needed = none ∧
      g.wake needed = (.follower needed, (g.release needed).2)) ∨
    (g.completedEpoch < needed ∧ g.poisoned = none ∧ g.currentEpoch = 0 ∧
      g.wake needed = (.leader needed, (g.beginNextSync.2.release needed).2)) ∨
    (g.completedEpoch < needed ∧ g.poisoned = none ∧ g.currentEpoch ≠ 0 ∧
      g.wake needed = (.waiting needed, g)) := by
  by_cases completed : needed ≤ g.completedEpoch
  · cases failure : g.failures needed with
    | some err =>
      exact .inl ⟨err, .inl ⟨completed, rfl⟩, by simp [wake, completed, release, failure]⟩
    | none => exact .inr (.inl ⟨completed, rfl, by simp [wake, completed, release, failure]⟩)
  · have pending := not_le.mp completed
    cases poisoned : g.poisoned with
    | some err => exact .inl ⟨err, .inr ⟨pending, rfl⟩, by simp [wake, completed, poisoned]⟩
    | none =>
      by_cases idle : g.currentEpoch = 0
      · exact .inr (.inr (.inl ⟨pending, rfl, idle, by simp [wake, completed, poisoned, idle]⟩))
      · exact .inr (.inr (.inr ⟨pending, rfl, idle, by simp [wake, completed, poisoned, idle]⟩))

variable {g : GroupState}

theorem release_snd {epoch : ℕ} (waited : 0 < g.waiters epoch) : (g.release epoch).2 = { g with
      waiters := update g.waiters epoch (g.waiters epoch - 1)
      failures := if g.waiters epoch = 1 then update g.failures epoch none else g.failures } := by
  rw [release]
  rw [if_neg waited.ne']
  by_cases last : g.waiters epoch = 1
  · simp [last]
  · rw [if_neg (by omega), if_neg last]

@[simp] theorem currentEpoch_release (g : GroupState) (epoch : ℕ) :
    (g.release epoch).2.currentEpoch = g.currentEpoch := by
  simp only [release]
  split_ifs <;> rfl

@[simp] theorem nextEpoch_release (g : GroupState) (epoch : ℕ) :
    (g.release epoch).2.nextEpoch = g.nextEpoch := by
  simp only [release]
  split_ifs <;> rfl

@[simp] theorem completedEpoch_release (g : GroupState) (epoch : ℕ) :
    (g.release epoch).2.completedEpoch = g.completedEpoch := by
  simp only [release]
  split_ifs <;> rfl

@[simp] theorem poisoned_release (g : GroupState) (epoch : ℕ) :
    (g.release epoch).2.poisoned = g.poisoned := by
  simp only [release]
  split_ifs <;> rfl

theorem failures_release_eq_none {epoch epoch' : ℕ}
    (clear : g.failures epoch' = none) : (g.release epoch).2.failures epoch' = none := by
  simp only [release]
  split_ifs
  · exact clear
  · by_cases same : epoch' = epoch <;> simp [same, clear]
  · exact clear

@[simp] theorem completedEpoch_joinGroup (g : GroupState) :
    g.joinGroup.2.completedEpoch = g.completedEpoch := by
  obtain ⟨_, -, joined⟩ | ⟨-, -, joined⟩ | ⟨-, -, joined⟩ := g.joinGroup_cases <;> rw [joined]

@[simp] theorem poisoned_joinGroup (g : GroupState) : g.joinGroup.2.poisoned = g.poisoned := by
  obtain ⟨_, -, joined⟩ | ⟨-, -, joined⟩ | ⟨-, -, joined⟩ := g.joinGroup_cases <;> rw [joined]

@[simp] theorem failures_joinGroup (g : GroupState) : g.joinGroup.2.failures = g.failures := by
  obtain ⟨_, -, joined⟩ | ⟨-, -, joined⟩ | ⟨-, -, joined⟩ := g.joinGroup_cases <;> rw [joined]

@[simp] theorem completedEpoch_wake (g : GroupState) (needed : ℕ) :
    (g.wake needed).2.completedEpoch = g.completedEpoch := by
  obtain ⟨_, -, woken⟩ | ⟨-, -, woken⟩ | ⟨-, -, -, woken⟩ | ⟨-, -, -, woken⟩ :=
    g.wake_cases needed <;>
    simp [woken, beginNextSync]

@[simp] theorem poisoned_wake (g : GroupState) (needed : ℕ) :
    (g.wake needed).2.poisoned = g.poisoned := by
  obtain ⟨_, -, woken⟩ | ⟨-, -, woken⟩ | ⟨-, -, -, woken⟩ | ⟨-, -, -, woken⟩ :=
    g.wake_cases needed <;>
    simp [woken, beginNextSync]

theorem failures_wake_eq_none {needed epoch : ℕ} (clear : g.failures epoch = none) :
    (g.wake needed).2.failures epoch = none := by
  obtain ⟨_, -, woken⟩ | ⟨-, -, woken⟩ | ⟨-, -, -, woken⟩ | ⟨-, -, -, woken⟩ :=
    g.wake_cases needed <;>
    rw [woken] <;> first | exact clear | exact failures_release_eq_none clear

theorem failures_completeSync_of_ne {epoch epoch' : ℕ} (other : epoch' ≠ epoch)
    (failure : Option OmniError) :
    (g.completeSync epoch failure).failures epoch' = g.failures epoch' := by
  cases failure with
  | none => rfl
  | some err =>
    simp only [completeSync]
    split_ifs
    · rfl
    · exact update_of_ne other _ _

theorem failures_release {ι : Type*} {phase : ι → Phase} {w w' : ι}
    {since since' needed needed' : ℕ} (counted : GroupCommit.Counted phase g.waiters)
    (waits : phase w = .waiting since needed) (waits' : phase w' = .waiting since' needed')
    (distinct : w' ≠ w) : (g.release needed).2.failures needed' = g.failures needed' := by
  rw [release_snd (counted.pos waits)]
  obtain rfl | other := eq_or_ne needed' needed
  · rw [if_neg (counted.one_lt waits waits' distinct.symm).ne']
  · split_ifs
    · exact update_of_ne other _ _
    · rfl

end GroupState

namespace GroupCommit

variable {ι : Type*} [DecidableEq ι] {s s' : GroupCommit ι} {w : ι}

/-- What a step of a writer does. -/
inductive Effect (s : GroupCommit ι) : GroupAction ι → GroupCommit ι → Prop
  | refuse {w : ι} (idle : s.phase w = .idle) (poisoned : s.group.poisoned ≠ none) :
      Effect s (.append w) (s.goto w (.failed poisonedError))
  | append {w : ι} (idle : s.phase w = .idle) (clear : s.group.poisoned = none) :
      Effect s (.append w) { s.goto w (.appended s.clock) with clock := s.clock + 1 }
  | join {w : ι} {since : ℕ} (appended : s.phase w = .appended since) :
      Effect s (.join w) { s.goto w (s.group.joinGroup.1.phase since) with group :=
      s.group.joinGroup.2 }
  | wake {w : ι} {since needed : ℕ} (waiting : s.phase w = .waiting since needed) :
      Effect s (.wake w)
        { s.goto w ((s.group.wake needed).1.phase since) with group := (s.group.wake needed).2 }
  | beginSync {w : ι} {since epoch : ℕ} (leading : s.phase w = .leading since epoch) :
      Effect s (.beginSync w) { s.goto w (.syncing since epoch s.clock) with clock := s.clock + 1 }
  | succeed {w : ι} {since epoch start : ℕ} (syncing : s.phase w = .syncing since epoch start) :
      Effect s (.endSync w none) { s.goto w (.synced since epoch none) with
        syncs := update s.syncs epoch (some (start, none)) }
  | fail {w : ι} {since epoch start : ℕ} {err : OmniError}
    (syncing : s.phase w = .syncing since epoch start) :
      Effect s (.endSync w (some err)) { s.goto w (.failing since epoch err) with
        syncs := update s.syncs epoch (some (start, some err)) }
  | poison {w : ι} {since epoch : ℕ} {err : OmniError}
    (failing : s.phase w = .failing since epoch err) :
      Effect s (.poison w) { s.goto w (.discarding since epoch err) with group := s.group.poison err
      }
  | discard {w : ι} {since epoch : ℕ} {err : OmniError}
    (discarding : s.phase w = .discarding since epoch err) :
      Effect s (.discard w) (s.goto w (.synced since epoch (some err)))
  | acknowledge {w : ι} {since epoch : ℕ} (synced : s.phase w = .synced since epoch none) :
      Effect s (.markSynced w)
        { s.goto w (.acked since epoch) with group := s.group.completeSync epoch none }
  | report {w : ι} {since epoch : ℕ} {err : OmniError}
    (synced : s.phase w = .synced since epoch (some err)) :
      Effect s (.markSynced w)
        { s.goto w (.failed err) with group := s.group.completeSync epoch (some err) }

variable {action : GroupAction ι}

theorem effect_of_next (step : s.next action = some s') : Effect s action s' := by
  cases action with
  | append w =>
    simp only [next] at step
    split at step <;> cases step
    next idle poisoned => exact .refuse idle (by simp [poisoned])
    next idle clear => exact .append idle clear
  | endSync w failure =>
    simp only [next] at step
    split at step <;> cases step
    next syncing =>
      cases failure with
      | none => exact .succeed syncing
      | some err => exact .fail syncing
  | markSynced w =>
    simp only [next] at step
    split at step <;> cases step
    next failure synced =>
      cases failure with
      | none => exact .acknowledge synced
      | some err => exact .report synced
  | join w | wake w | beginSync w | poison w | discard w =>
    simp only [next] at step
    split at step <;> cases step
    next from_ => first | exact .join from_ | exact .wake from_ | exact .beginSync from_ |
        exact .poison from_ | exact .discard from_

omit [DecidableEq ι] in
theorem Inv.syncing_epoch {since epoch start : ℕ} (inv : Inv s)
    (syncing : s.phase w = .syncing since epoch start) :
    epoch = s.group.currentEpoch ∧ 0 < epoch ∧ since < start ∧ s.syncs epoch = none := by
  have ok := inv.phases w
  rwa [syncing] at ok

omit [DecidableEq ι] in
theorem Inv.synced_epoch {since epoch : ℕ} {failure : Option OmniError} (inv : Inv s)
    (synced : s.phase w = .synced since epoch failure) : epoch = s.group.currentEpoch ∧ 0 < epoch ∧
      ∃ start, s.syncs epoch = some (start, failure) ∧ since < start := by
  have ok := inv.phases w
  rwa [synced] at ok

theorem Inv.join {since : ℕ} (inv : Inv s) (appended : s.phase w = .appended since) :
    Inv { s.goto w (s.group.joinGroup.1.phase since) with group := s.group.joinGroup.2 } := by
  have ok : since < s.clock := by simpa [appended, Phase.Ok] using inv.phases w
  have before : ¬(s.phase w).Waits := by simp [appended, Phase.Waits]
  have epochs := inv.epochs
  simp only [EpochsOk] at epochs
  obtain ⟨err, -, joined⟩ | ⟨-, idle, joined⟩ | ⟨-, busy, joined⟩ := s.group.joinGroup_cases <;>
    rw [joined]
  · exact inv.move rfl trivial (fun _ _ ok => ok) False.elim nofun nofun inv.epochs inv.recorded
      inv.fresh (inv.counted.stay before (by simp [Joined.phase, Phase.Waits]))
  · have quiet := inv.not_leads_of_idle idle
    have next : s.group.nextEpoch = s.group.completedEpoch + 1 := by omega
    refine inv.move rfl ⟨rfl, by omega, ok, inv.fresh _ le_rfl⟩ (fun w' _ ok' => ?_) (fun _ w' _ =>
      quiet w')
      nofun nofun (.inr ⟨next, rfl⟩) inv.recorded
      (fun epoch later => inv.fresh epoch ((Nat.le_succ _).trans later))
      (inv.counted.stay before (by simp [Joined.phase, Phase.Waits]))
    exact ok'.mono le_rfl (Nat.le_succ _) le_rfl (fun _ _ => rfl) (fun leads =>
      absurd leads (quiet w')) fun since' needed h => (h ▸ ok').2.2.2
  · have unsynced := inv.fresh (s.group.currentEpoch + 1) (by omega)
    refine inv.move rfl ⟨ok, Nat.succ_pos _, ?_, fun start failure synced => ?_⟩
      (fun w' _ ok' => ok'.later le_rfl rfl rfl rfl rfl) False.elim ?_ nofun
      inv.epochs inv.recorded inv.fresh (inv.counted.enter before)
    · show s.group.currentEpoch + 1 ≤ s.group.nextEpoch
      omega
    · exact absurd (unsynced.symm.trans synced) nofun
    · rintro since epoch ⟨⟩ w' _ since' start syncing
      have current := inv.phases w'
      rw [syncing] at current
      exact absurd current.1 (Nat.succ_ne_self _)

theorem Inv.wake {since needed : ℕ} (inv : Inv s) (waiting : s.phase w = .waiting since needed) :
    Inv { s.goto w ((s.group.wake needed).1.phase since) with group :=
      (s.group.wake needed).2 } := by
  have ok := inv.phases w
  rw [waiting] at ok
  have epochs := inv.epochs
  simp only [EpochsOk] at epochs
  have counted : ∀ g : GroupState, g.waiters = s.group.waiters → ∀ p : Phase, ¬p.Waits →
      Counted (update s.phase w p) (g.release needed).2.waiters := by
    intro g waiters p quiet
    rw [release_snd (waiters ▸ inv.counted.pos waiting), waiters]
    exact inv.counted.leave waiting quiet
  -- The other waiters keep what they know when this one withdraws.
  have kept : ∀ g : GroupState, g.waiters = s.group.waiters → g.failures = s.group.failures →
      g.completedEpoch = s.group.completedEpoch → ∀ w' ≠ w, ∀ since' needed',
      s.phase w' = .waiting since' needed' →
      ∀ start failure, s.syncs needed' = some (start, failure) → since' < start ∧
        (needed' ≤ (g.release needed).2.completedEpoch → failure ≠ none →
          (g.release needed).2.failures needed' ≠ none) := by
    intro g waiters failures completed w' distinct since' needed' waiting'
    rw [failures_release (waiters ▸ inv.counted) waiting waiting' distinct, failures,
      completedEpoch_release, completed]
    exact (waiting' ▸ inv.phases w' : Phase.Ok _ _ _ (.waiting since' needed')).2.2.2
  have released : ∀ w' ≠ w, (s.phase w').Ok s.group s.clock s.syncs →
      (s.phase w').Ok (s.group.release needed).2 s.clock s.syncs := fun w' distinct ok' =>
    ok'.mono le_rfl (by simp) (by simp) (fun _ _ => rfl) (fun _ => by simp)
      (kept s.group rfl rfl rfl w' distinct)
  -- Withdrawing changes the counters and the failures only.
  have leave : ∀ p : Phase, p.Ok (s.group.release needed).2 s.clock s.syncs → ¬p.Leads → ¬p.Waits →
      (∀ since epoch start, p ≠ .syncing since epoch start) →
      Inv { s.goto w p with group := (s.group.release needed).2 } := by
    intro p here follows quiet unsynced
    exact inv.move rfl here released (fun leads => absurd leads follows)
      (fun since epoch h => absurd ⟨since, epoch, h⟩ quiet)
      (fun since epoch start h => absurd h (unsynced since epoch start))
      (by simpa [EpochsOk] using epochs) (by simpa [goto] using inv.recorded)
      (by simpa [goto] using inv.fresh) (counted s.group rfl _ quiet)
  rcases s.group.wake_cases needed with ⟨err, -, woken⟩ | ⟨done, noFailure, woken⟩ |
    ⟨pending, -, idle, woken⟩ | ⟨pending, -, busy, woken⟩ <;> rw [woken]
  · exact leave _ trivial id (by simp [Joined.phase, Phase.Waits]) nofun
  · refine leave _ ?_ id (by simp [Joined.phase, Phase.Waits]) nofun
    obtain ⟨⟨start, failure⟩, synced⟩ :=
      Option.ne_none_iff_exists'.mp (inv.recorded needed ok.2.1 done)
    obtain ⟨before, delivered⟩ := ok.2.2.2 start failure synced
    obtain rfl : failure = none := by
      by_contra failed
      exact delivered done failed noFailure
    exact ⟨by simpa using done, start, synced, before⟩
  · have quiet := inv.not_leads_of_idle idle
    have next : needed = s.group.nextEpoch := by
      have := ok.2.2.1
      omega
    refine inv.move rfl ⟨by simpa [beginNextSync] using next, ok.2.1, ok.1, inv.fresh _ next.ge⟩
      (fun w' distinct ok' => ?_) (fun _ w' _ => quiet w') nofun nofun ?_
      (by simpa [goto, beginNextSync] using inv.recorded) ?_
      (counted s.group.beginNextSync.2 rfl _ (by simp [Joined.phase, Phase.Waits]))
    · exact ok'.mono le_rfl (by simp [beginNextSync])
        (by simp [beginNextSync]) (fun _ _ => rfl) (fun leads => absurd leads (quiet w'))
        (kept s.group.beginNextSync.2 rfl rfl rfl w' distinct)
    · refine .inr ?_
      simp only [currentEpoch_release, completedEpoch_release, nextEpoch_release, beginNextSync,
        and_true]
      omega
    · intro epoch later
      refine inv.fresh epoch ?_
      simp only [nextEpoch_release, beginNextSync] at later
      omega
  · refine inv.move rfl ok (fun _ _ ok' => ok') False.elim ?_ nofun inv.epochs inv.recorded
      inv.fresh ?_
    · rintro since' epoch ⟨⟩ w' _ since'' start syncing
      exact inv.covered w w' since since'' needed start waiting syncing
    · have same := waiting ▸ update_eq_self w s.phase
      show Counted (update s.phase w (.waiting since needed)) s.group.waiters
      rw [same]
      exact inv.counted

/-- The outcome of an fsync is recorded for its epoch. -/
theorem Inv.endSync {since epoch start : ℕ} {failure : Option OmniError} {p : Phase} (inv : Inv s)
    (syncing : s.phase w = .syncing since epoch start) (quiet : ¬p.Waits)
    (ended : ∀ since epoch start, p ≠ .syncing since epoch start)
    (here : epoch = s.group.currentEpoch → 0 < epoch → since < start → ∀ syncs,
      syncs epoch = some (start, failure) → p.Ok s.group s.clock syncs) :
    Inv { s.goto w p with syncs := Function.update s.syncs epoch (some (start, failure)) } := by
  obtain ⟨rfl, pos, before, -⟩ := inv.syncing_epoch syncing
  have epochs := inv.epochs
  simp only [EpochsOk] at epochs
  have alone := inv.not_leads (w := w) (syncing ▸ trivial)
  have recorded : update s.syncs s.group.currentEpoch (some (start, failure))
      s.group.currentEpoch = some (start, failure) := update_self ..
  have others : ∀ w' ≠ w, (s.phase w').Ok s.group s.clock s.syncs → (s.phase w').Ok s.group s.clock
      (update s.syncs s.group.currentEpoch (some (start, failure))) := by
    intro w' distinct ok'
    refine ok'.mono le_rfl le_rfl le_rfl (fun epoch published => update_of_ne (by omega) _ _)
      (fun leads => absurd leads (alone w' distinct)) ?_
    intro since' needed waiting start' failure' synced
    obtain rfl | other := eq_or_ne needed s.group.currentEpoch
    · obtain ⟨rfl, rfl⟩ := Prod.mk.inj (Option.some.inj (recorded.symm.trans synced))
      exact ⟨inv.covered w' w _ _ _ _ waiting syncing, fun published => by omega⟩
    · rw [update_of_ne other] at synced
      exact (waiting ▸ ok' : Phase.Ok _ _ _ (.waiting since' needed)).2.2.2 _ _ synced
  have stillRecorded : ∀ epoch, 0 < epoch → epoch ≤ s.group.completedEpoch →
      update s.syncs s.group.currentEpoch (some (start, failure)) epoch ≠ none := by
    intro epoch positive published
    rw [update_of_ne (by omega)]
    exact inv.recorded epoch positive published
  have stillFresh : ∀ epoch, s.group.nextEpoch ≤ epoch →
      update s.syncs s.group.currentEpoch (some (start, failure)) epoch = none := by
    intro epoch later
    rw [update_of_ne (by omega)]
    exact inv.fresh epoch later
  exact inv.move rfl (here rfl pos before _ recorded) others (fun _ => alone)
    (fun since epoch h => absurd ⟨since, epoch, h⟩ quiet)
    (fun since epoch start h => absurd h (ended since epoch start)) inv.epochs stillRecorded
    stillFresh (inv.counted.stay (by simp [syncing, Phase.Waits]) quiet)

/-- The outcome of an fsync is published. -/
theorem Inv.markSynced {since epoch : ℕ} {failure : Option OmniError} {p : Phase} (inv : Inv s)
    (synced : s.phase w = .synced since epoch failure) (follows : ¬p.Leads) (quiet : ¬p.Waits)
    (ended : ∀ since epoch start, p ≠ .syncing since epoch start)
    (here : ∀ g : GroupState, epoch ≤ g.completedEpoch →
      (∃ start, s.syncs epoch = some (start, failure) ∧ since < start) → p.Ok g s.clock s.syncs) :
    Inv { s.goto w p with group := s.group.completeSync epoch failure } := by
  obtain ⟨rfl, pos, published⟩ := inv.synced_epoch synced
  have epochs := inv.epochs
  simp only [EpochsOk] at epochs
  have alone := inv.not_leads (w := w) (synced ▸ trivial)
  set g := s.group.completeSync s.group.currentEpoch failure with hg
  have completed : g.completedEpoch = s.group.currentEpoch := by
    cases failure <;> simp [hg, completeSync] <;> omega
  have next : g.nextEpoch = s.group.nextEpoch := by
    cases failure <;> rfl
  have current : g.currentEpoch = 0 := by
    cases failure <;> rfl
  have waiters : g.waiters = s.group.waiters := by
    cases failure <;> rfl
  have here := here g completed.ge published
  obtain ⟨start, recorded, -⟩ := published
  have others : ∀ w' ≠ w, (s.phase w').Ok s.group s.clock s.syncs →
      (s.phase w').Ok g s.clock s.syncs := by
    intro w' distinct ok'
    refine ok'.mono le_rfl next.ge (by omega) (fun _ _ => rfl)
      (fun leads => absurd leads (alone w' distinct))
      fun since' needed waiting start' failure' hsync => ?_
    obtain ⟨since_lt, old⟩ :=
      (waiting ▸ ok' : Phase.Ok _ _ _ (.waiting since' needed)).2.2.2 _ _ hsync
    refine ⟨since_lt, fun done failed => ?_⟩
    obtain rfl | other := eq_or_ne needed s.group.currentEpoch
    · -- The failure of this epoch is stored, because the writer still waits for it.
      obtain ⟨-, rfl⟩ := Prod.mk.inj (Option.some.inj (recorded.symm.trans hsync))
      obtain ⟨err, rfl⟩ := Option.ne_none_iff_exists'.mp failed
      have waited := (inv.counted.pos waiting).ne'
      simp [hg, completeSync, waited]
    · rw [failures_completeSync_of_ne other]
      exact old (by omega) failed
  have newRecorded : ∀ epoch, 0 < epoch → epoch ≤ g.completedEpoch → s.syncs epoch ≠ none := by
    intro epoch positive done
    obtain rfl | other := eq_or_ne epoch s.group.currentEpoch
    · simp [recorded]
    · exact inv.recorded epoch positive (by omega)
  have newEpochs : EpochsOk g := .inl ⟨current, by omega⟩
  exact inv.move rfl here others (fun leads => absurd leads follows)
    (fun since epoch h => absurd ⟨since, epoch, h⟩ quiet)
    (fun since epoch start h => absurd h (ended since epoch start)) newEpochs newRecorded
    (next ▸ inv.fresh) (waiters ▸ inv.counted.stay (by simp [synced, Phase.Waits]) quiet)

theorem Inv.next (inv : Inv s) (step : s.next action = some s') : Inv s' := by
  cases effect_of_next step with
  | @refuse w idle =>
    refine inv.move rfl trivial (fun _ _ ok => ok) False.elim nofun nofun inv.epochs
      inv.recorded inv.fresh ?_
    exact inv.counted.stay (by simp [idle, Phase.Waits]) (by simp [Phase.Waits])
  | append idle =>
    refine inv.move rfl (Nat.lt_succ_self _) (fun _ _ ok => ok.later (Nat.le_succ _) rfl rfl rfl
      rfl) False.elim nofun nofun inv.epochs inv.recorded
      inv.fresh ?_
    exact inv.counted.stay (by simp [idle, Phase.Waits]) (by simp [Phase.Waits])
  | join appended => exact inv.join appended
  | wake waiting => exact inv.wake waiting
  | @beginSync w since epoch leading =>
    have ok := inv.phases w
    rw [leading] at ok
    refine inv.move rfl ⟨ok.1, ok.2.1, ok.2.2⟩ (fun _ _ ok' => ok'.later (Nat.le_succ _) rfl rfl rfl
      rfl) (fun _ => inv.not_leads (leading ▸ trivial)) nofun ?_ inv.epochs inv.recorded
      inv.fresh (inv.counted.stay (by simp [leading, Phase.Waits]) (by simp [Phase.Waits]))
    rintro _ _ _ ⟨⟩ w' _ since' waiting
    exact (waiting ▸ inv.phases w' : Phase.Ok _ _ _ (.waiting since' epoch)).1
  | succeed syncing | fail syncing =>
    exact inv.endSync syncing (by simp [Phase.Waits]) nofun
      fun current pos before _ recorded => ⟨current, pos, _, recorded, before⟩
  | @poison w since epoch err failing =>
    have ok := inv.phases w
    rw [failing] at ok
    exact inv.move rfl ok (fun _ _ ok' => ok'.later le_rfl rfl rfl rfl rfl)
      (fun _ => inv.not_leads (failing ▸ trivial)) nofun nofun
      inv.epochs inv.recorded inv.fresh
      (inv.counted.stay (by simp [failing, Phase.Waits]) (by simp [Phase.Waits]))
  | @discard w since epoch err discarding =>
    have ok := inv.phases w
    rw [discarding] at ok
    exact inv.move rfl ok (fun _ _ ok' => ok') (fun _ => inv.not_leads (discarding ▸ trivial))
      nofun nofun inv.epochs inv.recorded inv.fresh
      (inv.counted.stay (by simp [discarding, Phase.Waits]) (by simp [Phase.Waits]))
  | acknowledge synced =>
    exact inv.markSynced synced id (by simp [Phase.Waits]) nofun fun _ completed published =>
      ⟨completed, published⟩
  | report synced =>
    exact inv.markSynced synced id (by simp [Phase.Waits]) nofun fun _ _ _ => trivial

theorem Reachable.inv (reached : Reachable s) : Inv s :=
  Run.step_invariant reached inv_initial fun inv step => inv.next step

variable (step : s.next action = some s')

include step

theorem phase_next (other : w ≠ action.writer) : s'.phase w = s.phase w := by
  cases effect_of_next step <;> exact update_of_ne other _ _

/-- What holds of the new phase of one writer and of the old phases of the others. -/
theorem forall_phase_next {P : ι → Phase → Prop} (actor : P action.writer (s'.phase action.writer))
    (others : ∀ w ≠ action.writer, P w (s.phase w)) (w : ι) : P w (s'.phase w) := by
  by_cases same : w = action.writer
  · exact same ▸ actor
  · exact phase_next step same ▸ others w same

/-- An acknowledged writer takes no further step. -/
theorem acked_next {since epoch : ℕ} (acked : s.phase w = .acked since epoch) :
    s'.phase w = .acked since epoch := by
  by_cases other : w = action.writer
  · cases effect_of_next step <;> subst other <;> simp_all
  · exact (phase_next step other).trans acked

theorem ne_idle_next (busy : s.phase w ≠ .idle) : s'.phase w ≠ .idle := by
  have joined : ∀ (j : Joined) since, j.phase since ≠ .idle := by
    intro j since
    cases j <;> exact nofun
  by_cases other : w = action.writer
  · cases effect_of_next step <;> subst other <;> simp [joined]
  · rw [phase_next step other]
    exact busy

omit step

/-- Once an epoch is published, its outcome stays, and no failure is added to it. -/
theorem Inv.published_next (inv : Inv s) (step : s.next action = some s')
    {epoch : ℕ} (published : epoch ≤ s.group.completedEpoch) :
    epoch ≤ s'.group.completedEpoch ∧ s'.syncs epoch = s.syncs epoch ∧
      (s.group.failures epoch = none → s'.group.failures epoch = none) := by
  have epochs := inv.epochs
  simp only [EpochsOk] at epochs
  cases effect_of_next step with
  | refuse | append | beginSync | discard | poison => exact ⟨published, rfl, id⟩
  | join => exact ⟨by simpa using published, rfl, by simp⟩
  | wake => exact ⟨by simpa using published, rfl, failures_wake_eq_none⟩
  | succeed syncing | fail syncing =>
    obtain ⟨current, pos, -⟩ := inv.syncing_epoch syncing
    exact ⟨published, update_of_ne (by omega) _ _, id⟩
  | acknowledge => exact ⟨published.trans (le_max_left _ _), rfl, id⟩
  | @report w since epoch' err synced =>
    obtain ⟨current, pos, -⟩ := inv.synced_epoch synced
    have other : epoch ≠ epoch' := by omega
    exact ⟨published.trans (le_max_left _ _), rfl, fun none =>
      (failures_completeSync_of_ne other (some err)).trans none⟩

theorem Healthy.next (healthy : Healthy s) (inv : Inv s) (step : s.next action = some s') :
    Healthy s' := by
  have epochs := inv.epochs
  simp only [EpochsOk] at epochs
  cases effect_of_next step with
  | refuse | append | beginSync | discard => exact healthy
  | poison | report => exact nofun
  | join => simpa [Healthy] using healthy
  | wake =>
    intro clear
    obtain ⟨failures, synced⟩ := healthy (by simpa using clear)
    exact ⟨fun epoch => failures_wake_eq_none (failures epoch), by simpa using synced⟩
  | succeed syncing | fail syncing =>
    intro clear
    obtain ⟨failures, synced⟩ := healthy clear
    obtain ⟨current, pos, -⟩ := inv.syncing_epoch syncing
    refine ⟨failures, fun epoch published start' err => ?_⟩
    have published : epoch ≤ s.group.completedEpoch := published
    exact ne_of_eq_of_ne (update_of_ne (by omega) _ _) (synced epoch published start' err)
  | acknowledge synced =>
    intro clear
    obtain ⟨rfl, pos, start, recorded, -⟩ := inv.synced_epoch synced
    obtain ⟨failures, succeeded⟩ := healthy clear
    refine ⟨failures, fun epoch published start' err failed => ?_⟩
    obtain rfl | other := eq_or_ne epoch s.group.currentEpoch
    · cases recorded.symm.trans failed
    · have published : epoch ≤ max s.group.completedEpoch s.group.currentEpoch := published
      exact succeeded epoch (by omega) start' err failed

/-- The writer is acknowledged, or will be as soon as it wakes up. -/
def Settled (s : GroupCommit ι) (w : ι) : Prop :=
  (∃ since epoch, s.phase w = .acked since epoch) ∨
    ∃ since needed start, s.phase w = .waiting since needed ∧ needed ≤ s.group.completedEpoch ∧
      s.syncs needed = some (start, none) ∧ s.group.failures needed = none

theorem Settled.next (settled : Settled s w) (inv : Inv s) (step : s.next action = some s') :
    Settled s' w := by
  obtain ⟨since, epoch, acked⟩ | ⟨since, needed, start, waiting, published, synced, clear⟩ :=
    settled
  · exact .inl ⟨since, epoch, acked_next step acked⟩
  · by_cases other : w = action.writer
    · cases effect_of_next step <;> subst other <;> simp_all
      refine .inl ⟨since, needed, ?_⟩
      simp [wake, release, published, clear, Joined.phase]
    · obtain ⟨published', synced', clear'⟩ := inv.published_next step published
      exact .inr ⟨since, needed, start, (phase_next step other).trans waiting, published',
        synced'.trans synced, clear' clear⟩

/-- A writer that has not joined a group when the engine is poisoned stays out. -/
def Refused (s : GroupCommit ι) (w : ι) : Prop :=
  s.group.poisoned ≠ none ∧
    (s.phase w = .idle ∨ (∃ since, s.phase w = .appended since) ∨ ∃ err, s.phase w = .failed err)

theorem poisoned_next (step : s.next action = some s')
    (poisoned : s.group.poisoned ≠ none) : s'.group.poisoned ≠ none := by
  cases effect_of_next step with
  | refuse | append | beginSync | succeed | fail | discard | acknowledge => exact poisoned
  | poison | report => exact Option.some_ne_none _
  | join | wake => simpa using poisoned

theorem Refused.next (refused : Refused s w) (step : s.next action = some s') : Refused s' w := by
  refine ⟨poisoned_next step refused.1, ?_⟩
  by_cases other : w = action.writer
  · obtain ⟨err, poisoned⟩ := Option.ne_none_iff_exists'.mp refused.1
    -- An append is refused, and so is a writer that joins.
    cases effect_of_next step with
    | refuse =>
      subst other
      exact .inr (.inr ⟨_, update_self ..⟩)
    | append idle clear => exact absurd clear refused.1
    | join =>
      refine .inr (.inr ⟨err, ?_⟩)
      simp [other, goto, joinGroup, poisoned, Joined.phase]
    | _ =>
      obtain ⟨-, idle | ⟨since, appended⟩ | ⟨err', failed⟩⟩ := refused <;>
        simp_all [GroupAction.writer]
  · rw [phase_next step other]
    exact refused.2

/-- In every interleaving: a writer is acknowledged only by an fsync that succeeded and started
after its append; a failed one acknowledges nobody; and who had not joined when the engine was
poisoned is never acknowledged. -/
theorem acked_covered {s : GroupCommit ι} (reached : Reachable s) :
    (∀ w since epoch, s.phase w = .acked since epoch →
      ∃ start, s.syncs epoch = some (start, none) ∧ since < start) ∧
    (∀ epoch start err, s.syncs epoch = some (start, some err) →
      (∀ w since, s.phase w ≠ .acked since epoch) ∧ ∀ w since, s.phase w = .waiting since epoch →
        (∃ err', (s.group.wake epoch).1 = .failed err') ∨
          s.group.completedEpoch < epoch ∧ (s.group.wake epoch).1 = .waiting epoch) ∧
    (s.group.poisoned ≠ none → ∀ w, (s.phase w = .idle ∨ ∃ since, s.phase w = .appended since) →
        ∀ s', Relation.ReflTransGen Step s s' → ∀ since epoch,
        s'.phase w ≠ .acked since epoch) := by
  have inv := reached.inv
  have covered : ∀ w since epoch, s.phase w = .acked since epoch →
      ∃ start, s.syncs epoch = some (start, none) ∧ since < start := by
    intro w since epoch acked
    have ok := inv.phases w
    rw [acked] at ok
    exact ok.2
  refine ⟨covered, ?_, ?_⟩
  · intro epoch start err failed
    refine ⟨fun w since acked => ?_, fun w since waiting => ?_⟩
    · obtain ⟨start', synced, -⟩ := covered w since epoch acked
      rw [failed] at synced
      cases synced
    · have ok := inv.phases w
      rw [waiting] at ok
      rcases s.group.wake_cases epoch with ⟨err', -, woken⟩ | ⟨done, noFailure, -⟩ |
        ⟨pending, -, idle, -⟩ | ⟨pending, -, -, woken⟩
      · exact .inl ⟨err', by rw [woken]⟩
      · exact absurd noFailure ((ok.2.2.2 start _ failed).2 done (Option.some_ne_none _))
      · -- An epoch that no sync has begun has no outcome yet.
        have epochs := inv.epochs
        simp only [EpochsOk] at epochs
        have unsynced := inv.fresh epoch (by omega)
        rw [failed] at unsynced
        cases unsynced
      · exact .inr ⟨pending, by rw [woken]⟩
  · intro poisoned w outside s' run
    have refused : Refused s' w := Run.step_invariant (I := (Refused · w)) run
      ⟨poisoned, outside.imp_right .inl⟩ fun refused step => refused.next step
    obtain idle | ⟨_, appended⟩ | ⟨_, failed⟩ := refused.2 <;> simp_all

/-- Two writers arrive during the fsync of a third: one leads the next epoch, which covers both. -/
theorem acked_covered_follower : ∃ s : GroupCommit (Fin 3), Reachable s ∧ s.phase 2 = .acked 3 2 ∧
      ∃ start, s.syncs 2 = some (start, none) ∧ 3 < start := by
  have reached : Reachable _ := @Run.step_of_foldlM (GroupCommit (Fin 3)) _ next initial _
    [.append 0, .join 0, .beginSync 0, .append 1, .append 2, .join 1, .join 2, .endSync 0 none,
      .markSynced 0, .wake 1, .beginSync 1, .endSync 1 none, .markSynced 1, .wake 2] rfl
  exact ⟨_, reached, rfl, (acked_covered reached).1 2 3 2 rfl⟩

end GroupCommit

end OmniKV
