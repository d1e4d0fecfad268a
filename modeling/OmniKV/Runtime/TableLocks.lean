import Mathlib.Logic.Function.Basic
import OmniKV.Data.Bytes
import OmniKV.Data.Run

/-!
# The registry of table locks

The registry maps a lower-cased table name to a weak reference, so that a lock lives as long as its
handles. The last handle to go clears the registry in a step of its own, and the same table may be
asked for in between.
-/

namespace OmniKV.TableLocks

open Function (update update_apply)
open Relation (ReflTransGen)

/-- A strong reference to the lock at an address, and the name it was asked for. -/
structure Handle where
  tableName : Bytes
  address : ℕ
deriving DecidableEq, Repr

structure Registry where
  /-- The weak references. -/
  locks : Bytes → Option ℕ
  /-- The name that is stored in a lock. -/
  name : ℕ → Bytes
  handles : List Handle
  /-- Locks without handles whose `drop` has not reached the registry yet. -/
  dropping : List ℕ

/-- The steps that the registry's mutex and the reference counts make atomic. -/
inductive Action where
  /-- The allocator would place a new lock at `address`. -/
  | get (tableName : Bytes) (address : ℕ)
  | clone (handle : Handle)
  | drop (handle : Handle)
  | cleanUp (address : ℕ)
deriving DecidableEq, Repr

namespace Registry

def initial : Registry := ⟨fun _ => none, fun _ => [], [], []⟩

/-- Weak references to a lock with a handle can be upgraded. -/
def Live (s : Registry) (address : ℕ) : Prop := ∃ h ∈ s.handles, h.address = address
deriving Decidable

/-- The memory of a lock is kept until its `drop` has returned. -/
def InUse (s : Registry) (address : ℕ) : Prop := s.Live address ∨ address ∈ s.dropping
deriving Decidable

def hold (s : Registry) (handle : Handle) : Registry := { s with handles := handle :: s.handles }

def create (s : Registry) (name : Bytes) (address : ℕ) : Registry :=
  { s with locks := update s.locks name (some address), name := update s.name address name }

def release (s : Registry) (handle : Handle) : Registry :=
  let rest := { s with handles := s.handles.erase handle }
  if rest.Live handle.address then rest else { rest with dropping := handle.address :: s.dropping }

def clear (s : Registry) (address : ℕ) : Registry :=
  let name := s.name address
  { s with
    locks := if s.locks name = some address then update s.locks name none else s.locks
    dropping := s.dropping.erase address }

variable (lower : Bytes → Bytes)

/-- A step, if it is possible. `lower` is `to_lowercase`. -/
def next (s : Registry) : Action → Option Registry
  | .get tableName address =>
    match (s.locks (lower tableName)).filter (s.Live ·) with
    | some lock => some (s.hold ⟨tableName, lock⟩)
    | none => if s.InUse address then none else
      some ((s.create (lower tableName) address).hold ⟨tableName, address⟩)
  | .clone handle => if handle ∈ s.handles then some (s.hold handle) else none
  | .drop handle => if handle ∈ s.handles then some (s.release handle) else none
  | .cleanUp address => if address ∈ s.dropping then some (s.clear address) else none

/-- What holds between any two steps. -/
structure Consistent (s : Registry) : Prop where
  entry : ∀ h ∈ s.handles, s.locks (lower h.tableName) = some h.address
  /-- An entry leads to a lock of its name, and goes with it. -/
  owner : ∀ name address, s.locks name = some address → s.name address = name ∧ s.InUse address
  dead : ∀ address ∈ s.dropping, ¬s.Live address

variable {lower} {s s' : Registry} {h : Handle} {address : ℕ}

namespace Consistent

variable (ok : s.Consistent lower)
include ok

theorem hold (live : s.Live h.address) (entry : s.locks (lower h.tableName) = some h.address) :
    (s.hold h).Consistent lower := by
  obtain ⟨entries, owner, dead⟩ := ok
  constructor <;> simp only [Registry.hold, InUse, Live, List.mem_cons, exists_eq_or_imp]
    at owner dead live ⊢
  all_goals grind

/-- An entry is replaced only if it leads to no handle. -/
theorem create {tableName : Bytes} (free : ¬s.InUse address)
    (unheld : ∀ lock, s.locks (lower tableName) = some lock → ¬s.Live lock) :
    ((s.create (lower tableName) address).hold ⟨tableName, address⟩).Consistent lower := by
  obtain ⟨entries, owner, dead⟩ := ok
  have other (h) (held : h ∈ s.handles) : lower h.tableName ≠ lower tableName := fun same =>
    unheld h.address (same ▸ entries h held) ⟨h, held, rfl⟩
  constructor <;>
    simp only [Registry.hold, Registry.create, InUse, Live, List.mem_cons, exists_eq_or_imp]
      at owner dead free ⊢
  all_goals grind [update_apply]

theorem release : (s.release h).Consistent lower := by
  obtain ⟨entries, owner, dead⟩ := ok
  simp only [Registry.release]
  split_ifs with held <;> constructor <;> simp only [InUse, Live] at held owner dead ⊢
  all_goals grind [List.mem_of_mem_erase]

/-- The clean-up takes away at most the entry that leads to the lock itself, which has no handle. -/
theorem clear (pending : address ∈ s.dropping) : (s.clear address).Consistent lower := by
  obtain ⟨entries, owner, dead⟩ := ok
  have unheld := dead address pending
  constructor <;> simp only [Registry.clear, InUse, Live] at owner dead unheld ⊢
  all_goals grind [update_apply, List.mem_of_mem_erase]

theorem next {action : Action} (step : s.next lower action = some s') : s'.Consistent lower := by
  cases action with
  | get tableName address =>
    simp only [Registry.next] at step
    split at step
    case h_1 lock found =>
      obtain ⟨entry, live⟩ := Option.filter_eq_some_iff.mp found
      cases step
      exact ok.hold (of_decide_eq_true live) entry
    case h_2 unheld =>
      split_ifs at step with free
      cases step
      exact ok.create free fun lock entry live =>
        Option.filter_eq_none_iff.mp unheld lock entry (decide_eq_true live)
  | clone handle =>
    obtain ⟨member, ⟨⟩⟩ := Option.ite_none_right_eq_some.mp step
    exact ok.hold ⟨handle, member, rfl⟩ (ok.entry handle member)
  | drop handle =>
    obtain ⟨-, ⟨⟩⟩ := Option.ite_none_right_eq_some.mp step
    exact ok.release
  | cleanUp address =>
    obtain ⟨pending, ⟨⟩⟩ := Option.ite_none_right_eq_some.mp step
    exact ok.clear pending

end Consistent

/-- However threads take and drop handles, those of one table share one lock, which the registry
knows. When all are dropped and cleaned up, the registry is empty. -/
theorem one_lock_per_table (run : ReflTransGen (Run.Step (next lower)) initial s) :
    (∀ h ∈ s.handles, ∀ h' ∈ s.handles, lower h.tableName = lower h'.tableName →
      h.address = h'.address) ∧
    (∀ h ∈ s.handles, s.name h.address = lower h.tableName ∧ s.locks (s.name h.address) =
      some h.address) ∧ (s.handles = [] → s.dropping = [] → ∀ name, s.locks name = none) := by
  have ok : s.Consistent lower := by
    refine Run.step_invariant run ?_ fun ok step => ok.next step
    constructor <;> simp [initial]
  refine ⟨fun h held h' held' same => ?_, fun h held => ?_, fun dropped settled name => ?_⟩
  · have entry := ok.entry h held
    rw [same, ok.entry h' held'] at entry
    exact (Option.some.inj entry).symm
  · have entry := ok.entry h held
    have name := (ok.owner _ _ entry).1
    exact ⟨name, name ▸ entry⟩
  · refine Option.eq_none_iff_forall_ne_some.mpr fun lock found => ?_
    have used := (ok.owner name lock found).2
    simp [InUse, Live, dropped, settled] at used

def asciiLower : Bytes → Bytes := List.map fun b => if 65 ≤ b ∧ b ≤ 90 then b + 32 else b

/-- The table `T` is asked for as `t` before the clean-up of its first lock. -/
theorem one_lock_per_table_sample : ∃ s, ReflTransGen (Run.Step (next asciiLower)) initial s ∧
    s.handles = [⟨[116], 1⟩] ∧ s.dropping = [] ∧
      ∀ h ∈ s.handles, s.locks (s.name h.address) = some h.address := by
  have run : ReflTransGen (Run.Step (next asciiLower)) initial _ :=
    Run.step_get [.get [84] 0, .drop ⟨[84], 0⟩, .get [116] 1, .cleanUp 0] (by decide)
  exact ⟨_, run, by decide, by decide, fun h held => ((one_lock_per_table run).2.1 h held).2⟩

end Registry

end OmniKV.TableLocks
