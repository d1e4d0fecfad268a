import Mathlib.Data.List.Basic
import Mathlib.Logic.Function.Basic
import Mathlib.Tactic.SplitIfs

/-!
# Serial histories

A transaction is seen from outside as the list of its reads, scans and writes with their answers. It
is a serial run from a state if every answer is what the state says at that point.
-/

namespace Serial

inductive Event (K V : Type*)
  | read (key : K) (value : Option V)
  /-- The keys from `start` up to `stop`, without `stop`. -/
  | scan (start stop : K) (entries : List (K × V))
  | write (key : K) (value : Option V)
deriving DecidableEq

variable {K V : Type*} {σ τ : K → Option V} {trace later : List (Event K V)} {e : Event K V} {k : K}

namespace Event

def Writes (k : K) : Event K V → Prop
  | write key _ => k = key
  | _ => False

def isWrite : Event K V → Bool
  | write _ _ => true
  | _ => false

end Event

section

variable [DecidableEq K]

def Event.apply (σ : K → Option V) : Event K V → K → Option V
  | write key value => Function.update σ key value
  | _ => σ

def final (σ : K → Option V) (trace : List (Event K V)) : K → Option V :=
  trace.foldl Event.apply σ

theorem Event.apply_of_not_writes (other : ¬e.Writes k) : e.apply σ k = σ k := by
  cases e with
  | read | scan => rfl
  | write key value => exact Function.update_of_ne other value σ

theorem Event.apply_congr (agree : σ k = τ k) : e.apply σ k = e.apply τ k := by
  cases e with
  | read | scan => exact agree
  | write key value =>
    simp only [apply, Function.update_apply]
    split_ifs
    · rfl
    · exact agree

theorem final_append : final σ (trace ++ later) = final (final σ trace) later :=
  List.foldl_append

theorem final_of_not_writes (untouched : ∀ e ∈ trace, ¬e.Writes k) : final σ trace k = σ k := by
  induction trace generalizing σ with
  | nil => rfl
  | cons e rest ih =>
    obtain ⟨first, others⟩ := List.forall_mem_cons.mp untouched
    exact (ih others).trans (Event.apply_of_not_writes first)

/-- Buffered writes on top of a state. -/
def overlay (buffer : K → Option (Option V)) (σ : K → Option V) : K → Option V := fun k =>
  (buffer k).getD (σ k)

theorem overlay_update (buffer : K → Option (Option V)) (σ : K → Option V) (k : K) (v : Option V) :
    overlay (Function.update buffer k (some v)) σ = Function.update (overlay buffer σ) k v := by
  funext key
  simp only [overlay, Function.update_apply]
  split_ifs <;> rfl

end

variable [LE K] [LT K]

namespace Event

/-- The answer is the one that a state gives. -/
def Holds (σ : K → Option V) : Event K V → Prop
  | read key value => σ key = value
  | scan start stop entries =>
    ∀ key value, (key, value) ∈ entries ↔ start ≤ key ∧ key < stop ∧ σ key = some value
  | write _ _ => True

/-- The answer depends on the value of `k`. -/
def Reads (k : K) : Event K V → Prop
  | read key _ => k = key
  | scan start stop _ => start ≤ k ∧ k < stop
  | write _ _ => False

theorem Holds.congr (holds : e.Holds σ) (agree : ∀ k, e.Reads k → σ k = τ k) : e.Holds τ := by
  cases e with
  | read key value => exact (agree key rfl).symm.trans holds
  | scan start stop entries =>
    intro key value
    rw [holds key value]
    refine and_congr_right fun above => and_congr_right fun below => ?_
    rw [agree key ⟨above, below⟩]
  | write => trivial

end Event

variable [DecidableEq K]

/-- Every answer in the list is right, from a state on. -/
def Valid : (K → Option V) → List (Event K V) → Prop
  | _, [] => True
  | σ, e :: rest => e.Holds σ ∧ Valid (e.apply σ) rest

theorem valid_append : Valid σ (trace ++ later) ↔ Valid σ trace ∧ Valid (final σ trace) later := by
  induction trace generalizing σ with
  | nil => simp [Valid, final]
  | cons e rest ih =>
    rw [List.cons_append, Valid, Valid, ih, and_assoc]
    rfl

theorem Valid.congr (valid : Valid σ trace) (agree : ∀ e ∈ trace, ∀ k, e.Reads k → σ k = τ k) :
    Valid τ trace := by
  induction trace generalizing σ τ with
  | nil => trivial
  | cons e rest ih =>
    obtain ⟨first, others⟩ := List.forall_mem_cons.mp agree
    refine ⟨valid.1.congr first, ih valid.2 fun e' member k reads => ?_⟩
    exact Event.apply_congr (others e' member k reads)

/-- A transaction on the state after `early` fits behind `late`, if nothing that it reads is written
there.
-/
theorem valid_append_of_snapshot {early late : List (Event K V)} (history : Valid σ (early ++ late))
    (snapshot : Valid (final σ early) trace) (undisturbed : ∀ e ∈ trace, ∀ k, e.Reads k →
    ∀ w ∈ late, ¬w.Writes k) : Valid σ ((early ++ late) ++ trace) := by
  refine valid_append.mpr ⟨history, ?_⟩
  rw [final_append]
  refine snapshot.congr fun e member k reads => ?_
  exact (final_of_not_writes (undisturbed e member k reads)).symm

end Serial
