import Mathlib.Data.List.Basic
import Mathlib.Tactic.SplitIfs

/-!
# Computations that index, slice and allocate

A computation returns a value or an error, or it panics. With its result comes the size of its
largest allocation. A safe computation does not panic and keeps its allocations within a bound, and
its value, if it returns one, has a property.
-/

namespace OmniKV

/-- A computation that may fail or panic, with the size of its largest allocation. -/
def Checked (ε α : Type) : Type := Option (Except ε α × ℕ)

namespace Checked

variable {ε α β : Type} {bound : ℕ}

def crash : Checked ε α := none

/-- Turn a failure into a value. -/
def recover (x : Checked ε α) (handle : ε → α) : Checked ε α :=
  match x with
  | none => none
  | some (.ok a, n) => some (.ok a, n)
  | some (.error err, n) => some (.ok (handle err), n)

instance : Monad (Checked ε) where
  pure a := some (.ok a, 0)
  bind x f :=
    match x with
    | none => none
    | some (.ok a, n) => Option.map (fun result => (result.1, max n result.2)) (f a)
    | some (.error err, n) => some (.error err, n)

def reject (err : ε) : Checked ε α := some (.error err, 0)

/-- Allocate so many bytes at once. -/
def allocate (size : ℕ) : Checked ε Unit := some (.ok (), size)

def index (buf : List β) (i : ℕ) : Checked ε β :=
  match buf[i]? with
  | some b => pure b
  | none => crash

/-- `&buf[n..]` -/
def sliceFrom (buf : List β) (n : ℕ) : Checked ε (List β) :=
  if n ≤ buf.length then pure (buf.drop n) else crash

/-- `&buf[..n]` -/
def sliceTo (buf : List β) (n : ℕ) : Checked ε (List β) :=
  if n ≤ buf.length then pure (buf.take n) else crash

/-- `&buf[i..j]` -/
def slice (buf : List β) (i j : ℕ) : Checked ε (List β) :=
  if i ≤ j ∧ j ≤ buf.length then pure ((buf.drop i).take (j - i)) else crash

theorem pure_bind (a : α) (f : α → Checked ε β) : (pure a >>= f) = f a := by
  change Option.map _ (f a) = f a
  cases f a with
  | none => rfl
  | some result => exact congrArg (fun n => some (result.1, n)) (Nat.zero_max result.2)

theorem bind_pure (x : Checked ε α) : (x >>= fun a => pure a) = x := by
  match x with
  | none => rfl
  | some (.error err, n) => rfl
  | some (.ok a, n) => exact congrArg (fun k => some (Except.ok (ε := ε) a, k)) (Nat.max_zero n)

theorem crash_bind (f : α → Checked ε β) : (crash >>= f) = crash := rfl

theorem slice_eq_pure {buf : List β} {i j : ℕ} (ordered : i ≤ j) (inside : j ≤ buf.length) :
    (slice buf i j : Checked ε (List β)) = pure ((buf.drop i).take (j - i)) :=
    if_pos ⟨ordered, inside⟩

def Returns (x : Checked ε α) (Q : α → Prop) : Prop := ∀ ⦃a n⦄, x = some (.ok a, n) → Q a

namespace Returns

variable {x : Checked ε α} {f : α → Checked ε β} {Q : α → Prop} {R : β → Prop}

theorem pure {a : α} (holds : Q a) : Returns (pure a : Checked ε α) Q := by
  intro b n ran
  cases ran
  exact holds

theorem bind (first : Returns x Q) (rest : ∀ a, Q a → Returns (f a) R) : Returns (x >>= f) R := by
  intro b n ran
  match x, first, ran with
  | some (.ok a, m), first, ran =>
    obtain ⟨⟨value, k⟩, second, same⟩ := Option.map_eq_some_iff.mp ran
    cases same
    exact rest a (first rfl) second

theorem always (rest : ∀ a, Returns (f a) R) : Returns (x >>= f) R :=
  bind (Q := fun _ => True) (fun _ _ _ => trivial) fun a _ => rest a

theorem crash : Returns (crash : Checked ε α) Q := nofun

theorem ite {c : Prop} [Decidable c] {y : Checked ε α} (yes : c → Returns x Q)
    (no : ¬c → Returns y Q) : Returns (if c then x else y) Q := by
  split_ifs with h
  · exact yes h
  · exact no h

end Returns

/-- The computation does not panic, allocates at most `bound` bytes at once, and its value has the
property.
-/
def Safe (bound : ℕ) (x : Checked ε α) (Q : α → Prop) : Prop :=
  ∃ value n, x = some (value, n) ∧ n ≤ bound ∧ ∀ a, value = .ok a → Q a

namespace Safe

variable {x : Checked ε α} {f : α → Checked ε β} {Q : α → Prop} {R : β → Prop} {a : α}
  {buf : List α} {n : ℕ}

theorem pure (holds : Q a) : Safe bound (pure a : Checked ε α) Q := by
  refine ⟨.ok a, 0, rfl, Nat.zero_le bound, ?_⟩
  rintro b ⟨⟩
  exact holds

theorem reject (err : ε) : Safe bound (reject err : Checked ε α) Q :=
  ⟨.error err, 0, rfl, Nat.zero_le bound, nofun⟩

theorem bind (first : Safe bound x Q) (rest : ∀ a, Q a → Safe bound (f a) R) :
    Safe bound (x >>= f) R := by
  obtain ⟨value, n, rfl, within, holds⟩ := first
  cases value with
  | error err => exact ⟨.error err, n, rfl, within, nofun⟩
  | ok a =>
    obtain ⟨value, m, ran, within', holds'⟩ := rest a (holds a rfl)
    exact ⟨value, max n m, congrArg (Option.map _) ran, Nat.max_le.mpr ⟨within, within'⟩, holds'⟩

theorem ite {c : Prop} [Decidable c] {y : Checked ε α} (yes : c → Safe bound x Q)
    (no : ¬c → Safe bound y Q) : Safe bound (if c then x else y) Q := by
  split_ifs with h
  · exact yes h
  · exact no h

theorem allocate {size : ℕ} (fits : size ≤ bound) :
    Safe bound (allocate size : Checked ε Unit) fun _ => True :=
  ⟨.ok (), size, rfl, fits, fun _ _ => trivial⟩

theorem index {i : ℕ} (inside : i < buf.length) : Safe bound (index buf i : Checked ε α)
    (buf[i]? = some ·) := by
  rw [Checked.index, List.getElem?_eq_getElem inside]
  exact pure rfl

theorem sliceFrom (inside : n ≤ buf.length) :
    Safe bound (sliceFrom buf n : Checked ε (List α)) (· = buf.drop n) := by
  rw [Checked.sliceFrom, if_pos inside]
  exact pure rfl

theorem sliceTo (inside : n ≤ buf.length) :
    Safe bound (sliceTo buf n : Checked ε (List α)) (· = buf.take n) := by
  rw [Checked.sliceTo, if_pos inside]
  exact pure rfl

theorem slice {i j : ℕ} (ordered : i ≤ j) (inside : j ≤ buf.length) :
    Safe bound (slice buf i j : Checked ε (List α)) (· = (buf.drop i).take (j - i)) := by
  rw [slice_eq_pure ordered inside]
  exact pure rfl

theorem recover (safe : Safe bound x Q) {handle : ε → α} (handled : ∀ err, Q (handle err)) :
    Safe bound (recover x handle) Q := by
  obtain ⟨value, n, rfl, within, holds⟩ := safe
  cases value with
  | ok a => exact ⟨.ok a, n, rfl, within, holds⟩
  | error err =>
    refine ⟨.ok (handle err), n, rfl, within, ?_⟩
    rintro a ⟨⟩
    exact handled err

theorem imp (safe : Safe bound x Q) {bound' : ℕ} {Q' : α → Prop} (larger : bound ≤ bound')
    (weaker : ∀ a, Q a → Q' a) : Safe bound' x Q' := by
  obtain ⟨value, n, rfl, within, holds⟩ := safe
  exact ⟨value, n, rfl, Nat.le_trans within larger, fun a eq => weaker a (holds a eq)⟩

theorem returns (safe : Safe bound x Q) : Returns x Q := by
  obtain ⟨value, n, rfl, -, holds⟩ := safe
  intro a m same
  cases same
  exact holds a rfl

/-- A safe computation that cannot fail returns its value. -/
theorem exists_ok {x : Checked Empty α} (safe : Safe bound x (· = a)) :
    ∃ n ≤ bound, x = some (.ok a, n) := by
  obtain ⟨value, n, rfl, within, holds⟩ := safe
  cases value with
  | error err => exact err.elim
  | ok b => exact ⟨n, within, holds b rfl ▸ rfl⟩

theorem not_crash : ¬Safe bound (crash : Checked ε α) Q := nofun

/-- What follows a value in a safe computation is safe. -/
theorem rest (safe : Safe bound (x >>= f) R) (ran : x = some (.ok a, n)) : Safe bound (f a) R := by
  obtain ⟨value, m, done, within, holds⟩ := safe
  rw [ran] at done
  obtain ⟨⟨value', k⟩, second, same⟩ := Option.map_eq_some_iff.mp done
  cases same
  exact ⟨value', k, second, Nat.le_trans (Nat.le_max_right n k) within, holds⟩

theorem of_bind (safe : Safe bound (x >>= f) R) : Safe bound x fun _ => True := by
  obtain ⟨value, n, ran, within, -⟩ := safe
  match x, ran with
  | some (.error err, m), ran =>
    cases ran
    exact ⟨_, _, rfl, within, nofun⟩
  | some (.ok a, m), ran =>
    obtain ⟨result, -, same⟩ := Option.map_eq_some_iff.mp ran
    cases same
    exact ⟨_, _, rfl, Nat.le_trans (Nat.le_max_left ..) within, fun _ _ => trivial⟩

theorem allocated {size : ℕ} {f : Unit → Checked ε β}
    (safe : Safe bound (Checked.allocate size >>= f) R) : size ≤ bound := by
  obtain ⟨_, _, ran, within, -⟩ := safe.of_bind
  cases ran
  exact within

end Safe

end Checked

end OmniKV
