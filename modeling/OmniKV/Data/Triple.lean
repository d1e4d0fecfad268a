import Mathlib.Tactic.SplitIfs

/-!
# Pre- and postconditions of computations that can fail

A computation changes a state and returns a value or an error; after an error the state is what the
computation made of it. A triple has a postcondition for each of the two ways to end.
-/

namespace EStateM

variable {σ ε α β : Type}

/-- The state that a computation ends in. -/
def Result.state : Result ε σ α → σ
  | .ok _ s => s
  | .error _ s => s

/-- From states that meet `P` the computation returns with `Q` or fails with `E`. -/
def Triple (P : σ → Prop) (x : EStateM ε σ α) (Q : α → σ → Prop) (E : σ → Prop) : Prop :=
  ∀ s, P s → match x s with
    | .ok a s' => Q a s'
    | .error _ s' => E s'

/-- Run a computation and return its error as a value. -/
def attempt (x : EStateM ε σ α) : EStateM ε σ (Except ε α) := fun s =>
  match x s with
  | .ok a s' => .ok (.ok a) s'
  | .error err s' => .ok (.error err) s'

variable {x : EStateM ε σ α} {f : α → EStateM ε σ β} {s : σ}

/-- A sequence returns when both of its parts do. -/
theorem bind_eq_ok {s' : σ} {b : β} (done : (x >>= f) s = .ok b s') :
    ∃ a s₁, x s = .ok a s₁ ∧ f a s₁ = .ok b s' := by
  change EStateM.bind x f s = .ok b s' at done
  rw [EStateM.bind] at done
  cases ran : x s with
  | ok a s₁ =>
    rw [ran] at done
    exact ⟨a, s₁, rfl, done⟩
  | error err s₁ =>
    rw [ran] at done
    cases done

theorem get_bind (f : σ → EStateM ε σ β) (s : σ) : (get >>= f) s = f s s := rfl

/-- A sequence whose first part returns goes on with the second. -/
theorem bind_of_ok {s₁ : σ} {a : α} (ran : x s = .ok a s₁) : (x >>= f) s = f a s₁ := by
  change EStateM.bind x f s = f a s₁
  rw [EStateM.bind, ran]

/-- A sequence whose first part fails fails with it. -/
theorem bind_of_error {s₁ : σ} {err : ε} (ran : x s = .error err s₁) :
    (x >>= f) s = .error err s₁ := by
  change EStateM.bind x f s = .error err s₁
  rw [EStateM.bind, ran]

namespace Triple

variable {P P' : σ → Prop} {Q Q' : α → σ → Prop} {R : β → σ → Prop} {E E' : σ → Prop}
  {x : EStateM ε σ α} {f : α → EStateM ε σ β}

theorem consequence (h : Triple P x Q E) (pre : ∀ s, P' s → P s) (post : ∀ a s, Q a s → Q' a s)
    (fail : ∀ s, E s → E' s) : Triple P' x Q' E' := by
  intro s start
  have done := h s (pre s start)
  revert done
  cases x s with
  | ok a s' => exact post a s'
  | error err s' => exact fail s'

theorem weaken (h : Triple P x Q E) (fail : ∀ s, E s → E' s) : Triple P x Q E' :=
  h.consequence (fun _ start => start) (fun _ _ done => done) fail

/-- A value changes nothing. -/
theorem skip (a : α) : Triple P (Pure.pure a : EStateM ε σ α) (fun _ => P) E := fun _ start => start

theorem throw (err : ε) : Triple E (throw err : EStateM ε σ α) Q E := fun _ start => start

theorem any (x : EStateM ε σ α) : Triple P x (fun _ _ => True) fun _ => True := by
  intro s _
  cases x s with
  | ok a s' | error err s' => trivial

theorem bind (first : Triple P x Q E) (rest : ∀ a, Triple (Q a) (f a) R E) :
    Triple P (x >>= f) R E := by
  intro s start
  have done := first s start
  show match EStateM.bind x f s with
    | .ok b s' => R b s'
    | .error _ s' => E s'
  rw [EStateM.bind]
  revert done
  cases x s with
  | ok a s' => exact rest a s'
  | error err s' => exact id

theorem ite {c : Prop} [Decidable c] {y : EStateM ε σ α} (yes : c → Triple P x Q E)
    (no : ¬c → Triple P y Q E) : Triple P (if c then x else y) Q E := by
  split_ifs with h
  · exact yes h
  · exact no h

theorem attempt_bind {F : σ → Prop} {g : Except ε α → EStateM ε σ β} (h : Triple P x Q F)
    (ok : ∀ a, Triple (Q a) (g (.ok a)) R E) (error : ∀ err, Triple F (g (.error err)) R E) :
    Triple P (attempt x >>= g) R E := by
  intro s start
  have done := h s start
  cases ran : x s with
  | ok a s' =>
    rw [ran] at done
    rw [bind_of_ok (show attempt x s = .ok (.ok a) s' by rw [attempt, ran])]
    exact ok a s' done
  | error err s' =>
    rw [ran] at done
    rw [bind_of_ok (show attempt x s = .ok (.error err) s' by rw [attempt, ran])]
    exact error err s' done

variable {s : σ}

/-- What holds at the end, however the computation ends. -/
theorem state (h : Triple P x (fun _ => E) E) (start : P s) : E (x s).state := by
  have done := h s start
  revert done
  cases x s with
  | ok a s' | error err s' => exact id

/-- A computation that cannot return fails. -/
theorem exists_error (h : Triple P x (fun _ _ => False) E) (start : P s) :
    ∃ err s', x s = .error err s' := by
  have done := h s start
  revert done
  cases x s with
  | ok a s' => exact False.elim
  | error err s' => exact fun _ => ⟨err, s', rfl⟩

/-- A computation that cannot fail returns. -/
theorem exists_ok (h : Triple P x Q fun _ => False) (start : P s) :
    ∃ a s', x s = .ok a s' ∧ Q a s' := by
  have done := h s start
  revert done
  cases x s with
  | ok a s' => exact fun done => ⟨a, s', rfl, done⟩
  | error err s' => exact False.elim

end Triple

/-! ## Two computations

Two computations agree if from related states both return, with related values and states, or
both fail. -/

/-- From states that `P` relates both computations return or both fail. -/
def Agree (P : σ → σ → Prop) (x : EStateM ε σ α) (y : EStateM ε σ β) (R : α → β → Prop) : Prop :=
  ∀ s t, P s t → (∃ a b s' t', x s = .ok a s' ∧ y t = .ok b t' ∧ R a b ∧ P s' t') ∨
      ∃ err err' s' t', x s = .error err s' ∧ y t = .error err' t'

namespace Agree

variable {P : σ → σ → Prop} {x : EStateM ε σ α} {y : EStateM ε σ β} {R : α → β → Prop}

theorem pure {a : α} {b : β} (related : R a b) : Agree P (pure a : EStateM ε σ α) (Pure.pure b) R :=
  fun s t start => .inl ⟨a, b, s, t, rfl, rfl, related, start⟩

theorem bind {α' β' : Type} {f : α → EStateM ε σ α'} {g : β → EStateM ε σ β'} {R' : α' → β' → Prop}
    (first : Agree P x y R) (rest : ∀ a b, R a b → Agree P (f a) (g b) R') :
    Agree P (x >>= f) (y >>= g) R' := by
  intro s t start
  obtain ⟨a, b, s', t', ran, ran', related, next⟩ | ⟨err, err', s', t', failed, failed'⟩ :=
    first s t start
  · rw [bind_of_ok ran, bind_of_ok ran']
    exact rest a b related s' t' next
  · exact .inr ⟨err, err', s', t', bind_of_error failed, bind_of_error failed'⟩

end Agree

end EStateM
