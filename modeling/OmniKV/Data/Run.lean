import Mathlib.Logic.Relation
import Mathlib.Tactic.SplitIfs

/-!
# Runs of transition functions

A system is given by what each action does to a state, if it is possible there. A run is
a list of actions; a guarded run also checks a condition before each of them.
-/

namespace OmniKV.Run

variable {σ α : Type*} {next : σ → α → Option σ} {safe : σ → α → Prop}

/-- One action leads from a state to another. -/
def Step (next : σ → α → Option σ) (s s' : σ) : Prop := ∃ a, next s a = some s'

/-- One action that meets its condition leads from a state to another. -/
def SafeStep (safe : σ → α → Prop) (next : σ → α → Option σ) (s s' : σ) : Prop :=
  ∃ a, safe s a ∧ next s a = some s'

/-- Take the actions of a list, as long as each of them meets its condition. -/
def guarded (safe : σ → α → Prop) [∀ s a, Decidable (safe s a)] (next : σ → α → Option σ)
    (s : σ) (actions : List α) : Option σ :=
  actions.foldlM (fun s a => if safe s a then next s a else none) s

variable {s s' : σ}

theorem safeStep_of_guarded [∀ s a, Decidable (safe s a)] {actions : List α}
    (run : guarded safe next s actions = some s') :
    Relation.ReflTransGen (SafeStep safe next) s s' := by
  induction actions generalizing s with
  | nil => exact Option.some.inj run ▸ .refl
  | cons a actions ih =>
    rw [guarded, List.foldlM_cons] at run
    obtain ⟨s₁, first, rest⟩ := Option.bind_eq_some_iff.mp run
    split_ifs at first with ok
    exact .head ⟨a, ok, first⟩ (ih rest)

/-- A relation that every safe step keeps, while a fold follows it, relates the ends of a run. -/
theorem simulation {τ : Type*} [∀ s a, Decidable (safe s a)] {I : σ → τ → Prop} {f : τ → α → τ}
    {m : τ} {actions : List α} (run : guarded safe next s actions = some s') (start : I s m)
    (step : ∀ {s s' : σ} {m : τ} {a : α}, I s m → safe s a → next s a = some s' → I s' (f m a)) :
    I s' (actions.foldl f m) := by
  induction actions generalizing s m with
  | nil => exact Option.some.inj run ▸ start
  | cons a actions ih =>
    rw [guarded, List.foldlM_cons] at run
    obtain ⟨s₁, first, rest⟩ := Option.bind_eq_some_iff.mp run
    split_ifs at first with ok
    exact ih rest (step start ok first)

/-- What holds at the start and is kept by every safe step holds after a run of them. -/
theorem invariant {I : σ → Prop} (run : Relation.ReflTransGen (SafeStep safe next) s s')
    (start : I s)
    (step : ∀ {s s' : σ} {a : α}, I s → safe s a → next s a = some s' → I s') : I s' := by
  induction run with
  | refl => exact start
  | tail _ taken ih =>
    obtain ⟨a, ok, taken⟩ := taken
    exact step ih ok taken

theorem step_invariant {I : σ → Prop} (run : Relation.ReflTransGen (Step next) s s') (start : I s)
    (step : ∀ {s s' : σ} {a : α}, I s → next s a = some s' → I s') : I s' := by
  induction run with
  | refl => exact start
  | tail _ taken ih =>
    obtain ⟨a, taken⟩ := taken
    exact step ih taken

theorem step_of_safeStep (run : Relation.ReflTransGen (SafeStep safe next) s s') :
    Relation.ReflTransGen (Step next) s s' :=
  Relation.ReflTransGen.mono (fun _ _ ⟨a, _, step⟩ => ⟨a, step⟩) _ _ run

theorem step_of_foldlM {actions : List α} (run : actions.foldlM next s = some s') :
    Relation.ReflTransGen (Step next) s s' := by
  have free : guarded (fun _ _ => True) next s actions = some s' := by
    simpa [guarded] using run
  exact step_of_safeStep (safeStep_of_guarded free)

theorem step_get (actions : List α) (taken : (actions.foldlM next s).isSome = true) :
    Relation.ReflTransGen (Step next) s ((actions.foldlM next s).get taken) :=
  step_of_foldlM (Option.some_get taken).symm

theorem safeStep_get (safe : σ → α → Prop) [∀ s a, Decidable (safe s a)] (next : σ → α → Option σ)
    (s : σ) (actions : List α) (taken : (guarded safe next s actions).isSome = true) :
    Relation.ReflTransGen (SafeStep safe next) s ((guarded safe next s actions).get taken) :=
  safeStep_of_guarded (Option.some_get taken).symm

end OmniKV.Run
