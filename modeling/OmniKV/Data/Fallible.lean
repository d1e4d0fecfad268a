import Mathlib.Data.List.Basic

/-!
# Loops that can fail

A loop over a list stops at the first failure. If it returns, every round returned, and what
each round keeps is kept by the loop. The invariant of a fold speaks of the part of the list
that is done.
-/

namespace Except

open List

variable {ε ε' α β : Type} {x : Except ε α} {f : α → Except ε β} {b : β} {l : List α}

theorem bind_eq_ok (done : (x >>= f) = .ok b) : ∃ a, x = .ok a ∧ f a = .ok b := by
  cases x with
  | error err => cases done
  | ok a => exact ⟨a, rfl, done⟩

theorem map_eq_ok {f : α → β} (done : x.map f = .ok b) : ∃ a, x = .ok a ∧ f a = b := by
  cases x with
  | error err => cases done
  | ok a => exact ⟨a, rfl, Except.ok.inj done⟩

theorem mapError_eq_ok {f : ε → ε'} {a : α} (done : x.mapError f = .ok a) : x = .ok a := by
  cases x with
  | error err => cases done
  | ok b => exact congrArg Except.ok (Except.ok.inj done)

theorem eq_ok_get (done : x.toOption.isSome = true) : x = .ok (x.toOption.get done) := by
  cases x with
  | error err => cases done
  | ok a => rfl

/-- The invariant of a fold, over the elements that are done. -/
theorem foldlM_induction {f : β → α → Except ε β} {I : List α → β → Prop} {b' : β}
    (ran : l.foldlM f b = .ok b') (start : I [] b)
    (step : ∀ {before a c c'}, a ∈ l → I before c → f c a = .ok c' → I (before ++ [a]) c') :
    I l b' := by
  have general : ∀ (rest before : List α) (c : β), (∀ a ∈ rest, a ∈ l) → I before c →
      rest.foldlM f c = .ok b' → I (before ++ rest) b' := by
    intro rest
    induction rest with
    | nil =>
      intro before c _ inv done
      cases done
      rwa [append_nil]
    | cons a rest ih =>
      intro before c inside inv done
      obtain ⟨c', first, later⟩ := bind_eq_ok done
      have next := ih (before ++ [a]) c' (fun x member => inside x (mem_cons_of_mem a member))
        (step (inside a mem_cons_self) inv first) later
      rwa [append_assoc] at next
  exact general l [] b (fun _ => id) start ran

theorem mapM_eq_ok {l' : List β} (ran : l.mapM f = .ok l') :
    List.Forall₂ (fun a b => f a = .ok b) l l' := by
  induction l generalizing l' with
  | nil =>
    cases ran
    exact .nil
  | cons a l ih =>
    rw [mapM_cons] at ran
    obtain ⟨b, first, ran⟩ := bind_eq_ok ran
    obtain ⟨rest, later, ran⟩ := bind_eq_ok ran
    cases ran
    exact .cons first (ih later)

/-- What a loop returns comes from one of its rounds. -/
theorem exists_of_mem_mapM {l' : List β} (ran : l.mapM f = .ok l') (member : b ∈ l') :
    ∃ a ∈ l, f a = .ok b := by
  have each := mapM_eq_ok ran
  clear ran
  induction each with
  | nil => cases member
  | @cons a b' l l' first _ ih =>
    obtain rfl | later := mem_cons.mp member
    · exact ⟨a, mem_cons_self, first⟩
    · obtain ⟨a', inside, found⟩ := ih later
      exact ⟨a', mem_cons_of_mem a inside, found⟩

/-- A loop all of whose rounds return returns what they return. -/
theorem mapM_eq_map {g : α → β} (each : ∀ a ∈ l, f a = .ok (g a)) : l.mapM f = .ok (l.map g) := by
  induction l with
  | nil => rfl
  | cons a l ih =>
    rw [mapM_cons, each a mem_cons_self, ih fun b member => each b (mem_cons_of_mem a member)]
    rfl

theorem foldlM_eq_foldl {f : β → α → Except ε β} {g : β → α → β} (each : ∀ b a, f b a = .ok (g b a))
    (l : List α) (b : β) : l.foldlM f b = .ok (l.foldl g b) := by
  induction l generalizing b with
  | nil => rfl
  | cons a l ih =>
    rw [foldlM_cons, each]
    exact ih _

theorem forM_eq_unit {f : α → Except ε Unit} (each : ∀ a ∈ l, f a = .ok ()) :
    l.forM f = .ok () := by
  induction l with
  | nil => rfl
  | cons a l ih =>
    change (f a >>= fun _ => l.forM f) = .ok ()
    rw [each a mem_cons_self]
    exact ih fun b member => each b (mem_cons_of_mem a member)

/-- The only value that the computation can return. -/
def Yields (x : Except ε α) (a : α) : Prop := ∀ ⦃b⦄, x = .ok b → b = a

theorem Yields.pure (a : α) : Yields (.ok a : Except ε α) a :=
  fun _ done => (Except.ok.inj done).symm

theorem Yields.bind {a : α} (first : Yields x a) (rest : Yields (f a) b) : Yields (x >>= f) b := by
  intro c done
  obtain ⟨a', ran, done⟩ := bind_eq_ok done
  cases first ran
  exact rest done

theorem Yields.mapM {f : α → Except ε α} (each : ∀ a, Yields (f a) a) (l : List α) :
    Yields (l.mapM f) l := by
  induction l with
  | nil => exact .pure _
  | cons a l ih =>
    rw [mapM_cons]
    exact .bind (each a) (.bind ih (.pure _))

end Except

namespace Except

variable {ε α : Type*} {p : α → Prop}

instance decidableExistsOk [DecidablePred p] : (x : Except ε α) → Decidable (∃ a, x = .ok a ∧ p a)
  | .error _ => isFalse nofun
  | .ok a => decidable_of_iff (p a) ⟨fun h => ⟨a, rfl, h⟩, fun ⟨_, same, h⟩ =>
    Except.ok.inj same ▸ h⟩

instance decidableExistsSome [DecidablePred p] : (x : Option α) → Decidable (∃ a, x = some a ∧ p a)
  | none => isFalse nofun
  | some a => decidable_of_iff (p a) ⟨fun h => ⟨a, rfl, h⟩, fun ⟨_, same, h⟩ =>
    Option.some.inj same ▸ h⟩

instance decidableIsOk : (x : Except ε α) → Decidable (∃ a, x = .ok a)
  | .error _ => isFalse nofun
  | .ok a => isTrue ⟨a, rfl⟩

instance decidableIsError : (x : Except ε α) → Decidable (∃ err, x = .error err)
  | .error err => isTrue ⟨err, rfl⟩
  | .ok _ => isFalse nofun

instance decidableEqOk [DecidableEq α] : (x : Except ε α) → (a : α) → Decidable (x = .ok a)
  | .error _, _ => isFalse nofun
  | .ok b, a => decidable_of_iff (b = a) ⟨congrArg Except.ok, Except.ok.inj⟩

end Except
