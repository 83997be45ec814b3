import RandomX.Error

/-!
# Outcomes

How a sequence of calls succeeds: each call succeeds, and hands its result to the next.
-/
namespace RandomX.Outcome

variable {α β : Type} {e : Error}

theorem bind_eq_ok {x : Except Error α} {f : α → Except Error β} {b : β} :
    x >>= f = .ok b ↔ ∃ a, x = .ok a ∧ f a = .ok b := by
  cases x <;> simp [bind, Except.bind]

@[simp] theorem ok_bind (a : α) (f : α → Except Error β) : (Except.ok a : Except Error α) >>= f = f a :=
  rfl

@[simp] theorem error_bind (f : α → Except Error β) : (Except.error e : Except Error α) >>= f = .error e :=
  rfl

@[simp] theorem pure_eq_ok (a : α) : (pure a : Except Error α) = .ok a :=
  rfl

/-- The list that comes of a result, empty if there is none. -/
def collect (x : Except Error α) (f : α → List β) : List β :=
  match x with
  | .ok a => f a
  | .error _ => []

@[simp] theorem collect_ok (a : α) (f : α → List β) : collect (.ok a) f = f a :=
  rfl

theorem forall_mem_collect {x : Except Error α} {f : α → List β} {P : β → Prop}
    (h : ∀ a, x = .ok a → ∀ b ∈ f a, P b) : ∀ b ∈ collect x f, P b := by
  cases x with
  | ok a => exact h a rfl
  | error e => simp [collect]

end RandomX.Outcome
