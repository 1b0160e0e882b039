/-
Actions on a state. An action that fails keeps what it had done until
then: the state comes back with the error. Everything that changes a
registry, a master problem or a pricer halfway before it can fail is an
action; what cannot change anything is an `Except`.
-/
namespace FlowPricing

/-- A step on the state `σ` with a result `α` or an error `ε`. -/
abbrev Action (ε σ α : Type) := EStateM ε σ α

namespace Action

variable {ε ε' σ τ α β : Type}

/-- A step that leaves the state alone. -/
def ofExcept : Except ε α → Action ε σ α
  | .ok a => pure a
  | .error e => throw e

/-- The action with its error renamed. -/
def mapError (f : ε → ε') (act : Action ε σ α) : Action ε' σ α := fun s =>
  match act s with
  | .ok a s' => .ok a s'
  | .error e s' => .error (f e) s'

/-- The action on a part of a larger state. -/
def focus (get : σ → τ) (put : σ → τ → σ) (act : Action ε τ α) :
    Action ε σ α := fun s =>
  match act (get s) with
  | .ok a t => .ok a (put s t)
  | .error e t => .error e (put s t)

/-- A change that either happens or fails without a trace, as an action on
what it changes beside something else. -/
def step (f : α → Except ε (β × α)) : Action ε (α × σ) β := fun s =>
  match f s.1 with
  | .ok (b, a) => .ok b (a, s.2)
  | .error e => .error e s

/-- The action on every element of a list, from the first to the last. The
first failure ends it: elements before keep their change. -/
def each (act : Action ε (α × σ) β) : Action ε (List α × σ) (List β) := fun s =>
  go s.1 s.2
where
  /-- The elements that are left. -/
  go : List α → σ → EStateM.Result ε (List α × σ) (List β)
    | [], t => .ok [] ([], t)
    | a :: as, t =>
        match act (a, t) with
        | .error e (a', t') => .error e (a' :: as, t')
        | .ok b (a', t') =>
            match go as t' with
            | .ok bs (as', t'') => .ok (b :: bs) (a' :: as', t'')
            | .error e (as', t'') => .error e (a' :: as', t'')

end Action

end FlowPricing
