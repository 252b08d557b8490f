/-! Changes of a component.

A component is a value. A change reads it, leaves another and answers or fails.
What a change has done before it fails stays done, so it has to be shown, and
does not follow from the types, that a failing change leaves no trace. -/
namespace PoolScaling

/-- A change of a component `σ`, which may fail with `ε`. -/
abbrev Change (σ ε : Type) := EStateM ε σ

namespace Change

variable {σ τ ε δ α : Type}

/-- Answers with a given result. -/
def ofResult (r : Except ε α) : Change σ ε α := fun s =>
  match r with
  | .ok a => .ok a s
  | .error e => .error e s

/-- Changes a part of a component. -/
def onPart (part : σ → τ) (put : σ → τ → σ) (wrap : ε → δ) (c : Change τ ε α) : Change σ δ α :=
  fun s =>
    match c (part s) with
    | .ok a t => .ok a (put s t)
    | .error e t => .error (wrap e) (put s t)

end Change

end PoolScaling
