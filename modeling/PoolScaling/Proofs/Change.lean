import PoolScaling.Change

/-! Steps of a change.

A change that answers has answered at every step, and one that fails has failed
at some step; the state passes from each step to the next. -/
namespace PoolScaling

variable {ε δ σ τ α β : Type} {x : EStateM ε σ α} {f : α → EStateM ε σ β} {s s' s'' : σ}

theorem bind_ok {a : α} (h : x s = .ok a s') : (x >>= f) s = f a s' := by
  show EStateM.bind x f s = _
  rw [EStateM.bind, h]

theorem bind_error {e : ε} (h : x s = .error e s') : (x >>= f) s = .error e s' := by
  show EStateM.bind x f s = _
  rw [EStateM.bind, h]

/-- What follows a step depends on its result alone. -/
theorem bind_of_eq {y : EStateM ε σ α} (h : x s = y s') : (x >>= f) s = (y >>= f) s' := by
  show EStateM.bind x f s = EStateM.bind y f s'
  rw [EStateM.bind, EStateM.bind, h]

theorem bind_eq_ok {b : β} :
    (x >>= f) s = .ok b s'' ↔ ∃ a s', x s = .ok a s' ∧ f a s' = .ok b s'' := by
  cases h : x s with
  | ok a s' =>
    rw [bind_ok h]
    constructor
    · intro hf
      exact ⟨a, s', rfl, hf⟩
    · intro h
      obtain ⟨_, _, hx, hf⟩ := h
      cases hx
      exact hf
  | error e s' =>
    rw [bind_error h]
    constructor
    · intro hf
      cases hf
    · intro h
      obtain ⟨_, _, hx, -⟩ := h
      cases hx

theorem map_eq_ok {g : α → β} {b : β} :
    (g <$> x) s = .ok b s' ↔ ∃ a, x s = .ok a s' ∧ g a = b := by
  show EStateM.map g x s = .ok b s' ↔ _
  unfold EStateM.map
  cases x s with
  | ok a s' =>
    constructor
    · intro h
      cases h
      exact ⟨a, rfl, rfl⟩
    · intro h
      obtain ⟨_, h, rfl⟩ := h
      cases h
      rfl
  | error e s' =>
    constructor
    · intro h
      cases h
    · intro h
      obtain ⟨_, h, -⟩ := h
      cases h

theorem map_error {g : α → β} {e : ε} (h : x s = .error e s') : (g <$> x) s = .error e s' := by
  show EStateM.map g x s = _
  rw [EStateM.map, h]

theorem get_bind {f : σ → EStateM ε σ β} : (get >>= f) s = f s s := rfl

theorem modify_bind {g : σ → σ} {f : PUnit → EStateM ε σ β} : (modify g >>= f) s = f ⟨⟩ (g s) := rfl

namespace Change

/-- The state that a change leaves, failed or not. -/
def stateOf : EStateM.Result ε σ α → σ
  | .ok _ s | .error _ s => s

/-- What a change answers or fails with, without the state that it leaves. -/
def result : EStateM.Result ε σ α → Except ε α
  | .ok a _ => .ok a
  | .error e _ => .error e

/-- The answer of a change, unless it failed. -/
def answer? : EStateM.Result ε σ α → Option α
  | .ok a _ => some a
  | .error _ _ => none

theorem eq_ok_of_answer? {r : EStateM.Result ε σ α} {a : α} (h : answer? r = some a) :
    r = .ok a (stateOf r) := by
  cases r with
  | ok a s => cases h; rfl
  | error e s => cases h

theorem eq_ok_of_toOption {r : Except ε α} {a : α} (h : r.toOption = some a) : r = .ok a := by
  cases r with
  | ok a => cases h; rfl
  | error e => cases h

theorem ofResult_ok (a : α) : (ofResult (.ok a) : Change σ ε α) s = .ok a s := rfl

theorem ofResult_bind (r : Except ε α) (g : α → Except ε β) :
    (ofResult (r >>= g) : Change σ ε β) = ofResult r >>= fun a => ofResult (g a) := by
  funext s
  cases r <;> rfl

/-- What follows a result depends on whether there is one. -/
theorem bind_ofResult (r : Except ε α) (f : α → Change σ ε Unit) (s : σ) :
    (ofResult r >>= f) s = match r with
      | .ok a => f a s
      | .error e => .error e s := by
  cases r <;> rfl

/-- What holds of the state, and after what follows a result, holds after both. -/
theorem stateOf_ofResult_bind {P : σ → Prop} (r : Except ε α) (f : α → Change σ ε β) (s : σ) (hs : P s)
    (hf : ∀ a, P (stateOf (f a s))) : P (stateOf ((ofResult r >>= f) s)) := by
  cases r with
  | ok a => exact hf a
  | error e => exact hs

section onPart

variable {part : σ → τ} {put : σ → τ → σ} {wrap : ε → δ} {c : Change τ ε α} {t : τ}

theorem onPart_ok {a : α} (h : c (part s) = .ok a t) : onPart part put wrap c s = .ok a (put s t) := by
  unfold onPart
  rw [h]

theorem onPart_error {e : ε} (h : c (part s) = .error e t) :
    onPart part put wrap c s = .error (wrap e) (put s t) := by
  unfold onPart
  rw [h]

theorem onPart_eq_ok {a : α} (h : onPart part put wrap c s = .ok a s') :
    ∃ t, c (part s) = .ok a t ∧ s' = put s t := by
  unfold onPart at h
  split at h
  · rename_i hc
    cases h
    exact ⟨_, hc, rfl⟩
  · cases h

theorem stateOf_onPart : stateOf (onPart part put wrap c s) = put s (stateOf (c (part s))) := by
  unfold onPart
  cases c (part s) <;> rfl

end onPart

/-- A change that succeeds exactly when a check does. Otherwise it reports the error
of the check and leaves the component as it is. -/
structure Guarded (check : Except ε Unit) (c : Change σ ε Unit) : Prop where
  ok : check = .ok () → ∀ s, ∃ s', c s = .ok () s'
  error : ∀ e, check = .error e → ∀ s, c s = .error e s

end Change

end PoolScaling
