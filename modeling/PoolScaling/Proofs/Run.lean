import PoolScaling.Proofs.Change

/-! Runs.

A run attempts steps one after another, whatever they come to. Steps that leave no trace
when they fail can be left out of it (`attempts_succeeding`). Steps that answer the same
from related components and leave related ones do so over a whole run
(`Lockstep.attempts`). -/
namespace PoolScaling.Change

variable {σ τ ε δ α β ι : Type}

/-! ### Changes without a trace -/

/-- Whether a change that fails leaves the component as it was. -/
def Traceless (c : Change σ ε α) : Prop := ∀ s e s', c s = .error e s' → s' = s

theorem traceless_of_ok {c : Change σ ε α} (h : ∀ s, ∃ a s', c s = .ok a s') : Traceless c := by
  intro s e s' hc
  obtain ⟨a, s'', hok⟩ := h s
  rw [hok] at hc
  cases hc

theorem Traceless.ofResult_bind (r : Except ε α) {f : α → Change σ ε β} (h : ∀ a, Traceless (f a)) :
    Traceless (ofResult r >>= f) := by
  intro s e s' hc
  cases r with
  | ok a => exact h a s e s' hc
  | error e =>
    cases hc
    rfl

theorem Traceless.get_bind {f : σ → Change σ ε α} (h : ∀ s, Traceless (f s)) : Traceless (get >>= f) :=
  fun s => h s s

/-- What cannot fail may follow. -/
theorem Traceless.bind_ok {c : Change σ ε α} {f : α → Change σ ε β} (h : Traceless c)
    (hf : ∀ a s, ∃ b s', f a s = .ok b s') : Traceless (c >>= f) := by
  intro s e s' hc
  cases hs : c s with
  | ok a middle =>
    obtain ⟨b, after, hb⟩ := hf a middle
    rw [PoolScaling.bind_ok hs, hb] at hc
    cases hc
  | error e middle =>
    rw [bind_error hs] at hc
    cases hc
    exact h s _ _ hs

theorem Traceless.onPart {part : σ → τ} {put : σ → τ → σ} {wrap : ε → δ} {c : Change τ ε α}
    (h : Traceless c) (hput : ∀ s, put s (part s) = s) : Traceless (Change.onPart part put wrap c) := by
  intro s e s' hc
  unfold Change.onPart at hc
  split at hc
  · cases hc
  · rename_i hfails
    cases hc
    rw [h _ _ _ hfails, hput]

/-! ### Runs -/

variable (step : ι → Change σ ε α)

/-- Attempts steps one after another, whatever they come to: their answers and failures,
and the component afterwards. -/
def attempts : List ι → σ → List (Except ε α) × σ
  | [], s => ([], s)
  | i :: rest, s =>
    let (answers, s') := attempts rest (stateOf (step i s))
    (result (step i s) :: answers, s')

/-- The steps that do not fail in their turn. -/
def succeeding : List ι → σ → List ι
  | [], _ => []
  | i :: rest, s =>
    match step i s with
    | .ok _ s' => i :: succeeding rest s'
    | .error _ s' => succeeding rest s'

variable {step}

/-- **Without the steps that fail, a run is the same**: the others answer as they did,
and leave the component as it was. -/
theorem attempts_succeeding (h : ∀ i, Traceless (step i)) (steps : List ι) (s : σ) :
    attempts step (succeeding step steps s) s =
      ((attempts step steps s).1.filter Except.isOk, (attempts step steps s).2) := by
  induction steps generalizing s with
  | nil => rfl
  | cons i rest ih =>
    rw [succeeding, attempts]
    cases hi : step i s with
    | ok a s' =>
      dsimp only
      rw [attempts, hi, stateOf, ih s']
      rfl
    | error e s' =>
      cases h i s e s' hi
      dsimp only
      rw [stateOf, ih s]
      rfl

/-! ### Two runs -/

/-- Whether changes of two components answer the same from related states and leave
related states. -/
def Lockstep (R : σ → τ → Prop) (c : Change σ ε α) (c' : Change τ ε α) : Prop :=
  ∀ s t, R s t → result (c s) = result (c' t) ∧ R (stateOf (c s)) (stateOf (c' t))

variable {R : σ → τ → Prop}

theorem Lockstep.bind {c : Change σ ε α} {c' : Change τ ε α} {f : α → Change σ ε β} {f' : α → Change τ ε β}
    (h : Lockstep R c c') (hf : ∀ a, Lockstep R (f a) (f' a)) : Lockstep R (c >>= f) (c' >>= f') := by
  intro s t hR
  obtain ⟨hresult, hstate⟩ := h s t hR
  cases hs : c s with
  | ok a s' =>
    cases ht : c' t with
    | ok a' t' =>
      rw [hs, ht] at hresult hstate
      cases hresult
      rw [PoolScaling.bind_ok hs, PoolScaling.bind_ok ht]
      exact hf a s' t' hstate
    | error e t' =>
      rw [hs, ht] at hresult
      cases hresult
  | error e s' =>
    cases ht : c' t with
    | ok a' t' =>
      rw [hs, ht] at hresult
      cases hresult
    | error e' t' =>
      rw [hs, ht] at hresult hstate
      cases hresult
      rw [bind_error hs, bind_error ht]
      exact ⟨rfl, hstate⟩

/-- **Two runs in lockstep** give the same answers, and their components stay related. -/
theorem Lockstep.attempts {step' : ι → Change τ ε α} (h : ∀ i, Lockstep R (step i) (step' i)) (steps : List ι)
    {s : σ} {t : τ} (hR : R s t) :
    (Change.attempts step steps s).1 = (Change.attempts step' steps t).1 ∧
      R (Change.attempts step steps s).2 (Change.attempts step' steps t).2 := by
  induction steps generalizing s t with
  | nil => exact ⟨rfl, hR⟩
  | cons i rest ih =>
    obtain ⟨hresult, hstate⟩ := h i s t hR
    obtain ⟨hanswers, hlast⟩ := ih hstate
    exact ⟨List.cons_eq_cons.mpr ⟨hresult, hanswers⟩, hlast⟩

end PoolScaling.Change
