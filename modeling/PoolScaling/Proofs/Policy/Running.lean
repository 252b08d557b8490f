import PoolScaling.Proofs.Policy.Signal
import PoolScaling.Proofs.Stage

/-! Dampers that have been used.

Whatever was asked of a damper before, it is new or it runs: the policies are those
of an accepted damping, and only the tracker tells of the past (`Used.after`). -/
namespace PoolScaling

namespace Damping

/-- Whether a candidate becomes the desired size. -/
def keeps (d : Damping) (passes : Bool) (p : PoolSize) (c : Float) : Bool :=
  d.tolerates p c || (Policy.isScaleDown p c && !passes)

/-- What a candidate for a known pool is damped to. -/
def damped (d : Damping) (passes : Bool) (p : PoolSize) (c : Float) : Float :=
  if d.keeps passes p c then p.target else c

end Damping

theorem Reading.answer_some (d : Damping) (passes : Bool) (p : PoolSize) (c : Float) (now : Instant) :
    (Reading.mk (some p) (some c) now).answer d passes = some (d.damped passes p c) := by
  unfold Damping.damped Damping.keeps
  simp only [answer]
  cases d.tolerates p c <;> cases Policy.isScaleDown p c <;> cases passes <;> rfl

namespace Damper

variable {d : Damping}

theorem running_of_configure {before fresh : Damper} (h : configure d before = .ok () fresh) :
    d.validate = .ok () ∧ fresh = running d .idle := by
  have hd : d.validate = .ok () := by
    cases hvalid : d.validate with
    | ok => rfl
    | error e =>
      rw [(configure_guarded d).error e hvalid] at h
      cases h
  rw [configure_of_validate hd] at h
  cases h
  exact ⟨hd, rfl⟩

/-! ### Histories -/

/-- What can be asked of a damper. -/
inductive Call where
  | configure (d : Damping)
  | apply (r : Reading)

/-- The damper that a call leaves, failed or not. -/
def perform (damper : Damper) : Call → Damper
  | .configure d => Change.stateOf (configure d damper)
  | .apply r => Change.stateOf (apply r.pool r.candidate r.now damper)

def after (damper : Damper) (history : List Call) : Damper := history.foldl perform damper

/-- Whether a damper is new or runs a damping that was accepted. -/
inductive Used : Damper → Prop
  | new : Used new
  | running (d : Damping) (t : Tracker) (h : d.validate = .ok ()) : Used (running d t)

theorem Used.perform {damper : Damper} (h : Used damper) (call : Call) : Used (damper.perform call) := by
  cases call with
  | configure d =>
    cases hd : d.validate with
    | ok =>
      rw [Damper.perform, configure_of_validate hd]
      exact .running d .idle hd
    | error e =>
      rw [Damper.perform, (configure_guarded d).error e hd]
      exact h
  | apply r =>
    cases h with
    | new => exact .new
    | running d t hd =>
      rw [Damper.perform, apply_running hd]
      exact .running d _ hd

theorem Used.after {damper : Damper} (h : Used damper) (history : List Call) :
    Used (damper.after history) := by
  induction history generalizing damper with
  | nil => exact h
  | cons call history ih => exact ih (h.perform call)

end Damper

end PoolScaling
