import PoolScaling.Pipeline
import PoolScaling.Proofs.Stage

/-! Reconfiguration.

A pipeline configures its stages one after another, so a stage that refused its
section would leave the sections before it installed. None does, because all
sections are checked first and a stage refuses nothing that its check accepts
(`configure_of_validate`).

What is installed comes from the configuration alone. Only the engine of the
aggregator survives, and no operation ever changes that (`engine_after`), so a
configured pipeline is the same whatever happened to it before
(`configure_all_or_nothing`). -/
namespace PoolScaling
open Change

namespace Pipeline

variable {c : Config} {p : Pipeline}

/-! ### The whole pipeline -/

theorem validate_eq_ok (c : Config) :
    validate c = .ok () ↔ Converter.validate c.capacity = .ok () ∧
      Aggregator.validate c.expression = .ok () ∧ Damper.validate c.damping = .ok () := by
  unfold validate
  rcases Converter.validate c.capacity with _ | ⟨⟩ <;> rcases Aggregator.validate c.expression with _ | ⟨⟩ <;>
    simp [bind, Except.bind]

theorem configure_of_error {e : ConfigError} (h : validate c = .error e) :
    configure c p = .error e p := by
  unfold configure
  rw [bind_ofResult, h]

/-- A pipeline with every section of a configuration, and `table` built from its
mappings. -/
def install (c : Config) (table : CapacityTable) (p : Pipeline) : Pipeline where
  converter := ⟨some ⟨c.capacity, table⟩⟩
  aggregator := { p.aggregator with expression := some c.expression }
  damper := ⟨some ⟨c.damping, c.damping.policies⟩⟩

/-- No stage refuses a section that has been checked. -/
theorem configure_of_validate (h : validate c = .ok ()) :
    ∃ table, ∀ p, configure c p = .ok () (install c table p) := by
  obtain ⟨hconverter, haggregator, hdamper⟩ := (validate_eq_ok c).mp h
  obtain ⟨table, htable⟩ := Converter.table_of_validate hconverter
  refine ⟨table, fun p => ?_⟩
  have hfirst : onConverter id (Converter.configure c.capacity) p = .ok () _ :=
    onPart_ok (Converter.configure_of_table htable _)
  have hsecond : ∀ p, onAggregator id (Aggregator.configure c.expression) p = .ok () _ := fun p =>
    onPart_ok (Aggregator.configure_of_validate haggregator _)
  have hthird : ∀ p, onDamper id (Damper.configure c.damping) p = .ok () _ := fun p =>
    onPart_ok (Damper.configure_of_validate hdamper _)
  unfold configure
  rw [bind_ofResult, h]
  dsimp only
  rw [bind_ok hfirst, bind_ok (hsecond _), hthird]
  rfl

theorem configuration_install (c : Config) (table : CapacityTable) (p : Pipeline) :
    (install c table p).configuration = some c := rfl

/-! ### Histories -/

/-- What can be asked of a pipeline. -/
inductive Operation where
  | configure (c : Config)
  | configureConverter (mappings : List Mapping)
  | configureAggregator (expression : String)
  | configureDamper (d : Damping)
  | decide (forecasts : Dictionary (Option Forecast)) (pool : Option PoolSize) (now : Instant)

/-- The pipeline that an operation leaves, failed or not. -/
def perform (p : Pipeline) : Operation → Pipeline
  | .configure c => stateOf (configure c p)
  | .configureConverter mappings => stateOf (onConverter id (Converter.configure mappings) p)
  | .configureAggregator expression => stateOf (onAggregator id (Aggregator.configure expression) p)
  | .configureDamper d => stateOf (onDamper id (Damper.configure d) p)
  | .decide forecasts pool now => stateOf (decide forecasts pool now p)

def after (p : Pipeline) (history : List Operation) : Pipeline := history.foldl perform p

/-- A decision changes nothing but the damper. -/
theorem stateOf_decide (forecasts : Dictionary (Option Forecast)) (pool : Option PoolSize)
    (now : Instant) (p : Pipeline) :
    ∃ damper, stateOf (decide forecasts pool now p) = { p with damper } := by
  have hdecide : decide forecasts pool now p =
      (ofResult ((convert p.converter forecasts).mapError .error) >>= fun units =>
        ofResult ((p.aggregator.aggregate units now).mapError (Failure.map .aggregation)) >>= fun aggregate =>
          onDamper (fun e => .error (.policy e)) (Damper.apply pool aggregate now)) p := rfl
  rw [hdecide]
  refine stateOf_ofResult_bind (P := fun p' => ∃ damper, p' = { p with damper }) _ _ p ⟨p.damper, rfl⟩ ?_
  intro units
  refine stateOf_ofResult_bind (P := fun p' => ∃ damper, p' = { p with damper }) _ _ p ⟨p.damper, rfl⟩ ?_
  intro aggregate
  exact ⟨_, stateOf_onPart⟩

theorem engine_perform (p : Pipeline) (o : Operation) :
    (p.perform o).aggregator.engine = p.aggregator.engine := by
  cases o with
  | configure c =>
    cases h : validate c with
    | ok =>
      obtain ⟨table, hconfigure⟩ := configure_of_validate h
      rw [perform, hconfigure p]
      rfl
    | error e => rw [perform, configure_of_error h, stateOf]
  | configureConverter mappings => rw [perform, onConverter, stateOf_onPart]
  | configureAggregator expression =>
    rw [perform, onAggregator, stateOf_onPart]
    exact Aggregator.engine_configure expression p.aggregator
  | configureDamper d => rw [perform, onDamper, stateOf_onPart]
  | decide forecasts pool now =>
    obtain ⟨damper, hdecide⟩ := stateOf_decide forecasts pool now p
    rw [perform, hdecide]

/-- The engine is that of the new pipeline after any history. -/
theorem engine_after (p : Pipeline) (history : List Operation) :
    (p.after history).aggregator.engine = p.aggregator.engine := by
  induction history generalizing p with
  | nil => rfl
  | cons o history ih => exact (ih _).trans (engine_perform p o)

/-- Nothing of the past is left in a configured pipeline. -/
theorem install_after (c : Config) (table : CapacityTable) (p : Pipeline) (history : List Operation) :
    install c table (p.after history) = install c table p := by
  have hengine := engine_after p history
  unfold install
  dsimp only
  rw [hengine]

/-- **Reconfiguration.** By any stopwatch and after any history, a configuration is
installed when all its sections are valid: it is then what the pipeline reports, and
the pipeline is the same as one made from that configuration, so whatever follows is
answered the same. Any other configuration is refused with the error of the
check, and nothing changes. Each stage by itself accepts exactly what its check does. -/
theorem configure_all_or_nothing (stopwatch : Expr.Stopwatch) (history : List Operation) (c : Config) :
    (match validate c with
      | .ok () => ∃ p, configure c ((new stopwatch).after history) = .ok () p ∧ p.configuration = some c ∧
          ofConfig stopwatch c = .ok p
      | .error e =>
        configure c ((new stopwatch).after history) = .error e ((new stopwatch).after history)) ∧
    (validate c = .ok () ↔ Converter.validate c.capacity = .ok () ∧
      Aggregator.validate c.expression = .ok () ∧ Damper.validate c.damping = .ok ()) ∧
    Guarded (Converter.validate c.capacity) (Converter.configure c.capacity) ∧
    Guarded (Aggregator.validate c.expression) (Aggregator.configure c.expression) ∧
    Guarded (Damper.validate c.damping) (Damper.configure c.damping) := by
  refine ⟨?_, validate_eq_ok c, Converter.configure_guarded _, Aggregator.configure_guarded _,
    Damper.configure_guarded _⟩
  cases h : validate c with
  | error e => exact configure_of_error h
  | ok =>
    obtain ⟨table, hconfigure⟩ := configure_of_validate h
    refine ⟨_, hconfigure _, configuration_install c table _, ?_⟩
    rw [install_after, ofConfig, hconfigure]

/-- The grace periods of a pipeline with their trackers. -/
def graces (p : Pipeline) : List (Duration × Tracker) :=
  p.damper.active.elim [] fun a => Policy.allGraces a.policies

/-- A minute of grace, and a forecast of four for a pool of ten. -/
def heldBack : List Operation :=
  [.configure ⟨"predictions[0]", [], ⟨0.0, .ofSeconds 60⟩⟩,
    .decide [("f", some ⟨4.0, .computeUnits, "", .ofSeconds 0 0⟩)] (some ⟨10, 10⟩) (.ofSeconds 0 0)]

/-- A refused configuration leaves a running tracker alone; an accepted one ends it. -/
example :
    ((new .still).after (heldBack ++ [.configure ⟨"predictions[0]", [], ⟨-1.0, .zero⟩⟩])).graces =
        [(.ofSeconds 60, .since (.ofSeconds 0 0))] ∧
      ((new .still).after (heldBack ++ [.configure ⟨"1", [], ⟨0.0, .ofSeconds 60⟩⟩])).graces =
        [(.ofSeconds 60, .idle)] := by
  decide +kernel

end Pipeline

end PoolScaling
