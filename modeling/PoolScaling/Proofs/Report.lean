import PoolScaling.CommandLine
import PoolScaling.Proofs.Autoscaler.ScaleDownGuard
import PoolScaling.Proofs.Autoscaler.Stopwatch
import PoolScaling.Proofs.Forecaster
import PoolScaling.Proofs.Pipeline.Reconfiguration

/-! Reports and cycles.

A report is made by a new pipeline from forecasts that are at hand, a cycle asks
forecasters. When these yield the same forecasts, both put the same question to the
pipeline (`Yields.gather_eq`), so the first cycle of an autoscaler and the report end
alike (`Report.decision_make`, `CommandLine.report_agrees`). Each has its own stopwatch, and
either may end at the timeout where the other does not. The tracker of a new
pipeline is idle, so neither makes a pool smaller at once when there is a grace period
(`Autoscaler.desired_le_of_first`). -/
namespace PoolScaling
open Change

variable {stopwatch stopwatch' : Expr.Stopwatch} {c : Config} {p : Pipeline}
  {forecasts : Dictionary (Option Forecast)} {pool : Option PoolSize} {now : Instant}

/-! ### Forecasters -/

/-- Whether forecasters, one for each id, yield the given forecasts. -/
structure Yields (forecasters : List Forecaster) (pool : Option PoolSize) (now : Instant)
    (forecasts : Dictionary (Option Forecast)) : Prop where
  distinct : (forecasters.map Forecaster.id).Nodup
  mem_iff : ∀ id forecast, (id, forecast) ∈ forecasts ↔
    ∃ f ∈ forecasters, f.id = id ∧ f.forecast pool now = forecast

/-- What is gathered is what the forecasters yield. -/
theorem Yields.gather_eq {forecasters : List Forecaster} (h : Yields forecasters pool now forecasts)
    (hforecasts : Dictionary.Ordered forecasts) : gather forecasters pool now = forecasts := by
  rw [gather_eq_ofList]
  refine (Dictionary.ordered_ofList _).ext hforecasts fun id forecast => ?_
  have hkeys : Dictionary.keys (forecasters.map fun f => (f.id, f.forecast pool now)) =
      forecasters.map Forecaster.id := by
    simp [Dictionary.keys]
  rw [Dictionary.mem_ofList (hkeys ▸ h.distinct), h.mem_iff]
  simp

/-- Forecasters that yield the same forecasts at all times. -/
def constantly (forecasts : Dictionary (Option Forecast)) : List Forecaster :=
  forecasts.map fun (id, forecast) => ⟨id, fun _ _ => .ok forecast⟩

theorem yields_constantly (h : Dictionary.Ordered forecasts) (pool : Option PoolSize) (now : Instant) :
    Yields (constantly forecasts) pool now forecasts where
  distinct := by
    have hids : (constantly forecasts).map Forecaster.id = Dictionary.keys forecasts := by
      simp [constantly, Dictionary.keys]
    rw [hids]
    exact h.nodup
  mem_iff id forecast := by
    constructor
    · intro hmem
      exact ⟨_, List.mem_map_of_mem hmem, rfl, rfl⟩
    · rintro ⟨f, hmem, rfl, rfl⟩
      obtain ⟨pair, hpair, rfl⟩ := List.mem_map.mp hmem
      exact hpair

/-! ### New pipelines -/

namespace Pipeline

theorem ofConfig_of_error {e : ConfigError} (h : validate c = .error e) :
    ofConfig stopwatch c = .error e := by
  rw [ofConfig, configure_of_error h]

/-- A configuration makes one pipeline, up to the stopwatch. -/
theorem ofConfig_of_validate (h : validate c = .ok ()) :
    ∃ p : Pipeline, ∀ stopwatch, ofConfig stopwatch c = .ok (p.timedBy stopwatch) ∧
      configure c (new stopwatch) = .ok () (p.timedBy stopwatch) := by
  obtain ⟨table, hconfigure⟩ := configure_of_validate h
  refine ⟨install c table (new .still), fun stopwatch => ?_⟩
  have hnew : configure c (new stopwatch) = .ok () ((install c table (new .still)).timedBy stopwatch) :=
    hconfigure (new stopwatch)
  exact ⟨by rw [ofConfig, hnew], hnew⟩

end Pipeline

/-! ### First cycles -/

/-- With a grace period, the first cycle does not make the pool smaller. -/
theorem Autoscaler.desired_le_of_first {a a' : Autoscaler} {o : Occasion} {size : PoolSize} {n : UInt32}
    (hconfigure : Pipeline.configure c (.new stopwatch) = .ok () p) (hg : c.damping.grace ≠ .zero) (ha : a.pipeline = p)
    (hpool : o.pool = some size) (h : attend o a = .ok (.scaleTo n) a') : size.desired ≤ n := by
  obtain ⟨hd, hdamper⟩ := Pipeline.running_of_configure hconfigure
  cases haggregate : a.pipeline.aggregateOn o with
  | error e =>
    obtain ⟨_, hattend, -⟩ := attend_error haggregate
    rw [hattend] at h
    cases h
  | ok aggregate =>
    obtain ⟨_, hattend, -⟩ := attend_ok hd (ha ▸ hdamper) haggregate
    rw [hattend] at h
    injection h with hdecision
    by_contra hlt
    have hfinite : ∀ c, aggregate = some c → c.isFinite = true := by
      rintro c rfl
      exact Pipeline.isFinite_of_aggregateOn haggregate
    obtain ⟨-, hpasses⟩ := Reading.down_of_scaleTo_lt hd hpool hfinite hdecision (UInt32.not_le.mp hlt)
    -- An idle tracker lets no excess pass.
    rw [Damping.passes_of_grace hg] at hpasses
    cases hpasses

/-! ### Reports -/

namespace Report

theorem make_of_error {e : ConfigError} (h : Pipeline.validate c = .error e) :
    make stopwatch c forecasts pool now = .error (.error (.config e)) := by
  rw [make, Pipeline.ofConfig_of_error h]

/-- A new pipeline decides for a report as it does for a cycle. -/
theorem decision_make {a : Autoscaler} (hp : Pipeline.ofConfig stopwatch c = .ok p) (ha : a.pipeline = p)
    (hgather : gather a.forecasters a.pool now = forecasts) :
    (make stopwatch c forecasts a.pool now).map Report.decision =
      (result (a.cycle now)).mapError (Failure.map .decision) := by
  subst ha hgather
  rw [make, hp, Autoscaler.cycle_eq]
  dsimp only
  cases Pipeline.decide (gather a.forecasters a.pool now) a.pool now a.pipeline with
  | ok demand pipeline => rfl
  | error failure pipeline => rfl

/-- A field of a report. -/
def field? (r : Report) (name : String) : Option Data :=
  match r.toData with
  | .table fields => Dictionary.find? name fields
  | _ => none

theorem field?_scale_to (r : Report) :
    r.field? "scale_to" = some (r.decision.target?.elim .null fun n => .integer n.toNat) := rfl

theorem field?_scale_to_eq_null (r : Report) : r.field? "scale_to" = some .null ↔ r.decision = .noChange := by
  rw [field?_scale_to]
  cases r.decision with
  | noChange => exact iff_of_true rfl rfl
  | scaleTo n => exact iff_of_false nofun nofun

theorem field?_scale_to_eq_integer (r : Report) (n : UInt32) :
    r.field? "scale_to" = some (.integer n.toNat) ↔ r.decision = .scaleTo n := by
  rw [field?_scale_to]
  cases r.decision with
  | noChange => exact iff_of_false nofun nofun
  | scaleTo m => simp [Decision.target?, UInt32.toNat_inj]

end Report

/-! ### The command line -/

namespace CommandLine

/-- Whether a report that is not about the configuration ends as a cycle does. -/
structure Agrees (reported : Except (Failure CommandError) Report) (cycled : Autoscaler.Outcome) : Prop where
  error : ∀ e, reported = .error (.error (.decision e)) ↔ cycled = .error (.error e)
  crash : reported = .error .crash ↔ cycled = .error .crash
  scaleTo : ∀ n : UInt32, (∃ r, reported = .ok r ∧ r.field? "scale_to" = some (.integer n.toNat)) ↔
    cycled = .ok (.scaleTo n)
  noChange : (∃ r, reported = .ok r ∧ r.field? "scale_to" = some .null) ↔ cycled = .ok .noChange

/-- It does when both come to the same decision. -/
theorem agrees_of_decision {reported : Except (Failure CommandError) Report} {cycled : Autoscaler.Outcome}
    (h : reported.map Report.decision = cycled.mapError (Failure.map .decision)) : Agrees reported cycled := by
  cases reported with
  | error failure =>
    cases cycled with
    | ok decision => cases h
    | error failure' =>
      cases h
      exact {
        error := fun e => by cases failure' <;> simp [Failure.map]
        crash := by cases failure' <;> simp [Failure.map]
        scaleTo := fun n => by simp
        noChange := by simp }
  | ok r =>
    cases cycled with
    | error failure => cases h
    | ok decision =>
      cases h
      exact {
        error := fun e => by simp
        crash := by simp
        scaleTo := fun n => by simp [Report.field?_scale_to_eq_integer]
        noChange := by simp [Report.field?_scale_to_eq_null] }

theorem report_of_error {e : ConfigError} (h : Pipeline.validate c = .error e) :
    report stopwatch c forecasts pool now = .error (.error (.invalid e)) := by
  rw [report, Report.make_of_error h]
  rfl

theorem validate_of_report {e : ConfigError}
    (h : report stopwatch c forecasts pool now = .error (.error (.invalid e))) : Pipeline.validate c = .error e := by
  cases hvalid : Pipeline.validate c with
  | error e' =>
    rw [report_of_error hvalid] at h
    cases h
    rfl
  | ok _ =>
    obtain ⟨p, hp⟩ := Pipeline.ofConfig_of_validate hvalid
    rw [report, Report.make, (hp stopwatch).1] at h
    dsimp only at h
    split at h
    · rename_i failure _ _
      cases failure <;> cases h
    · cases h

theorem decision_report {a : Autoscaler} (hp : Pipeline.ofConfig stopwatch c = .ok p) (ha : a.pipeline = p)
    (hgather : gather a.forecasters a.pool now = forecasts) :
    (report stopwatch c forecasts a.pool now).map Report.decision =
      (result (a.cycle now)).mapError (Failure.map .decision) := by
  have hmap : ∀ x : Except (Failure ReportError) Report, ∀ f : Failure ReportError → Failure CommandError,
      (x.mapError f).map Report.decision = (x.map Report.decision).mapError f := by
    rintro (_ | _) f <;> rfl
  rw [report, hmap, Report.decision_make hp ha hgather]
  rcases result (a.cycle now) with (e | _) | decision <;> rfl

/-- A file that can be loaded is checked as its configuration is. -/
theorem check_of_load {read : String → Option String} {path : String} (h : Config.load read path = .ok c)
    (e : ConfigError) : check read path = .error (.invalidFile path e) ↔ Pipeline.validate c = .error e := by
  rw [check, h]
  dsimp only
  cases Pipeline.validate c with
  | ok _ => exact iff_of_false nofun nofun
  | error e' => simp

/-- Whether a report ended at the timeout. -/
def timedOut : Except (Failure CommandError) Report → Bool
  | .error (.error (.decision e)) => e.isTimeout
  | _ => false

theorem timedOut_of_decision {reported : Except (Failure CommandError) Report} {cycled : Autoscaler.Outcome}
    (h : reported.map Report.decision = cycled.mapError (Failure.map .decision)) :
    timedOut reported = Pipeline.timedOut cycled := by
  cases reported with
  | error failure =>
    cases cycled with
    | ok decision => cases h
    | error failure' =>
      cases h
      cases failure' <;> rfl
  | ok r =>
    cases cycled with
    | error failure => cases h
    | ok decision => rfl

theorem agrees_cycle {a : Autoscaler} (hforecasts : Dictionary.Ordered forecasts)
    (hp : Pipeline.ofConfig stopwatch c = .ok p) (ha : a.pipeline = p)
    (hyields : Yields a.forecasters a.pool now forecasts) :
    Agrees (report stopwatch c forecasts a.pool now) (result (a.cycle now)) :=
  agrees_of_decision (decision_report hp ha (hyields.gather_eq hforecasts))

/-- Stopwatches make no difference where nothing ends at the timeout. -/
theorem agrees_cycle_timedBy {a : Autoscaler} (hforecasts : Dictionary.Ordered forecasts)
    (hp : Pipeline.ofConfig stopwatch c = .ok (a.pipeline.timedBy stopwatch))
    (hyields : Yields a.forecasters a.pool now forecasts)
    (hreported : timedOut (report stopwatch c forecasts a.pool now) = false)
    (hcycled : Pipeline.timedOut (result (a.cycle now)) = false) :
    Agrees (report stopwatch c forecasts a.pool now) (result (a.cycle now)) := by
  have hdecision := decision_report (a := a.timedBy stopwatch) hp rfl (hyields.gather_eq hforecasts)
  have hsame := Autoscaler.result_cycle_timedBy hcycled ((timedOut_of_decision hdecision).symm.trans hreported)
  rw [hsame] at hdecision
  exact agrees_of_decision hdecision

/-- With a grace period, a report does not make the pool smaller. -/
theorem desired_le_of_report {size : PoolSize} {r : Report} {n : UInt32}
    (hforecasts : Dictionary.Ordered forecasts) (hg : c.damping.grace ≠ .zero)
    (hr : report stopwatch c forecasts (some size) now = .ok r)
    (hn : r.field? "scale_to" = some (.integer n.toNat)) : size.desired ≤ n := by
  cases hvalid : Pipeline.validate c with
  | error e =>
    rw [report_of_error hvalid] at hr
    cases hr
  | ok _ =>
    obtain ⟨p, hp⟩ := Pipeline.ofConfig_of_validate hvalid
    obtain ⟨hp, hconfigure⟩ := hp stopwatch
    -- Some forecasters yield these forecasts, so the report stands for a first cycle.
    obtain ⟨a, ha, hpool, hyields⟩ : ∃ a : Autoscaler, a.pipeline = p.timedBy stopwatch ∧ a.pool = some size ∧
        Yields a.forecasters a.pool now forecasts :=
      ⟨⟨constantly forecasts, none, .manual now, p.timedBy stopwatch, some size, []⟩, rfl, rfl,
        yields_constantly hforecasts _ _⟩
    have hagrees := agrees_cycle hforecasts hp ha hyields
    rw [hpool] at hagrees
    have hcycle := (hagrees.scaleTo n).mp ⟨r, hr, hn⟩
    have hattend := Autoscaler.attend_eq ⟨a.forecasters, a.pool, now⟩ a
    cases hresult : a.cycle now with
    | error failure a' =>
      rw [hresult] at hcycle
      cases hcycle
    | ok decision a' =>
      rw [hresult] at hcycle
      cases hcycle
      exact Autoscaler.desired_le_of_first hconfigure hg ha hpool (hattend.trans hresult)

/-- **Reports and cycles agree.** A report is refused for the configuration exactly when
checking it fails. Otherwise it ends as the first cycle of an autoscaler with this
configuration does whose forecasters yield its forecasts. Each of the two has its own
stopwatch; when these differ, that they agree takes that neither ends at the timeout. With a
grace period a report does not make the pool smaller. -/
theorem report_agrees (stopwatch stopwatch' : Expr.Stopwatch) (c : Config)
    (forecasts : Dictionary (Option Forecast)) (pool : Option PoolSize) (now : Instant)
    (hforecasts : Dictionary.Ordered forecasts) :
    (∀ e, report stopwatch c forecasts pool now = .error (.error (.invalid e)) ↔
      Pipeline.validate c = .error e) ∧
    (∀ read path, Config.load read path = .ok c →
      ∀ e, check read path = .error (.invalidFile path e) ↔ Pipeline.validate c = .error e) ∧
    (Pipeline.validate c = .ok () → ∃ p, Pipeline.ofConfig stopwatch' c = .ok p ∧
      ∀ a : Autoscaler, a.pipeline = p → a.pool = pool → Yields a.forecasters pool now forecasts →
        (stopwatch = stopwatch' ∨ timedOut (report stopwatch c forecasts pool now) = false ∧
          Pipeline.timedOut (result (a.cycle now)) = false) →
        Agrees (report stopwatch c forecasts pool now) (result (a.cycle now))) ∧
    (c.damping.grace ≠ .zero → ∀ size, pool = some size → ∀ r (n : UInt32),
      report stopwatch c forecasts pool now = .ok r → r.field? "scale_to" = some (.integer n.toNat) →
        size.desired ≤ n) := by
  refine ⟨fun e => ⟨validate_of_report, report_of_error⟩, fun read path => check_of_load, fun hvalid => ?_, ?_⟩
  · obtain ⟨p, hp⟩ := Pipeline.ofConfig_of_validate hvalid
    refine ⟨p.timedBy stopwatch', (hp stopwatch').1, ?_⟩
    rintro a ha rfl hyields (rfl | ⟨hreported, hcycled⟩)
    · exact agrees_cycle hforecasts (hp stopwatch).1 ha hyields
    · have hsame : a.pipeline.timedBy stopwatch = p.timedBy stopwatch := by
        rw [ha]
        rfl
      exact agrees_cycle_timedBy hforecasts (hsame ▸ (hp stopwatch).1) hyields hreported hcycled
  · rintro hg size rfl r n hr hn
    exact desired_le_of_report hforecasts hg hr hn

/-- The first prediction, with a minute of grace. -/
def minuteOfGrace : Config := ⟨"predictions[0]", [], ⟨0.5, .ofSeconds 60⟩⟩

/-- A stopwatch on which every step takes a millisecond. -/
def millisecondSteps : Expr.Stopwatch := fun step => .ofMillis step

/-- A new autoscaler with a demand of twelve in a pool of ten. -/
def twelveOfTen : Autoscaler :=
  { (Autoscaler.fresh minuteOfGrace).timedBy millisecondSteps with
    forecasters := [.computeUnits "f" 12.0], pool := some ⟨10, 10⟩ }

/-- A cycle that takes time and a report that takes none. -/
theorem report_agrees_twelve_of_ten :
    ∃ forecasts, Dictionary.Ordered forecasts ∧
      Yields twelveOfTen.forecasters (some ⟨10, 10⟩) (.ofSeconds 0 0) forecasts ∧
      ∃ r, report .still minuteOfGrace forecasts (some ⟨10, 10⟩) (.ofSeconds 0 0) = .ok r ∧
        r.field? "scale_to" = some (.integer 12) ∧
        result (twelveOfTen.cycle (.ofSeconds 0 0)) = .ok (.scaleTo 12) ∧ (10 : UInt32) ≤ 12 := by
  let forecasts : Dictionary (Option Forecast) := [("f", some ⟨12.0, .computeUnits, "", .ofSeconds 0 0⟩)]
  have hordered : Dictionary.Ordered forecasts := List.pairwise_singleton _ _
  have hyields : Yields twelveOfTen.forecasters (some ⟨10, 10⟩) (.ofSeconds 0 0) forecasts := {
    distinct := List.nodup_singleton _
    mem_iff := by
      intro id forecast
      simp [twelveOfTen, forecasts, Forecaster.forecast, Forecaster.computeUnits, eq_comm] }
  have hvalid : Pipeline.validate minuteOfGrace = .ok () := eq_ok_of_toOption (by decide +kernel)
  have hcycle : twelveOfTen.cycle (.ofSeconds 0 0) = .ok (.scaleTo 12) _ := eq_ok_of_answer? (by decide +kernel)
  have hreported : timedOut (report .still minuteOfGrace forecasts (some ⟨10, 10⟩) (.ofSeconds 0 0)) = false := by
    decide +kernel
  obtain ⟨-, -, hagrees, hgrace⟩ :=
    report_agrees .still millisecondSteps minuteOfGrace forecasts (some ⟨10, 10⟩) (.ofSeconds 0 0) hordered
  obtain ⟨p, hp, hagrees⟩ := hagrees hvalid
  have hpipeline : twelveOfTen.pipeline = p := by
    obtain ⟨p', hp'⟩ := Pipeline.ofConfig_of_validate hvalid
    cases hp.symm.trans (hp' _).1
    have hfresh : (Autoscaler.fresh minuteOfGrace).pipeline = p'.timedBy .still :=
      congrArg stateOf (hp' .still).2
    show (Autoscaler.fresh minuteOfGrace).pipeline.timedBy millisecondSteps = _
    rw [hfresh]
    rfl
  have hresult : result (twelveOfTen.cycle (.ofSeconds 0 0)) = .ok (.scaleTo 12) := by
    rw [hcycle]
    rfl
  have hcycled : Pipeline.timedOut (result (twelveOfTen.cycle (.ofSeconds 0 0))) = false := by
    rw [hresult]
    rfl
  obtain ⟨r, hr, hn⟩ :=
    ((hagrees twelveOfTen hpipeline rfl hyields (.inr ⟨hreported, hcycled⟩)).scaleTo 12).mpr hresult
  exact ⟨forecasts, hordered, hyields, r, hr, hn, hresult, hgrace (by decide) ⟨10, 10⟩ rfl r 12 hr hn⟩

end CommandLine

end PoolScaling
