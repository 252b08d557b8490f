import PoolScaling.Pipeline
import PoolScaling.Proofs.Run

/-! Failed decisions.

A decision changes nothing before it calls the damper, and a damper that fails changes
nothing either, so a failed decision leaves no trace (`decide_traceless`). What has
failed can therefore be left out of a run without a difference to the rest
(`attempts_succeeding`). A decision that cannot convert a forecast names the first one
in the order of the ids (`decide_eq_capacity_iff`). -/
namespace PoolScaling
open Change

/-! ### Decisions -/

theorem Damper.apply_traceless (pool : Option PoolSize) (candidate : Option Float) (now : Instant) :
    Traceless (Damper.apply pool candidate now) := by
  refine Traceless.get_bind fun d => ?_
  cases d.active with
  | none =>
    intro s e s' hc
    cases hc
    rfl
  | some a => exact traceless_of_ok fun s => ⟨_, _, rfl⟩

namespace Pipeline

variable {v : Converter} {forecasts : Dictionary (Option Forecast)} {id : String} {reason : CapacityError}

theorem decide_traceless (forecasts : Dictionary (Option Forecast)) (pool : Option PoolSize) (now : Instant) :
    Traceless (decide forecasts pool now) := by
  refine Traceless.get_bind fun p => ?_
  refine Traceless.ofResult_bind _ fun units => ?_
  refine Traceless.ofResult_bind _ fun aggregate => ?_
  exact (Damper.apply_traceless pool aggregate now).onPart fun _ => rfl

/-- What a decision is asked on. -/
structure Request where
  forecasts : Dictionary (Option Forecast)
  pool : Option PoolSize
  now : Instant

def answer (r : Request) : Change Pipeline (Failure DecisionError) (Option Float) :=
  decide r.forecasts r.pool r.now

/-! ### Conversions -/

/-- The first forecast of a list that cannot be converted is the error. -/
theorem convert_eq_capacity_iff :
    convert v forecasts = .error (.capacity id reason) ↔
      ∃ before f after, forecasts = before ++ (id, f) :: after ∧ v.convert f = .error reason ∧
        ∀ g ∈ before, ∃ units, v.convert g.2 = .ok units := by
  induction forecasts with
  | nil =>
    constructor
    · nofun
    · rintro ⟨before, f, after, hsplit, -⟩
      cases before <;> cases hsplit
  | cons first rest ih =>
    obtain ⟨id', f'⟩ := first
    cases hfirst : v.convert f' with
    | error e =>
      have hconvert : convert v ((id', f') :: rest) = .error (.capacity id' e) := by
        rw [convert, hfirst]
        rfl
      rw [hconvert]
      constructor
      · intro heq
        cases heq
        exact ⟨[], f', rest, rfl, hfirst, fun g hg => absurd hg List.not_mem_nil⟩
      · rintro ⟨before, f, after, hsplit, hf, hbefore⟩
        rcases List.cons_eq_append_iff.mp hsplit with ⟨rfl, hhead⟩ | ⟨before, rfl, -⟩
        · cases hhead
          rw [hfirst] at hf
          cases hf
          rfl
        · obtain ⟨units, hunits⟩ := hbefore _ List.mem_cons_self
          rw [hfirst] at hunits
          cases hunits
    | ok units =>
      have hconvert : convert v ((id', f') :: rest) = .error (.capacity id reason) ↔
          convert v rest = .error (.capacity id reason) := by
        rw [convert, hfirst]
        cases convert v rest with
        | error e => rfl
        | ok _ => exact iff_of_false nofun nofun
      rw [hconvert, ih]
      constructor
      · rintro ⟨before, f, after, rfl, hf, hbefore⟩
        refine ⟨(id', f') :: before, f, after, rfl, hf, fun g hg => ?_⟩
        rcases List.mem_cons.mp hg with rfl | hg
        · exact ⟨units, hfirst⟩
        · exact hbefore g hg
      · rintro ⟨before, f, after, hsplit, hf, hbefore⟩
        rcases List.cons_eq_append_iff.mp hsplit with ⟨rfl, hhead⟩ | ⟨before, rfl, hrest⟩
        · cases hhead
          rw [hfirst] at hf
          cases hf
        · exact ⟨before, f, after, hrest, hf, fun g hg => hbefore g (List.mem_cons_of_mem _ hg)⟩

/-- In the order of the ids, the forecasts before the first that cannot be converted are
those of smaller ids. -/
theorem convert_eq_capacity_iff_of_ordered (h : Dictionary.Ordered forecasts) :
    convert v forecasts = .error (.capacity id reason) ↔
      ∃ f, (id, f) ∈ forecasts ∧ v.convert f = .error reason ∧
        ∀ id' f', (id', f') ∈ forecasts → id' < id → ∃ units, v.convert f' = .ok units := by
  rw [convert_eq_capacity_iff]
  constructor
  · rintro ⟨before, f, after, rfl, hf, hbefore⟩
    refine ⟨f, by simp, hf, fun id' f' hmem hlt => ?_⟩
    rcases List.mem_append.mp hmem with hmem | hmem
    · exact hbefore _ hmem
    · have hafter := (List.pairwise_append.mp h).2.1
      rcases List.mem_cons.mp hmem with heq | hmem
      · cases heq
        exact absurd hlt (String.lt_irrefl id)
      · exact absurd hlt (String.lt_asymm ((List.pairwise_cons.mp hafter).1 _ hmem))
  · rintro ⟨f, hmem, hf, hsmaller⟩
    obtain ⟨before, after, rfl⟩ := List.append_of_mem hmem
    refine ⟨before, f, after, rfl, hf, fun g hg => ?_⟩
    have hlt := (List.pairwise_append.mp h).2.2 g hg (id, f) List.mem_cons_self
    exact hsmaller g.1 g.2 (List.mem_append_left _ hg) hlt

/-- What a decision does once all forecasts are converted. -/
theorem decide_of_convert {pool : Option PoolSize} {now : Instant} {p : Pipeline}
    {units : Dictionary (Option Forecast)} (h : convert p.converter forecasts = .ok units) :
    decide forecasts pool now p =
      match p.aggregator.aggregate units now with
      | .ok aggregate =>
        onDamper (fun e => Failure.error (DecisionError.policy e)) (Damper.apply pool aggregate now) p
      | .error failure => .error (failure.map DecisionError.aggregation) p := by
  unfold decide
  rw [PoolScaling.get_bind, h]
  show (ofResult ((p.aggregator.aggregate units now).mapError (Failure.map DecisionError.aggregation)) >>=
    fun aggregate => (onDamper (fun e => .error (.policy e)) (Damper.apply pool aggregate now) :
      Change Pipeline (Failure DecisionError) (Option Float))) p = _
  cases p.aggregator.aggregate units now <;> rfl

/-- A decision fails for a forecast exactly when the conversion does. -/
theorem decide_eq_capacity_iff {pool : Option PoolSize} {now : Instant} {p p' : Pipeline} :
    decide forecasts pool now p = .error (.error (.capacity id reason)) p' ↔
      convert p.converter forecasts = .error (.capacity id reason) ∧ p' = p := by
  have hfails : ∀ e, convert p.converter forecasts = .error e →
      decide forecasts pool now p = .error (.error e) p := by
    intro e hconvert
    unfold decide
    rw [PoolScaling.get_bind, hconvert]
    rfl
  constructor
  · intro h
    refine ⟨?_, decide_traceless forecasts pool now _ _ _ h⟩
    cases hconvert : convert p.converter forecasts with
    | error e =>
      rw [hfails e hconvert] at h
      cases h
      rfl
    | ok units =>
      rw [decide_of_convert hconvert] at h
      cases haggregate : p.aggregator.aggregate units now with
      | error failure =>
        rw [haggregate] at h
        cases failure <;> cases h
      | ok aggregate =>
        rw [haggregate] at h
        dsimp only at h
        unfold onDamper onPart at h
        split at h <;> cases h
  · rintro ⟨hconvert, rfl⟩
    exact hfails _ hconvert

end Pipeline

end PoolScaling
