import PoolScaling.Pipeline
import PoolScaling.Proofs.Capacity.Table

/-! Conversion to compute units.

The table of a converter is always that of its mappings (`Consistent.after`), so the
mappings say which forecasts it converts and what is wrong with the others (`convert_eq`).
What has been converted is not converted again (`convert_of_convert`). A decision converts
first and sees nothing else of its forecasts, so any of them may be converted beforehand
(`conversion_transparent`). -/
namespace PoolScaling
open Change

namespace Converter

variable {v : Converter} {mappings : List Mapping}

/-! ### Histories -/

/-- The converter after attempts to configure it. -/
def after (v : Converter) (history : List (List Mapping)) : Converter :=
  history.foldl (fun v mappings => stateOf (configure mappings v)) v

/-- Whether the table of a converter, if it has one, is that of its mappings. -/
def Consistent (v : Converter) : Prop :=
  ∀ a, v.active = some a → CapacityTable.ofMappings a.mappings = .ok a.table

theorem consistent_new : Consistent new := by
  rintro a ⟨⟩

theorem Consistent.configure (h : Consistent v) (mappings : List Mapping) :
    Consistent (stateOf (configure mappings v)) := by
  unfold Converter.configure
  cases htable : CapacityTable.ofMappings mappings with
  | error e => exact h
  | ok table =>
    rintro a ⟨⟩
    exact htable

theorem Consistent.after (h : Consistent v) (history : List (List Mapping)) : Consistent (v.after history) := by
  induction history generalizing v with
  | nil => exact h
  | cons mappings history ih => exact ih (h.configure mappings)

/-! ### One forecast -/

theorem convert_some (v : Converter) (f : Forecast) :
    v.convert (some f) = match v.active with
      | none => .error .notConfigured
      | some a => if f.isComputeUnits then .ok (some f) else (convertWith a.table f).map some := rfl

theorem convertWith_eq (t : CapacityTable) (f : Forecast) :
    convertWith t f = match Dictionary.find? f.metric t.rates with
      | none => .error (.unmapped f.metric)
      | some rate =>
        if 0.0 ≤ f.value then .ok (f.withValue (f.value / rate) .computeUnits)
        else .error (.negative f.metric f.value) := by
  unfold convertWith
  rw [CapacityTable.computeUnits_eq]
  cases Dictionary.find? f.metric t.rates with
  | none => rfl
  | some rate => by_cases h : 0.0 ≤ f.value <;> simp only [h, if_true, if_false]

/-- **Conversion by the mappings.** What a converter makes of a forecast. -/
theorem convert_eq (h : Consistent v) (hv : v.configuration = some mappings) (f : Forecast) :
    v.convert (some f) =
      if f.isComputeUnits then .ok (some f)
      else match Mapping.rateIn? f.metric mappings with
        | none => .error (.unmapped f.metric)
        | some rate =>
          if 0.0 ≤ f.value then .ok (some (f.withValue (f.value / rate) .computeUnits))
          else .error (.negative f.metric f.value) := by
  obtain ⟨a, ha, rfl⟩ := Option.map_eq_some_iff.mp hv
  have htable := CapacityTable.represents_ofMappings (h a ha)
  rw [convert_some, ha]
  dsimp only
  rw [convertWith_eq, htable.find?]
  cases Mapping.rateIn? f.metric a.mappings with
  | none => rfl
  | some rate => by_cases hvalue : 0.0 ≤ f.value <;> simp only [hvalue, if_true, if_false] <;> rfl

/-- What is in compute units, or has a rate and a value from zero on, is converted. -/
theorem exists_convert (h : Consistent v) (hv : v.configuration = some mappings) {f : Forecast}
    (hf : f.isComputeUnits = true ∨ f.metric ∈ mappings.map Mapping.metric ∧ 0.0 ≤ f.value) :
    ∃ g, v.convert (some f) = .ok g := by
  rw [convert_eq h hv]
  by_cases hunits : f.isComputeUnits = true
  · rw [if_pos hunits]
    exact ⟨_, rfl⟩
  · obtain ⟨hmetric, hvalue⟩ := hf.resolve_left hunits
    rw [if_neg hunits]
    cases hrate : Mapping.rateIn? f.metric mappings with
    | none => exact absurd hmetric (Mapping.rateIn?_eq_none_iff.mp hrate)
    | some rate => exact ⟨_, if_pos hvalue⟩

/-- Nothing else is, and a metric without a rate is the error that comes first. -/
theorem convert_error (h : Consistent v) (hv : v.configuration = some mappings) {f : Forecast}
    (hf : ¬ (f.isComputeUnits = true ∨ f.metric ∈ mappings.map Mapping.metric ∧ 0.0 ≤ f.value)) :
    v.convert (some f) = .error
      (if f.metric ∈ mappings.map Mapping.metric then .negative f.metric f.value else .unmapped f.metric) := by
  obtain ⟨hunits, hother⟩ := not_or.mp hf
  rw [convert_eq h hv, if_neg hunits]
  cases hrate : Mapping.rateIn? f.metric mappings with
  | none => rw [if_neg (Mapping.rateIn?_eq_none_iff.mp hrate)]
  | some rate =>
    have hmetric : f.metric ∈ mappings.map Mapping.metric := by
      by_contra hmetric
      rw [Mapping.rateIn?_eq_none_iff.mpr hmetric] at hrate
      cases hrate
    rw [if_pos hmetric]
    exact if_neg fun hvalue => hother ⟨hmetric, hvalue⟩

theorem isComputeUnits_of_convertWith {t : CapacityTable} {f units : Forecast} (h : convertWith t f = .ok units) :
    units.isComputeUnits = true ∧ units.metric = f.metric ∧ units.timestamp = f.timestamp := by
  rw [convertWith_eq] at h
  split at h
  · cases h
  · split at h
    · cases h
      exact ⟨rfl, rfl, rfl⟩
    · cases h

/-- What comes of a conversion is in compute units, for the same metric and time. -/
theorem isComputeUnits_of_convert {f : Forecast} {g : Option Forecast} (h : v.convert (some f) = .ok g) :
    ∃ a units, v.active = some a ∧ g = some units ∧ units.isComputeUnits = true ∧ units.metric = f.metric ∧
      units.timestamp = f.timestamp := by
  rw [convert_some] at h
  cases hv : v.active with
  | none =>
    rw [hv] at h
    cases h
  | some a =>
    rw [hv] at h
    dsimp only at h
    split at h
    · rename_i hf
      cases h
      exact ⟨a, f, rfl, rfl, hf, rfl, rfl⟩
    · cases hunits : convertWith a.table f with
      | error e =>
        rw [hunits] at h
        cases h
      | ok units =>
        rw [hunits] at h
        cases h
        exact ⟨a, units, rfl, rfl, isComputeUnits_of_convertWith hunits⟩

/-- **Conversion is idempotent.** -/
theorem convert_of_convert {f g : Option Forecast} (h : v.convert f = .ok g) : v.convert g = .ok g := by
  cases f with
  | none =>
    cases h
    rfl
  | some f =>
    obtain ⟨a, units, hv, rfl, hunits, -, -⟩ := isComputeUnits_of_convert h
    rw [convert_some, hv]
    exact if_pos hunits

/-- Whether a forecast may stand for another: it is the same one, or what that converts to. -/
def StandsFor (v : Converter) (f g : String × Option Forecast) : Prop :=
  f.1 = g.1 ∧ (g.2 = f.2 ∨ v.convert f.2 = .ok g.2)

end Converter

namespace Pipeline

/-! ### Decisions -/

theorem convert_standsFor {v : Converter} {forecasts converted : Dictionary (Option Forecast)}
    (h : List.Forall₂ v.StandsFor forecasts converted) : convert v converted = convert v forecasts := by
  induction h with
  | nil => rfl
  | @cons f g forecasts converted hfirst hrest ih =>
    obtain ⟨id, f⟩ := f
    obtain ⟨id', g⟩ := g
    obtain ⟨rfl, hsame | hunits⟩ := hfirst
    · obtain rfl : g = f := hsame
      rw [convert, convert, ih]
    · rw [convert, convert, ih, hunits, Converter.convert_of_convert hunits]

/-- **Conversion.** A converter that has been configured, whatever has been tried with it,
converts a forecast exactly when this is in compute units already or its metric is mapped and
its value is from zero on. Otherwise it reports that the metric is not mapped, or else that
the value is negative. What it returns is in compute units, for the same metric and time, and
converts to itself. So a decision answers the same, and leaves the same pipeline, when any of
its forecasts that can be converted have been. -/
theorem conversion_transparent :
    (∀ history mappings, (Converter.new.after history).configuration = some mappings → ∀ f : Forecast,
      let v := Converter.new.after history
      if f.isComputeUnits = true ∨ f.metric ∈ mappings.map Mapping.metric ∧ 0.0 ≤ f.value then
        ∃ units, v.convert (some f) = .ok (some units) ∧ units.isComputeUnits = true ∧ units.metric = f.metric ∧
          units.timestamp = f.timestamp ∧ v.convert (some units) = .ok (some units)
      else
        v.convert (some f) = .error
          (if f.metric ∈ mappings.map Mapping.metric then .negative f.metric f.value else .unmapped f.metric)) ∧
    ∀ (p : Pipeline) forecasts converted pool now, List.Forall₂ p.converter.StandsFor forecasts converted →
      decide converted pool now p = decide forecasts pool now p := by
  constructor
  · intro history mappings hv f v
    have hconsistent := Converter.consistent_new.after history
    split
    · rename_i hf
      obtain ⟨g, hg⟩ := Converter.exists_convert hconsistent hv hf
      obtain ⟨a, units, -, rfl, hunits, hmetric, htime⟩ := Converter.isComputeUnits_of_convert hg
      exact ⟨units, hg, hunits, hmetric, htime, Converter.convert_of_convert hg⟩
    · rename_i hf
      exact Converter.convert_error hconsistent hv hf
  · intro p forecasts converted pool now h
    unfold decide
    rw [PoolScaling.get_bind, PoolScaling.get_bind, convert_standsFor h]

/-- A converter that has refused a second configuration, a forecast for it, and a decision on
the forecast before and after conversion. -/
theorem conversion_transparent_rps :
    let v := Converter.new.after [[⟨"rps", 10.0⟩], [⟨"rps", -5.0⟩]]
    let p : Pipeline := ⟨v, ⟨.standard .still, some "a.prediction"⟩, ⟨some ⟨.none, Damping.none.policies⟩⟩⟩
    let f : Forecast := ⟨25.0, .metric, "rps", .ofSeconds 0 0⟩
    let units : Forecast := ⟨2.5, .computeUnits, "rps", .ofSeconds 0 0⟩
    v.configuration = some [⟨"rps", 10.0⟩] ∧ v.convert (some f) = .ok (some units) ∧
      v.convert (some units) = .ok (some units) ∧
      decide [("a", some units)] none (.ofSeconds 0 0) p = decide [("a", some f)] none (.ofSeconds 0 0) p := by
  intro v p f units
  have hv : v.configuration = some [⟨"rps", 10.0⟩] := rfl
  have hrate : Mapping.rateIn? "rps" [⟨"rps", 10.0⟩] = some 10.0 := rfl
  have hquotient : (25.0 : Float) / 10.0 = 2.5 := by decide +kernel
  have hconvert : v.convert (some f) = .ok (some units) := by
    rw [Converter.convert_eq (Converter.consistent_new.after _) hv, if_neg (by decide), hrate]
    dsimp only
    rw [if_pos (by decide), hquotient]
    rfl
  obtain ⟨hforecasts, hdecisions⟩ := conversion_transparent
  obtain ⟨units', hunits', -, -, -, hagain⟩ :=
    (if_pos (.inr ⟨List.mem_singleton_self _, by decide⟩)).mp (hforecasts _ _ hv f)
  rw [hconvert] at hunits'
  cases hunits'
  exact ⟨hv, hconvert, hagain, hdecisions p _ _ _ _ (.cons ⟨rfl, .inr hconvert⟩ .nil)⟩

end Pipeline

end PoolScaling
