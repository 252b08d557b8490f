import Mathlib.Data.List.Nodup
import PoolScaling.Forecaster
import PoolScaling.Proofs.Dictionary

/-! Forecasters.

What is gathered from forecasters is one forecast for each id, that of the last forecaster
with it (`find?_gather`). A dictionary is its look-ups, so nothing else of the list of
forecasters is left in it (`gather_congr`): neither their order, as long as ids are
distinct, nor those with a later one of the same id, nor whether one fails or is absent. -/
namespace PoolScaling

/-! ### Forecasts -/

namespace Forecaster

/-- What a forecaster contributes to a decision. One that fails has no forecast. -/
def forecast (f : Forecaster) (pool : Option PoolSize) (now : Instant) : Option Forecast :=
  match f.predict pool now with
  | .ok forecast => forecast
  | .error _ => none

/-- The forecaster that has no forecast where `f` fails. -/
def calm (f : Forecaster) : Forecaster where
  id := f.id
  predict pool now := .ok (f.forecast pool now)

theorem forecast_calm (f : Forecaster) : f.calm.forecast = f.forecast := rfl

/-- A forecaster that always fails has the forecasts of one that never has any. -/
theorem forecast_absent {f : Forecaster} (h : ∀ pool now, ∃ e, f.predict pool now = .error e) :
    (absent f.id).forecast = f.forecast := by
  funext pool now
  obtain ⟨e, he⟩ := h pool now
  rw [forecast, forecast, he]
  rfl

/-- The last forecaster of a list with an id. -/
def last? (fs : List Forecaster) (id : String) : Option Forecaster := fs.reverse.find? (·.id == id)

/-- What a list of forecasters has for each id: the forecasts of the last one. -/
def served (fs : List Forecaster) (id : String) : Option (Option PoolSize → Instant → Option Forecast) :=
  (last? fs id).map forecast

variable {f g : Forecaster} {fs gs before after : List Forecaster} {id : String}

theorem last?_append (fs gs : List Forecaster) (id : String) :
    last? (fs ++ gs) id = (last? gs id).or (last? fs id) := by
  rw [last?, List.reverse_append, List.find?_append]
  rfl

theorem last?_singleton (f : Forecaster) (id : String) : last? [f] id = if f.id = id then some f else none := by
  rw [last?, List.reverse_singleton, List.find?_singleton]
  simp only [beq_iff_eq]

theorem served_append (fs gs : List Forecaster) (id : String) :
    served (fs ++ gs) id = (served gs id).or (served fs id) := by
  rw [served, last?_append, Option.map_or]
  rfl

theorem served_singleton (f : Forecaster) (id : String) :
    served [f] id = if f.id = id then some f.forecast else none := by
  rw [served, last?_singleton]
  split <;> rfl

theorem served_cons (f : Forecaster) (fs : List Forecaster) (id : String) :
    served (f :: fs) id = (served fs id).or (if f.id = id then some f.forecast else none) := by
  rw [← List.singleton_append, served_append, served_singleton]

theorem isSome_served (h : f ∈ fs) : (served fs f.id).isSome = true := by
  rw [served, Option.isSome_map, last?, List.find?_isSome]
  exact ⟨f, List.mem_reverse.mpr h, beq_self_eq_true _⟩

theorem mem_of_last? (h : last? fs id = some f) : f ∈ fs ∧ f.id = id := by
  have hid : (f.id == id) = true := List.find?_some (p := fun g : Forecaster => g.id == id) h
  exact ⟨List.mem_reverse.mp (List.mem_of_find?_eq_some h), eq_of_beq hid⟩

/-- With distinct ids, each forecaster is the last one of its id. -/
theorem last?_eq_some_iff (h : (fs.map Forecaster.id).Nodup) : last? fs id = some f ↔ f ∈ fs ∧ f.id = id := by
  refine ⟨mem_of_last?, ?_⟩
  intro h
  obtain ⟨hmem, rfl⟩ := h
  have hsome := isSome_served hmem
  rw [served, Option.isSome_map] at hsome
  obtain ⟨g, hlast⟩ := Option.isSome_iff_exists.mp hsome
  obtain ⟨hg, hid⟩ := mem_of_last? hlast
  rw [hlast, List.inj_on_of_nodup_map h hg hmem hid]

/-! ### Lists that have the same for each id -/

theorem served_of_perm (h : (fs.map Forecaster.id).Nodup) (hperm : fs.Perm gs) : served fs = served gs := by
  funext id
  have hlast : last? fs id = last? gs id := by
    refine Option.ext fun f => ?_
    rw [last?_eq_some_iff h, last?_eq_some_iff ((hperm.map _).nodup_iff.mp h), hperm.mem_iff]
  rw [served, served, hlast]

theorem served_replace (hid : g.id = f.id) (hforecast : g.forecast = f.forecast) :
    served (before ++ g :: after) = served (before ++ f :: after) := by
  funext id
  rw [served_append, served_append, served_cons, served_cons, hid, hforecast]

theorem served_calm (fs : List Forecaster) : served (fs.map calm) = served fs := by
  induction fs with
  | nil => rfl
  | cons f fs ih =>
    funext id
    rw [List.map_cons, served_cons, served_cons, ih, forecast_calm]
    rfl

/-- The last forecasters of all ids, in their order. -/
def latest : List Forecaster → List Forecaster
  | [] => []
  | f :: fs => if f.id ∈ fs.map Forecaster.id then latest fs else f :: latest fs

theorem latest_sublist (fs : List Forecaster) : (latest fs).Sublist fs := by
  induction fs with
  | nil => exact .slnil
  | cons f fs ih =>
    rw [latest]
    split
    · exact ih.cons f
    · exact ih.cons_cons f

theorem nodup_latest (fs : List Forecaster) : ((latest fs).map Forecaster.id).Nodup := by
  induction fs with
  | nil => exact .nil
  | cons f fs ih =>
    rw [latest]
    split
    · exact ih
    · rename_i hlater
      exact List.nodup_cons.mpr ⟨fun h => hlater (((latest_sublist fs).map _).mem h), ih⟩

/-- A forecaster with a later one of its id is not the last of any. -/
theorem served_latest (fs : List Forecaster) : served (latest fs) = served fs := by
  induction fs with
  | nil => rfl
  | cons f fs ih =>
    funext id
    rw [latest]
    split
    · rename_i hlater
      obtain ⟨g, hg, hid⟩ := List.mem_map.mp hlater
      rw [ih, served_cons]
      split
      · rename_i hf
        have hsome := isSome_served hg
        rw [hid, hf] at hsome
        exact (Option.or_of_isSome hsome).symm
      · exact (Option.or_none).symm
    · rw [served_cons, served_cons, ih]

end Forecaster

open Forecaster

variable {fs gs : List Forecaster}

theorem gather_eq_ofList (fs : List Forecaster) (pool : Option PoolSize) (now : Instant) :
    gather fs pool now = Dictionary.ofList (fs.map fun f => (f.id, f.forecast pool now)) := rfl

theorem find?_gather (fs : List Forecaster) (pool : Option PoolSize) (now : Instant) (id : String) :
    Dictionary.find? id (gather fs pool now) = (served fs id).map fun forecast => forecast pool now := by
  have hpairs : ∀ gs : List Forecaster,
      Dictionary.find? id (gs.map fun f => (f.id, f.forecast pool now)) =
        (gs.find? (·.id == id)).map fun f => f.forecast pool now := by
    intro gs
    induction gs with
    | nil => rfl
    | cons f gs ih =>
      rw [List.map_cons, Dictionary.find?, List.find?_cons, ih]
      by_cases hid : id = f.id
      · rw [if_pos hid, beq_iff_eq.mpr hid.symm]
        rfl
      · rw [if_neg hid, beq_eq_false_iff_ne.mpr (Ne.symm hid)]
  rw [gather_eq_ofList, Dictionary.ofList, Dictionary.find?_insertAll_reverse, ← List.map_reverse, hpairs,
    Dictionary.find?, Option.or_none, served, Option.map_map]
  rfl

/-- Nothing but the last forecaster of each id shows in what is gathered. -/
theorem gather_congr (h : served fs = served gs) (pool : Option PoolSize) (now : Instant) :
    gather fs pool now = gather gs pool now := by
  refine Dictionary.Ordered.ext (Dictionary.ordered_ofList _) (Dictionary.ordered_ofList _) fun id f => ?_
  have hfs : (id, f) ∈ gather fs pool now ↔ _ := Dictionary.mem_iff_find? (Dictionary.ordered_ofList _)
  have hgs : (id, f) ∈ gather gs pool now ↔ _ := Dictionary.mem_iff_find? (Dictionary.ordered_ofList _)
  rw [hfs, hgs]
  show Dictionary.find? id (gather fs pool now) = _ ↔ Dictionary.find? id (gather gs pool now) = _
  rw [find?_gather, find?_gather, h]

end PoolScaling
