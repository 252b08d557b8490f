import PoolScaling.Proofs.Capacity.Table
import PoolScaling.Proofs.Run

/-! Two ways to fill a table.

Mappings can be set together, or added one by one to a table that has been cleared. Both
ways take a mapping by one rule (`withMapping`), so they come to the same table or to the same
first error (`attempts_add`). Mappings that are all taken give the same table in any
order (`ofMappings_perm`). -/
namespace PoolScaling

/-- The error of the first step that fails, if one does. -/
def Change.firstFailure? {ε α : Type} (answers : List (Except ε α)) : Option ε :=
  answers.findSome? fun
    | .error e => some e
    | .ok _ => none

namespace CapacityTable
open Change

variable {t u : CapacityTable} {mappings mappings' : List Mapping}

/-! ### One mapping -/

/-- Rates with one mapping more, unless it is not valid or its metric has a rate. -/
def withMapping (rates : Dictionary Float) (m : Mapping) : Except ConfigError (Dictionary Float) :=
  match m.validate with
  | .error e => .error e
  | .ok () =>
    if rates.contains m.metric then .error (.duplicateMapping m.metric)
    else .ok (Dictionary.insert m.metric m.rate rates)

theorem collect_cons (rates : Dictionary Float) (m : Mapping) (rest : List Mapping) :
    collect rates (m :: rest) = withMapping rates m >>= fun rates => collect rates rest := by
  rw [collect, withMapping]
  cases m.validate with
  | error e => rfl
  | ok =>
    show (if rates.contains m.metric then _ else _) = _
    cases rates.contains m.metric <;> rfl

theorem add_eq (m : Mapping) (t : CapacityTable) :
    add m t = match withMapping t.rates m with
      | .ok rates => .ok () ⟨rates⟩
      | .error e => .error (.config e) t := by
  rw [add, bind_ofResult, withMapping]
  cases m.validate with
  | error e => rfl
  | ok =>
    show (if t.rates.contains m.metric then throw _ else set _ : Change CapacityTable CapacityError Unit) t = _
    cases t.rates.contains m.metric <;> rfl

/-! ### Many mappings -/

/-- **One by one**, mappings come to what they come to together. -/
theorem attempts_add (mappings : List Mapping) (t : CapacityTable) :
    match collect t.rates mappings with
    | .ok rates => firstFailure? (attempts add mappings t).1 = none ∧ (attempts add mappings t).2 = ⟨rates⟩
    | .error e => firstFailure? (attempts add mappings t).1 = some (.config e) := by
  induction mappings generalizing t with
  | nil => exact ⟨rfl, rfl⟩
  | cons m rest ih =>
    have hadd := add_eq m t
    rw [collect_cons]
    cases hwith : withMapping t.rates m with
    | error e =>
      rw [hwith] at hadd
      rw [attempts, hadd]
      rfl
    | ok rates =>
      rw [hwith] at hadd
      rw [attempts, hadd]
      exact ih ⟨rates⟩

/-- The order of mappings makes no difference to their table. -/
theorem ofMappings_perm (hperm : mappings'.Perm mappings) (h : ofMappings mappings = .ok t) :
    ofMappings mappings' = .ok t := by
  obtain ⟨hvalid, hnodup⟩ := exists_ofMappings_iff.mp ⟨t, h⟩
  have hnodup' : (mappings'.map Mapping.metric).Nodup := (hperm.map _).nodup_iff.mpr hnodup
  obtain ⟨u, hu⟩ := exists_ofMappings_iff.mpr ⟨fun m hm => hvalid m (hperm.subset hm), hnodup'⟩
  have hrates : (fun metric => Mapping.rateIn? metric mappings') = fun metric => Mapping.rateIn? metric mappings := by
    funext metric
    refine Option.ext fun rate => ?_
    rw [Mapping.rateIn?_eq_some_iff hnodup', Mapping.rateIn?_eq_some_iff hnodup, hperm.mem_iff]
  have hrepresents := represents_ofMappings hu
  rw [hrates] at hrepresents
  rw [hu, hrepresents.ext (represents_ofMappings h)]

/-- What comes of adding mappings one by one to a table, after it has been cleared: the
error of the first that is refused, if one is, and the table. -/
def refill (mappings : List Mapping) (t : CapacityTable) : Option CapacityError × CapacityTable :=
  let (answers, built) := attempts add mappings (stateOf (clear t))
  (firstFailure? answers, built)

theorem refill_of_ofMappings (h : ofMappings mappings = .ok u) (t : CapacityTable) :
    refill mappings t = (none, u) := by
  have hattempts := attempts_add mappings empty
  unfold ofMappings at h
  cases hcollect : collect [] mappings with
  | error e =>
    rw [hcollect] at h
    cases h
  | ok rates =>
    rw [hcollect] at h
    cases h
    rw [show collect empty.rates mappings = .ok rates from hcollect] at hattempts
    exact Prod.ext hattempts.1 hattempts.2

theorem refill_of_error {e : ConfigError} (h : ofMappings mappings = .error e) (t : CapacityTable) :
    ∃ built, refill mappings t = (some (.config e), built) := by
  have hattempts := attempts_add mappings empty
  unfold ofMappings at h
  cases hcollect : collect [] mappings with
  | ok rates =>
    rw [hcollect] at h
    cases h
  | error e' =>
    rw [hcollect] at h
    cases h
    rw [show collect empty.rates mappings = .error e from hcollect] at hattempts
    exact ⟨_, Prod.ext hattempts rfl⟩

/-- **Together or one by one.** Whatever a table holds, mappings are set together exactly when
none of them is refused after clearing the table and adding them one by one. The table is the
same then, both ways, from any table and in any order of the mappings. Otherwise setting them
fails with the error of the first one that is refused, and the table stays as it was. -/
theorem replace_refill (mappings : List Mapping) (t : CapacityTable) :
    match refill mappings t with
    | (none, built) => replace mappings t = .ok () built ∧
        ∀ mappings', mappings'.Perm mappings → ∀ t',
          refill mappings' t' = (none, built) ∧ replace mappings' t' = .ok () built
    | (some e, _) => replace mappings t = .error e t := by
  cases h : ofMappings mappings with
  | error e =>
    obtain ⟨built, hrefill⟩ := refill_of_error h t
    rw [hrefill, replace, bind_ofResult, h]
    rfl
  | ok built =>
    have hreplace : ∀ {ms : List Mapping} (t' : CapacityTable), ofMappings ms = .ok built →
        replace ms t' = .ok () built := by
      intro ms t' hms
      rw [replace, bind_ofResult, hms]
      rfl
    rw [refill_of_ofMappings h]
    refine ⟨hreplace t h, fun mappings' hperm t' => ?_⟩
    have h' := ofMappings_perm hperm h
    exact ⟨refill_of_ofMappings h' t', hreplace t' h'⟩

/-- Memory for two other metrics, given in either order. -/
theorem replace_refill_two_metrics :
    let built : CapacityTable := ⟨[("cpu", 0.5), ("rps", 10.0)]⟩
    refill [⟨"rps", 10.0⟩, ⟨"cpu", 0.5⟩] ⟨[("memory", 4096.0)]⟩ = (none, built) ∧
      [⟨"cpu", 0.5⟩, ⟨"rps", 10.0⟩].Perm [(⟨"rps", 10.0⟩ : Mapping), ⟨"cpu", 0.5⟩] ∧
      refill [⟨"cpu", 0.5⟩, ⟨"rps", 10.0⟩] empty = (none, built) ∧
      replace [⟨"cpu", 0.5⟩, ⟨"rps", 10.0⟩] empty = .ok () built := by
  have hbuilt : (refill [⟨"rps", 10.0⟩, ⟨"cpu", 0.5⟩] ⟨[("memory", 4096.0)]⟩).2.rates =
      [("cpu", 0.5), ("rps", 10.0)] := by
    decide +kernel
  have hrefill : refill [⟨"rps", 10.0⟩, ⟨"cpu", 0.5⟩] ⟨[("memory", 4096.0)]⟩ =
      (none, ⟨[("cpu", 0.5), ("rps", 10.0)]⟩) :=
    Prod.ext (Option.isNone_iff_eq_none.mp (by decide +kernel)) (congrArg CapacityTable.mk hbuilt)
  have hperm : [⟨"cpu", 0.5⟩, ⟨"rps", 10.0⟩].Perm [(⟨"rps", 10.0⟩ : Mapping), ⟨"cpu", 0.5⟩] := .swap _ _ _
  have h := replace_refill [⟨"rps", 10.0⟩, ⟨"cpu", 0.5⟩] ⟨[("memory", 4096.0)]⟩
  rw [hrefill] at h
  exact ⟨hrefill, hperm, h.2 _ hperm empty⟩

end CapacityTable

end PoolScaling
