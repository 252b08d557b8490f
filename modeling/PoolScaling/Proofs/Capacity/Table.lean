import Mathlib.Logic.Function.Basic
import PoolScaling.Capacity
import PoolScaling.Proofs.Change
import PoolScaling.Proofs.Dictionary
import PoolScaling.Proofs.Number.Product

/-! The capacity table over its history.

What a table holds follows from the calls that have changed it, by a map from metrics to
rates that each successful call moves in the plainest way and no failed call moves at
all (`expected`). A table represents that map after every call (`Represents.after`), and
no call puts in a metric without a name or a rate that is not finite and positive. So a
conversion that succeeds is a division by such a rate (`after_faithful`). -/
namespace PoolScaling
open Number Change

/-! ### Mappings -/

namespace Mapping

/-- A metric with a name, and a rate that is finite and positive. -/
def IsValid (m : Mapping) : Prop :=
  Text.trim m.metric ≠ "" ∧ m.rate.isFinite = true ∧ 0.0 < m.rate

instance (m : Mapping) : Decidable m.IsValid := inferInstanceAs (Decidable (_ ∧ _ ∧ _))

theorem validate_eq_ok_iff {m : Mapping} : m.validate = .ok () ↔ m.IsValid := by
  unfold validate IsValid
  by_cases hname : Text.trim m.metric = ""
  · simp [hname]
  by_cases hpos : 0.0 < m.rate
  · obtain ⟨_, b, -, hb, -⟩ := places_of_lt hpos
    cases hinf : m.rate.isInf with
    | false => simp [hname, hpos, isFinite_of_place hb hinf]
    | true =>
      have hfinite : m.rate.isFinite ≠ true := fun h => by simp [isInf_of_isFinite h] at hinf
      simp [hname, hpos, hfinite]
  · simp [hname, hpos]

/-- The rate that mappings give to a metric. -/
def rateIn? (metric : String) (mappings : List Mapping) : Option Float :=
  (mappings.find? fun m => m.metric = metric).map Mapping.rate

theorem rateIn?_eq_none_iff {metric : String} {mappings : List Mapping} :
    rateIn? metric mappings = none ↔ metric ∉ mappings.map Mapping.metric := by
  simp [rateIn?]

/-- With one mapping a metric, the rates are the mappings. -/
theorem rateIn?_eq_some_iff {mappings : List Mapping} (h : (mappings.map Mapping.metric).Nodup)
    {metric : String} {rate : Float} : rateIn? metric mappings = some rate ↔ ⟨metric, rate⟩ ∈ mappings := by
  unfold rateIn?
  rw [Option.map_eq_some_iff]
  constructor
  · rintro ⟨m, hm, rfl⟩
    obtain rfl : m.metric = metric := by simpa using List.find?_some hm
    exact List.mem_of_find?_eq_some hm
  · intro hmem
    cases hfind : mappings.find? fun m => m.metric = metric with
    | none => exact absurd (decide_eq_true rfl) (List.find?_eq_none.mp hfind _ hmem)
    | some m =>
      have hmetric : m.metric = metric := by simpa using List.find?_some hfind
      have hsame := List.inj_on_of_nodup_map h (List.mem_of_find?_eq_some hfind) hmem hmetric
      exact ⟨m, rfl, congrArg Mapping.rate hsame⟩

end Mapping

namespace CapacityTable

variable {rates table : Dictionary Float} {m : Mapping} {mappings : List Mapping}

/-! ### Collecting -/

theorem contains_eq_false_iff {metric : String} :
    rates.contains metric = false ↔ Dictionary.find? metric rates = none := by
  unfold Dictionary.contains
  cases Dictionary.find? metric rates <;> simp

theorem collect_cons_eq_ok :
    collect rates (m :: mappings) = .ok table ↔ m.IsValid ∧ Dictionary.find? m.metric rates = none ∧
      collect (Dictionary.insert m.metric m.rate rates) mappings = .ok table := by
  rw [collect, ← Mapping.validate_eq_ok_iff, ← contains_eq_false_iff]
  cases m.validate with
  | error e => simp [bind, Except.bind]
  | ok =>
    cases rates.contains m.metric <;> simp [bind, Except.bind]

/-- Mappings can be collected when they are valid and each is the only one of its metric. -/
theorem exists_collect_iff :
    (∃ table, collect rates mappings = .ok table) ↔ (∀ m ∈ mappings, m.IsValid) ∧
      (mappings.map Mapping.metric).Nodup ∧ ∀ m ∈ mappings, Dictionary.find? m.metric rates = none := by
  induction mappings generalizing rates with
  | nil => simp [collect]
  | cons m rest ih =>
    simp only [collect_cons_eq_ok, exists_and_left, ih, Dictionary.find?_insert, List.forall_mem_cons,
      List.map_cons, List.nodup_cons]
    have hfresh : (∀ m' ∈ rest, (if m'.metric = m.metric then some m.rate
          else Dictionary.find? m'.metric rates) = none) ↔
        m.metric ∉ rest.map Mapping.metric ∧ ∀ m' ∈ rest, Dictionary.find? m'.metric rates = none := by
      simp only [List.mem_map, not_exists, not_and, ← forall_and]
      refine forall_congr' fun m' => ?_
      by_cases h : m'.metric = m.metric <;> simp [h]
    rw [hfresh]
    tauto

/-- A collected metric has the rate of its mapping, and any other the rate it had. -/
theorem find?_of_collect (h : collect rates mappings = .ok table) (metric : String) :
    Dictionary.find? metric table = (Mapping.rateIn? metric mappings).or (Dictionary.find? metric rates) := by
  induction mappings generalizing rates with
  | nil =>
    cases h
    rfl
  | cons m rest ih =>
    obtain ⟨-, hfresh, hrest⟩ := collect_cons_eq_ok.mp h
    rw [ih hrest, Dictionary.find?_insert]
    unfold Mapping.rateIn?
    by_cases hm : metric = m.metric
    · -- The mapping is the only one of its metric, as the metric has a rate from now on.
      subst hm
      have hothers : (rest.find? fun m' => m'.metric = m.metric) = none := by
        refine List.find?_eq_none.mpr fun m' hm' heq => ?_
        have hfree := (exists_collect_iff.mp ⟨_, hrest⟩).2.2 m' hm'
        rw [Dictionary.find?_insert, if_pos (of_decide_eq_true heq)] at hfree
        cases hfree
      rw [hothers, if_pos rfl, List.find?_cons_of_pos (by simp)]
      rfl
    · rw [if_neg hm, List.find?_cons_of_neg (by simpa using Ne.symm hm)]

theorem ordered_of_collect (h : collect rates mappings = .ok table) (hordered : Dictionary.Ordered rates) :
    Dictionary.Ordered table := by
  induction mappings generalizing rates with
  | nil =>
    cases h
    exact hordered
  | cons m rest ih => exact ih (collect_cons_eq_ok.mp h).2.2 (hordered.insert _ _)

theorem exists_ofMappings_iff :
    (∃ t, ofMappings mappings = .ok t) ↔ (∀ m ∈ mappings, m.IsValid) ∧ (mappings.map Mapping.metric).Nodup := by
  have h := @exists_collect_iff [] mappings
  simp only [Dictionary.find?, implies_true, and_true] at h
  rw [← h, ofMappings]
  cases collect [] mappings <;> simp [Except.map]

/-! ### Calls -/

/-- What can be asked of a shared table. -/
inductive Call where
  | replace (mappings : List Mapping)
  | add (m : Mapping)
  | clear

namespace Call

def change : Call → Change CapacityTable CapacityError Unit
  | replace mappings => CapacityTable.replace mappings
  | add m => CapacityTable.add m
  | clear => CapacityTable.clear

/-- Whether a call is possible when metrics have these rates. -/
def Succeeds (rates : String → Option Float) : Call → Prop
  | replace mappings => (∀ m ∈ mappings, m.IsValid) ∧ (mappings.map Mapping.metric).Nodup
  | add m => m.IsValid ∧ rates m.metric = none
  | clear => True

instance (rates : String → Option Float) : (call : Call) → Decidable (call.Succeeds rates)
  | replace _ | add _ => inferInstanceAs (Decidable (_ ∧ _))
  | clear => inferInstanceAs (Decidable True)

/-- The rates after a call that succeeds. -/
def effect (rates : String → Option Float) : Call → String → Option Float
  | replace mappings => fun metric => Mapping.rateIn? metric mappings
  | add m => Function.update rates m.metric (some m.rate)
  | clear => fun _ => none

/-- The rates after a call; a failed one changes nothing. -/
def next (rates : String → Option Float) (call : Call) : String → Option Float :=
  if call.Succeeds rates then call.effect rates else rates

end Call

/-- The rate of each metric after calls on a new table. -/
def expected (calls : List Call) : String → Option Float := calls.foldl Call.next fun _ => none

/-- The table that a call leaves, failed or not. -/
def perform (t : CapacityTable) (call : Call) : CapacityTable := stateOf (call.change t)

def after (t : CapacityTable) (calls : List Call) : CapacityTable := calls.foldl perform t

/-- Whether a table holds the given rates, all of them valid, each metric once. -/
structure Represents (t : CapacityTable) (expected : String → Option Float) : Prop where
  ordered : Dictionary.Ordered t.rates
  find? : ∀ metric, Dictionary.find? metric t.rates = expected metric
  valid : ∀ metric rate, expected metric = some rate → (Mapping.mk metric rate).IsValid

variable {t : CapacityTable} {reference : String → Option Float} {call : Call}

/-- Tables that represent the same rates are the same. -/
theorem Represents.ext {u : CapacityTable} (h : Represents t reference)
    (h' : Represents u reference) : t = u := by
  have hrates : t.rates = u.rates := by
    refine h.ordered.ext h'.ordered fun metric rate => ?_
    rw [Dictionary.mem_iff_find? h.ordered, Dictionary.mem_iff_find? h'.ordered, h.find?, h'.find?]
  exact congrArg CapacityTable.mk hrates

theorem represents_empty : Represents empty fun _ => none where
  ordered := List.Pairwise.nil
  find? _ := rfl
  valid _ _ h := by cases h

theorem represents_ofMappings (h : ofMappings mappings = .ok t) :
    Represents t fun metric => Mapping.rateIn? metric mappings := by
  have hvalid := (exists_ofMappings_iff.mp ⟨t, h⟩).1
  unfold ofMappings at h
  cases hcollect : collect [] mappings with
  | error e =>
    rw [hcollect] at h
    cases h
  | ok table =>
    rw [hcollect] at h
    cases h
    refine ⟨ordered_of_collect hcollect List.Pairwise.nil, fun metric => ?_, fun metric rate hrate => ?_⟩
    · rw [find?_of_collect hcollect, Dictionary.find?, Option.or_none]
    · obtain ⟨m, hm, rfl⟩ := Option.map_eq_some_iff.mp hrate
      have hmetric : m.metric = metric := by simpa using List.find?_some hm
      subst hmetric
      exact hvalid m (List.mem_of_find?_eq_some hm)

theorem Represents.insert (h : Represents t reference) (hm : m.IsValid) :
    Represents ⟨Dictionary.insert m.metric m.rate t.rates⟩
      (Function.update reference m.metric (some m.rate)) where
  ordered := h.ordered.insert _ _
  find? metric := by rw [Dictionary.find?_insert, Function.update_apply, h.find?]
  valid metric rate hrate := by
    rw [Function.update_apply] at hrate
    split at hrate
    · rename_i hmetric
      cases hrate
      rw [hmetric]
      exact hm
    · exact h.valid metric rate hrate

/-- A call that is possible succeeds and has its effect. -/
theorem Represents.change_ok (h : Represents t reference) (hcall : call.Succeeds reference) :
    ∃ t', call.change t = .ok () t' ∧ Represents t' (call.effect reference) := by
  cases call with
  | replace mappings =>
    obtain ⟨t', ht'⟩ := exists_ofMappings_iff.mpr hcall
    refine ⟨t', ?_, represents_ofMappings ht'⟩
    rw [Call.change, replace, ht']
    rfl
  | add m =>
    obtain ⟨hm, hfree⟩ := hcall
    have hcontains : t.contains m.metric = false := contains_eq_false_iff.mpr (by rw [h.find?, hfree])
    refine ⟨_, ?_, h.insert hm⟩
    rw [Call.change, add, Mapping.validate_eq_ok_iff.mpr hm, bind_ofResult]
    show (if t.contains m.metric then throw _ else set _ : Change CapacityTable CapacityError Unit) t = _
    rw [hcontains]
    rfl
  | clear => exact ⟨empty, rfl, represents_empty⟩

/-- A call that is not possible fails and changes nothing. -/
theorem Represents.change_error (h : Represents t reference) (hcall : ¬ call.Succeeds reference) :
    ∃ e, call.change t = .error e t := by
  cases call with
  | replace mappings =>
    cases ht : ofMappings mappings with
    | ok t' => exact absurd (exists_ofMappings_iff.mp ⟨t', ht⟩) hcall
    | error e =>
      rw [Call.change, replace, ht]
      exact ⟨_, rfl⟩
  | add m =>
    rw [Call.change, add, bind_ofResult]
    cases hm : m.validate with
    | error e => exact ⟨_, rfl⟩
    | ok =>
      have hcontains : t.contains m.metric = true := by
        rw [← Bool.not_eq_false]
        refine fun hfree => hcall ⟨Mapping.validate_eq_ok_iff.mp hm, ?_⟩
        rw [← h.find?]
        exact contains_eq_false_iff.mp hfree
      show ∃ e, (if t.contains m.metric then throw _ else set _ : Change CapacityTable CapacityError Unit) t = _
      rw [hcontains]
      exact ⟨_, rfl⟩
  | clear => exact absurd trivial hcall

theorem Represents.perform (h : Represents t reference) (call : Call) :
    Represents (t.perform call) (call.next reference) := by
  unfold CapacityTable.perform Call.next
  split
  · rename_i hcall
    obtain ⟨t', hchange, ht'⟩ := h.change_ok hcall
    rw [hchange]
    exact ht'
  · rename_i hcall
    obtain ⟨e, hchange⟩ := h.change_error hcall
    rw [hchange]
    exact h

/-- **After any calls** a table holds what is expected. -/
theorem Represents.after (h : Represents t reference) (calls : List Call) :
    Represents (t.after calls) (calls.foldl Call.next reference) := by
  induction calls generalizing t reference with
  | nil => exact h
  | cons call rest ih => exact ih (h.perform call)

/-! ### Conversions -/

theorem computeUnits_eq (t : CapacityTable) (metric : String) (capacity : Float) :
    t.computeUnits metric capacity = match Dictionary.find? metric t.rates with
      | none => .error (.unrecognized metric)
      | some rate => if 0.0 ≤ capacity then .ok (capacity / rate) else .error (.negative metric capacity) := by
  unfold computeUnits CapacityTable.rate
  cases Dictionary.find? metric t.rates <;> rfl

theorem computeUnits_eq_ok_iff {metric : String} {capacity units : Float} :
    t.computeUnits metric capacity = .ok units ↔
      ∃ rate, Dictionary.find? metric t.rates = some rate ∧ 0.0 ≤ capacity ∧ units = capacity / rate := by
  rw [computeUnits_eq]
  cases Dictionary.find? metric t.rates with
  | none => simp
  | some rate =>
    by_cases h : 0.0 ≤ capacity <;> simp [h, eq_comm]

/-- **A faithful store.** After any calls on a new table its pairs are the expected rates,
each metric once. A further call succeeds exactly when it is possible, and a failed one
changes nothing. Every metric has a name and every rate is finite and positive, so
converting succeeds exactly for a metric with a rate and a capacity from zero on, and
gives their quotient, which is a number and not negative. -/
theorem after_faithful (calls : List Call) :
    let t := empty.after calls
    Dictionary.Ordered t.rates ∧
    (∀ metric rate, (metric, rate) ∈ t.rates ↔ expected calls metric = some rate) ∧
    (∀ call : Call, if call.Succeeds (expected calls) then ∃ t', call.change t = .ok () t'
      else ∃ e, call.change t = .error e t) ∧
    (∀ metric rate, (metric, rate) ∈ t.rates →
      Text.trim metric ≠ "" ∧ rate.isFinite = true ∧ 0.0 < rate) ∧
    (∀ metric capacity units, t.computeUnits metric capacity = .ok units ↔
      ∃ rate, (metric, rate) ∈ t.rates ∧ 0.0 ≤ capacity ∧ units = capacity / rate) ∧
    ∀ metric capacity units, t.computeUnits metric capacity = .ok units →
      units.isNaN = false ∧ ¬ units < 0.0 := by
  intro t
  have h : Represents t (expected calls) := represents_empty.after calls
  have hmem : ∀ metric rate, (metric, rate) ∈ t.rates ↔ expected calls metric = some rate := by
    intro metric rate
    rw [Dictionary.mem_iff_find? h.ordered, h.find?]
  refine ⟨h.ordered, hmem, fun call => ?_, fun metric rate hrate => ?_, fun metric capacity units => ?_,
    fun metric capacity units hunits => ?_⟩
  · split
    · rename_i hcall
      obtain ⟨t', hchange, -⟩ := h.change_ok hcall
      exact ⟨t', hchange⟩
    · rename_i hcall
      exact h.change_error hcall
  · exact h.valid metric rate ((hmem metric rate).mp hrate)
  · simp only [computeUnits_eq_ok_iff, Dictionary.mem_iff_find? h.ordered]
  · obtain ⟨rate, hrate, hcapacity, rfl⟩ := computeUnits_eq_ok_iff.mp hunits
    obtain ⟨-, hfinite, hpos⟩ := h.valid metric rate (h.find? metric ▸ hrate)
    obtain ⟨q, hq⟩ := isFinite_iff.mp hfinite
    have hq0 : 0 < q := WithBotTop.coe_lt_coe.mp ((lt_iff place_zero hq).mp hpos)
    obtain ⟨b, hb, hnonneg⟩ := place_div_nonneg hcapacity hq hq0
    constructor
    · rw [← Bool.not_eq_true, isNaN_iff, hb]
      nofun
    · rw [lt_iff hb place_zero]
      exact not_lt.mpr hnonneg

/-- Requests per second at ten a unit; a batch that maps a metric twice, and a second rate
for the first metric. -/
def refusedTwice : List Call :=
  [.add ⟨"rps", 10.0⟩, .replace [⟨"latency", 5.0⟩, ⟨"rps", 2.0⟩, ⟨"latency", 7.0⟩], .add ⟨"rps", 3.0⟩]

/-- Neither is accepted, and the first rate stays. -/
theorem after_faithful_refused_twice :
    expected refusedTwice "rps" = some 10.0 ∧ (empty.after refusedTwice).rates = [("rps", 10.0)] ∧
      (empty.after refusedTwice).computeUnits "rps" 25.0 = .ok 2.5 ∧ ¬ (2.5 : Float) < 0.0 := by
  obtain ⟨-, hmem, -, -, hunits, hsign⟩ := after_faithful refusedTwice
  have hrps : expected refusedTwice "rps" = some 10.0 := by decide +kernel
  have hdivided : (empty.after refusedTwice).computeUnits "rps" 25.0 = .ok 2.5 :=
    (hunits _ _ _).mpr ⟨10.0, (hmem _ _).mpr hrps, by decide, by decide +kernel⟩
  exact ⟨hrps, by decide +kernel, hdivided, (hsign _ _ _ hdivided).2⟩

end CapacityTable

end PoolScaling
