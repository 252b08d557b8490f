import PoolScaling.Proofs.Autoscaler.Cycle
import PoolScaling.Proofs.Policy.History

/-! Scale-downs over whole runs.

A cycle that fails before the policies leaves their tracker alone, and any other
is a reading of the damper, so the tracker of an autoscaler follows from its past
cycles (`after_pipeline`). Rounding up never turns an answer that is not a
scale-down into one. Together: the pool is made smaller only when an excess has
lasted for the grace period (`scaleTo_below_desired`). -/
namespace PoolScaling

/-! ### Decisions -/

namespace Pipeline

variable {p : Pipeline}

/-- What the damper is asked on an occasion, unless there is an error before. -/
def reading? (p : Pipeline) (o : Occasion) : Option Reading :=
  match p.aggregateOn o with
  | .ok aggregate => some ⟨o.pool, aggregate, o.now⟩
  | .error _ => none

theorem reading?_of_ok {o : Occasion} {aggregate : Option Float} (h : p.aggregateOn o = .ok aggregate) :
    p.reading? o = some ⟨o.pool, aggregate, o.now⟩ := by
  rw [reading?, h]

end Pipeline

/-- A demand below the desired size comes from an excess that passes. -/
theorem Reading.down_of_scaleTo_lt {d : Damping} {r : Reading} {passes : Bool} {size : PoolSize}
    {n : UInt32} (hd : d.validate = .ok ()) (hpool : r.pool = some size)
    (hfinite : ∀ c, r.candidate = some c → c.isFinite = true)
    (h : Decision.ofDemand (r.answer d passes) r.pool = .scaleTo n) (hlt : n < size.desired) :
    r.signal d = .down ∧ passes = true := by
  obtain ⟨pool, candidate, now⟩ := r
  cases hpool
  have htarget : Decision.roundUp size.target ≠ n := by
    rw [Decision.roundUp_target]
    rintro rfl
    exact UInt32.lt_irrefl _ hlt
  cases candidate with
  | none => cases h
  | some c =>
    obtain ⟨q, hq⟩ := Number.isFinite_iff.mp (hfinite c rfl)
    simp only [answer] at h
    split at h
    · exact (htarget (Decision.roundUp_of_ofDemand h)).elim
    · rename_i hfar
      split at h
      · rename_i hup
        have hround := Decision.roundUp_of_ofDemand h
        rw [← hround] at hlt
        have hdown : Policy.isScaleDown size c = true :=
          decide_eq_true (Decision.ceil_lt_of_roundUp_lt hq hlt)
        rw [hdown] at hup
        cases hup
      · rename_i hdown
        split at h
        · rename_i hpasses
          have hexcess : d.isExcess size c = true := by
            rw [Damping.isExcess_eq hd, Bool.and_eq_true, Bool.not_eq_true']
            exact ⟨by simpa using hdown, Bool.not_eq_true _ ▸ hfar⟩
          exact ⟨if_pos hexcess, hpasses⟩
        · exact (htarget (Decision.roundUp_of_ofDemand h)).elim

/-! ### Cycles -/

namespace Autoscaler

/-- The autoscaler after cycles, failed ones included. -/
def after (a : Autoscaler) (past : List Occasion) : Autoscaler :=
  past.foldl (fun a o => Change.stateOf (attend o a)) a

variable {a : Autoscaler} {p : Pipeline} {d : Damping} {t : Tracker} {o : Occasion}

theorem attend_ok (hd : d.validate = .ok ()) (hp : a.pipeline.damper = .running d t)
    {aggregate : Option Float} (h : a.pipeline.aggregateOn o = .ok aggregate) :
    ∃ a', attend o a =
        .ok (.ofDemand ((Reading.mk o.pool aggregate o.now).answer d (d.passes t o.now)) o.pool) a' ∧
      a'.pipeline = { a.pipeline with
        damper := .running d (t.next ((Reading.mk o.pool aggregate o.now).signal d) o.now) } := by
  have happly := Damper.apply_running hd t ⟨o.pool, aggregate, o.now⟩
  rw [← hp] at happly
  exact ⟨_, attend_of_apply h happly, carryOut_pipeline _ _⟩

/-- The tracker follows from the past readings. -/
theorem after_pipeline (hd : d.validate = .ok ()) (ha : a.pipeline = p) (hp : p.damper = .running d .idle)
    (past : List Occasion) :
    (a.after past).pipeline =
      { p with damper := .running d (d.trackerAfter (past.filterMap p.reading?)) } := by
  induction past using List.reverseRecOn with
  | nil =>
    show a.pipeline = { p with damper := .running d .idle }
    rw [ha, ← hp]
  | append_singleton past o ih =>
    have hstep : a.after (past ++ [o]) = Change.stateOf (attend o (a.after past)) := by
      rw [after, List.foldl_append]
      rfl
    have haggregate : (a.after past).pipeline.aggregateOn o = p.aggregateOn o := by
      rw [ih]
      rfl
    rw [hstep, List.filterMap_append]
    cases h : p.aggregateOn o with
    | error e =>
      obtain ⟨a', hattend, hpipeline⟩ := attend_error (haggregate.trans h)
      have hreading : p.reading? o = none := by
        rw [Pipeline.reading?, h]
      rw [hattend, List.filterMap_cons_none hreading, List.filterMap_nil, List.append_nil]
      exact hpipeline.trans ih
    | ok aggregate =>
      obtain ⟨a', hattend, hpipeline⟩ := attend_ok hd (congrArg Pipeline.damper ih) (haggregate.trans h)
      rw [hattend, List.filterMap_cons_some (Pipeline.reading?_of_ok h), List.filterMap_nil,
        Damping.trackerAfter_concat]
      refine hpipeline.trans ?_
      rw [ih]

/-- Whether the aggregate on an occasion is a scale-down outside the tolerance. -/
def IsExcess (p : Pipeline) (d : Damping) (o : Occasion) : Prop :=
  ∃ size aggregate, o.pool = some size ∧ p.aggregateOn o = .ok (some aggregate) ∧
    Number.ceil aggregate < size.target ∧ d.tolerance < (size.target - aggregate).abs

theorem isExcess_of_reading {r : Reading} {size : PoolSize} {c : Float} (hd : d.validate = .ok ())
    (hr : p.reading? o = some r) (hpool : r.pool = some size) (hc : r.candidate = some c)
    (h : d.isExcess size c = true) : IsExcess p d o ∧ r.now = o.now := by
  unfold Pipeline.reading? at hr
  split at hr
  · rename_i haggregate
    cases hr
    have hdown : Policy.isScaleDown size c = true := (Bool.and_eq_true _ _ ▸ h).1
    cases hc
    exact ⟨⟨size, c, hpool, haggregate, of_decide_eq_true hdown, Damping.tolerance_lt_of_isExcess hd h⟩, rfl⟩
  · cases hr

/-- A cycle that resets nothing fails, knows no pool, or has an excess. -/
theorem cycle_of_ne_reset (hd : d.validate = .ok ()) (hp : a.pipeline.aggregateOn o = p.aggregateOn o)
    (h : ∀ r, p.reading? o = some r → r.signal d ≠ .reset) :
    (∃ e a', attend o a = .error e a') ∨
      (∃ aggregate, p.aggregateOn o = .ok (some aggregate) ∧ o.pool = none) ∨ IsExcess p d o := by
  cases haggregate : p.aggregateOn o with
  | error e =>
    obtain ⟨a', hfails, -⟩ := attend_error (hp.trans haggregate)
    exact .inl ⟨e, a', hfails⟩
  | ok aggregate =>
    have hreading := Pipeline.reading?_of_ok haggregate
    obtain ⟨c, hc, hnone | ⟨size, hpool, hexcess⟩⟩ := Reading.signal_ne_reset (h _ hreading)
    · cases hc
      exact .inr (.inl ⟨c, rfl, hnone⟩)
    · exact .inr (.inr (isExcess_of_reading hd hreading hpool hc hexcess).1)

/-- **Scale-down guard.** Over every run of a configured autoscaler with a grace period:
a cycle that makes the pool smaller comes a grace period after a cycle with an
excess, and every cycle between the two failed, knew no pool, or had an excess
again. -/
theorem scaleTo_below_desired {c : Config} {before : Pipeline} {size : PoolSize} {n : UInt32}
    {a' : Autoscaler} (hconfigure : Pipeline.configure c before = .ok () p) (hg : c.damping.grace ≠ .zero)
    (ha : a.pipeline = p) (past : List Occasion) (hpool : o.pool = some size)
    (hcycle : attend o (a.after past) = .ok (.scaleTo n) a') (hlt : n < size.desired) :
    ∃ earlier onset between, past = earlier ++ onset :: between ∧
      IsExcess p c.damping onset ∧
      (c.damping.grace.nanos : Int) ≤ o.now.nanosSince onset.now ∧
      ∀ since b rest, between = since ++ b :: rest →
        (∃ e a'', attend b (a.after (earlier ++ onset :: since)) = .error e a'') ∨
        (∃ aggregate, p.aggregateOn b = .ok (some aggregate) ∧ b.pool = none) ∨
        IsExcess p c.damping b := by
  obtain ⟨hd, hp⟩ := Pipeline.running_of_configure hconfigure
  have hafter := after_pipeline hd ha hp
  have hon : ∀ past o, (a.after past).pipeline.aggregateOn o = p.aggregateOn o := fun past o => by
    rw [hafter past]
    rfl
  have ho := hon past o
  cases haggregate : p.aggregateOn o with
  | error e =>
    obtain ⟨_, hattend, -⟩ := attend_error (ho.trans haggregate)
    rw [hattend] at hcycle
    cases hcycle
  | ok aggregate =>
    obtain ⟨_, hattend, -⟩ := attend_ok hd (congrArg Pipeline.damper (hafter past)) (ho.trans haggregate)
    rw [hattend] at hcycle
    injection hcycle with hdecision
    have hfinite : ∀ c, aggregate = some c → c.isFinite = true := by
      rintro c rfl
      exact Pipeline.isFinite_of_aggregateOn haggregate
    obtain ⟨-, hpasses⟩ := Reading.down_of_scaleTo_lt hd hpool hfinite hdecision hlt
    rw [Damping.passes_of_grace hg] at hpasses
    obtain ⟨r, honset, hlasted⟩ := Damping.onset_of_passes hpasses
    obtain ⟨before', between', hsplit, hdown, hkept⟩ := Damping.onset?_eq_some honset
    obtain ⟨earlier, rest, rfl, -, hrest⟩ := List.filterMap_eq_append_iff.mp hsplit
    obtain ⟨skipped, onset, between, rfl, -, hr, hbetween⟩ := List.filterMap_eq_cons_iff.mp hrest
    obtain ⟨size', c', hpool', hc', hexcess'⟩ := Reading.signal_eq_down hdown
    obtain ⟨hexcess, hnow⟩ := isExcess_of_reading hd hr hpool' hc' hexcess'
    refine ⟨earlier ++ skipped, onset, between, by simp, hexcess, hnow ▸ hlasted, ?_⟩
    intro since b rest hb
    refine cycle_of_ne_reset hd (hon _ b) fun r hr => hkept r ?_
    rw [← hbetween, hb]
    exact List.mem_filterMap.mpr ⟨b, by simp, hr⟩

/-- A demand of four in a pool of ten. -/
def fourOfTen (seconds : Int) : Occasion :=
  ⟨[.computeUnits "f" 4.0], some ⟨10, 10⟩, .ofSeconds seconds 0⟩

theorem scaleTo_four_after_a_minute :
    ∃ a', attend (fourOfTen 60) ((fresh ⟨"predictions[0]", [], ⟨0.5, .ofSeconds 60⟩⟩).after [fourOfTen 0]) =
        .ok (.scaleTo 4) a' ∧
      ∃ earlier onset between, [fourOfTen 0] = earlier ++ onset :: between ∧
        IsExcess (fresh ⟨"predictions[0]", [], ⟨0.5, .ofSeconds 60⟩⟩).pipeline ⟨0.5, .ofSeconds 60⟩ onset ∧
        60000000000 ≤ (fourOfTen 60).now.nanosSince onset.now := by
  have hconfigure : Pipeline.configure ⟨"predictions[0]", [], ⟨0.5, .ofSeconds 60⟩⟩ (.new .still) = .ok () _ :=
    Change.eq_ok_of_answer? (by decide +kernel)
  have hcycle : attend (fourOfTen 60)
      ((fresh ⟨"predictions[0]", [], ⟨0.5, .ofSeconds 60⟩⟩).after [fourOfTen 0]) = .ok (.scaleTo 4) _ :=
    Change.eq_ok_of_answer? (by decide +kernel)
  obtain ⟨earlier, onset, between, hpast, hexcess, hlasted, -⟩ :=
    scaleTo_below_desired hconfigure (by decide) rfl [fourOfTen 0] rfl hcycle (by decide)
  exact ⟨_, hcycle, earlier, onset, between, hpast, hexcess, hlasted⟩

end Autoscaler

end PoolScaling
