import PoolScaling.Aggregator
import PoolScaling.Capacity.Converter
import PoolScaling.Policy.Damper
import PoolScaling.Proofs.Change

/-! Stages.

A stage checks a configuration and installs it when the check passes. Otherwise it
reports the error of the check and stays as it is, so each of them is `Guarded` by
its own check. -/
namespace PoolScaling
open Change

/-! ### Converter -/

theorem Converter.configure_of_table {mappings : List Mapping} {table : CapacityTable}
    (h : CapacityTable.ofMappings mappings = .ok table) (v : Converter) :
    configure mappings v = .ok () ⟨some ⟨mappings, table⟩⟩ := by
  unfold configure
  rw [bind_ofResult, h]
  rfl

theorem Converter.table_of_validate {mappings : List Mapping} (h : validate mappings = .ok ()) :
    ∃ table, CapacityTable.ofMappings mappings = .ok table := by
  unfold validate at h
  cases htable : CapacityTable.ofMappings mappings with
  | ok table => exact ⟨table, rfl⟩
  | error e =>
    rw [htable] at h
    cases h

theorem Converter.configure_guarded (mappings : List Mapping) :
    Guarded (validate mappings) (configure mappings) where
  ok h v := by
    obtain ⟨table, htable⟩ := table_of_validate h
    exact ⟨_, configure_of_table htable v⟩
  error e h v := by
    unfold validate at h
    unfold configure
    rw [bind_ofResult]
    cases htable : CapacityTable.ofMappings mappings with
    | ok table =>
      rw [htable] at h
      cases h
    | error e' =>
      rw [htable] at h
      cases h
      rfl

/-! ### Aggregator -/

theorem Aggregator.configure_of_validate {expression : String} (h : validate expression = .ok ())
    (a : Aggregator) : configure expression a = .ok () { a with expression := some expression } := by
  unfold configure
  rw [bind_ofResult, h]
  rfl

theorem Aggregator.configure_guarded (expression : String) :
    Guarded (validate expression) (configure expression) where
  ok h a := ⟨_, configure_of_validate h a⟩
  error e h a := by
    unfold configure
    rw [bind_ofResult, h]

/-- An aggregator keeps its engine. -/
theorem Aggregator.engine_configure (expression : String) (a : Aggregator) :
    (stateOf (configure expression a)).engine = a.engine := by
  unfold configure
  cases validate expression <;> rfl

/-! ### Damper -/

theorem Damper.configure_of_validate {d : Damping} (h : validate d = .ok ()) (damper : Damper) :
    configure d damper = .ok () ⟨some ⟨d, d.policies⟩⟩ := by
  unfold configure
  rw [bind_ofResult, h]
  rfl

theorem Damper.configure_guarded (d : Damping) : Guarded (validate d) (configure d) where
  ok h damper := ⟨_, configure_of_validate h damper⟩
  error e h damper := by
    unfold configure
    rw [bind_ofResult, h]

end PoolScaling
