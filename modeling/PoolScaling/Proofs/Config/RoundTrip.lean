import PoolScaling.Config.File
import PoolScaling.Proofs.Capacity.Table
import PoolScaling.Proofs.Pipeline.Reconfiguration
import PoolScaling.Proofs.Policy.Signal
import PoolScaling.Proofs.Time.Duration
import PoolScaling.Proofs.Toml.Document

/-! Configurations, written and read back.

A configuration is written as one table of TOML (`Config.toData`), whatever its texts
and numbers are, so reading it back can fail only over the grace period: that is written
as a number with a unit, which the reader refuses from `2 ^ 64` milliseconds on. A bare
number of seconds is read without that bound. -/
namespace PoolScaling
open Toml

/-! ### The document -/

namespace Mapping

def toStatements (m : Mapping) : List Statement :=
  [.item ["capacity"], .entry ["metric"] (.text m.metric), .entry ["amount_per_compute_unit"] (.float m.rate)]

def toEntries (m : Mapping) : Entries :=
  [("amount_per_compute_unit", .value (.float m.rate)), ("metric", .value (.text m.metric))]

def toData (m : Mapping) : Data :=
  .table [("amount_per_compute_unit", .float m.rate), ("metric", .text m.metric)]

end Mapping

def Damping.toStatements (d : Damping) : List Statement :=
  [.table ["scaling_policies"], .entry ["machine_delta_tolerance"] (.float d.tolerance),
    .entry ["overprovisioning_grace_period"] (.text d.grace.toText)]

def Damping.toData (d : Damping) : Data :=
  .table [("machine_delta_tolerance", .float d.tolerance), ("overprovisioning_grace_period", .text d.grace.toText)]

namespace Config

/-- The statements that a configuration is written as. -/
def toStatements (c : Config) : List Statement :=
  (if c.capacity.isEmpty then [.entry ["capacity"] (.list [])] else []) ++
    .table ["aggregator"] :: .entry ["expression"] (.text c.expression) ::
      (c.capacity.flatMap Mapping.toStatements ++ c.damping.toStatements)

/-- The data that they add up to. -/
def toData (c : Config) : Data :=
  .table [("aggregator", .table [("expression", .text c.expression)]),
    ("capacity", .list (c.capacity.map Mapping.toData)), ("scaling_policies", c.damping.toData)]

/-- Whether all numbers of a configuration are finite. -/
structure IsFinite (c : Config) : Prop where
  tolerance : c.damping.tolerance.isFinite = true
  rate : ∀ m ∈ c.capacity, m.rate.isFinite = true

end Config

variable {rest : List Char} {ss : List Statement}

theorem Mapping.reads_toToml {m : Mapping} (hm : m.rate.isFinite = true) (h : Reads rest ss) :
    Reads (m.toToml.toList ++ rest) (m.toStatements ++ ss) := by
  have hlines : m.toToml.toList ++ rest = '\n' :: '[' :: '[' :: ("capacity".toList ++ ']' :: ']' :: '\n' ::
      ((writeEntry "metric" (writeText m.metric)).toList ++
        ((writeEntry "amount_per_compute_unit" (writeNumber m.rate)).toList ++ rest))) := by
    simp [Mapping.toToml]
  rw [hlines]
  refine Reads.emptyLine (Reads.item ?_ rfl)
  refine Reads.entry ?_ rfl (writes_text m.metric)
  exact Reads.entry h rfl (writes_number hm)

theorem Mapping.reads_all {ms : List Mapping} (hms : ∀ m ∈ ms, m.rate.isFinite = true) (h : Reads rest ss) :
    Reads (ms.flatMap (fun m => m.toToml.toList) ++ rest) (ms.flatMap Mapping.toStatements ++ ss) := by
  induction ms with
  | nil => exact h
  | cons m ms ih =>
    rw [List.flatMap_cons, List.flatMap_cons, List.append_assoc, List.append_assoc]
    exact reads_toToml (hms m List.mem_cons_self) (ih fun m' hm' => hms m' (List.mem_cons_of_mem m hm'))

theorem Damping.reads_toToml {d : Damping} (hd : d.tolerance.isFinite = true) :
    Reads d.toToml.toList d.toStatements := by
  have hlines : d.toToml.toList = '\n' :: '[' :: ("scaling_policies".toList ++ ']' :: '\n' ::
      ((writeEntry "machine_delta_tolerance" (writeNumber d.tolerance)).toList ++
        ((writeEntry "overprovisioning_grace_period" (writeText d.grace.toText)).toList ++ []))) := by
    unfold Damping.toToml
    simp
  rw [hlines]
  refine Reads.emptyLine (Reads.table ?_ rfl)
  refine Reads.entry ?_ rfl (writes_number hd)
  exact Reads.entry reads_nil rfl (writes_text d.grace.toText)

namespace Config

/-- The lines of a configuration from the expression on. -/
def sections (c : Config) : List Char :=
  (writeEntry "expression" (writeText c.expression)).toList ++
    (c.capacity.flatMap (fun m => m.toToml.toList) ++ c.damping.toToml.toList)

theorem toList_toToml (c : Config) :
    c.toToml.toList = (if c.capacity.isEmpty then (writeEntry "capacity" "[]").toList ++ ['\n'] else []) ++
      '[' :: ("aggregator".toList ++ ']' :: '\n' :: c.sections) := by
  cases hempty : c.capacity.isEmpty <;> simp [toToml, sections, hempty, List.flatMap_map]

theorem reads_toToml {c : Config} (hc : c.IsFinite) : Reads c.toToml.toList c.toStatements := by
  have hsections : Reads c.sections (.entry ["expression"] (.text c.expression) ::
      (c.capacity.flatMap Mapping.toStatements ++ c.damping.toStatements)) :=
    Reads.entry (Mapping.reads_all hc.rate (Damping.reads_toToml hc.tolerance)) rfl (writes_text c.expression)
  rw [toList_toToml, toStatements]
  cases c.capacity.isEmpty with
  | true =>
    rw [if_pos rfl, if_pos rfl, List.append_assoc]
    exact Reads.entry (Reads.emptyLine (hsections.table rfl)) rfl writes_noItems
  | false => exact hsections.table rfl

theorem toToml_ne_mark (c : Config) (t : List Char) : c.toToml.toList ≠ '\uFEFF' :: t := by
  rw [toList_toToml]
  cases c.capacity.isEmpty with
  | true =>
    intro h
    cases (List.cons.inj h).1
  | false =>
    intro h
    cases (List.cons.inj h).1

end Config

/-! ### The tables of the document -/

variable {A : Node} {items : List Entries} {current : List String}

/-- Every mapping adds an item to the list. -/
theorem Mapping.extend_toStatements (m : Mapping) :
    m.toStatements.foldlM Document.extend ⟨[("aggregator", A), ("capacity", .list items)], current⟩ =
      some ⟨[("aggregator", A), ("capacity", .list (items ++ [m.toEntries]))], ["capacity"]⟩ := by
  have hopen : Document.extend ⟨[("aggregator", A), ("capacity", .list items)], current⟩ (.item ["capacity"]) =
      some ⟨[("aggregator", A), ("capacity", .list (items ++ [[]]))], ["capacity"]⟩ := rfl
  have hadd : ∀ {entries entries' path d}, Entries.add path d .header entries = some entries' →
      Document.extend ⟨[("aggregator", A), ("capacity", .list (items ++ [entries]))], ["capacity"]⟩
        (.entry path d) = some ⟨[("aggregator", A), ("capacity", .list (items ++ [entries']))], ["capacity"]⟩ :=
    fun hadd => Document.extend_item rfl hadd
  have hmetric : Entries.add ["metric"] (.text m.metric) .header [] =
      some [("metric", .value (.text m.metric))] := rfl
  have hrate : Entries.add ["amount_per_compute_unit"] (.float m.rate) .header
      [("metric", .value (.text m.metric))] = some m.toEntries := rfl
  rw [toStatements, List.foldlM_cons, hopen]
  simp only [Option.bind_eq_bind, Option.bind_some, List.foldlM_cons, hadd hmetric, hadd hrate, List.foldlM_nil]
  rfl

theorem Mapping.extend_all (ms : List Mapping) (items : List Entries) (current : List String) :
    ∃ current', (ms.flatMap toStatements).foldlM Document.extend
      ⟨[("aggregator", A), ("capacity", .list items)], current⟩ =
        some ⟨[("aggregator", A), ("capacity", .list (items ++ ms.map toEntries))], current'⟩ := by
  induction ms generalizing items current with
  | nil => exact ⟨current, by simp⟩
  | cons m ms ih =>
    obtain ⟨current', hms⟩ := ih (items ++ [m.toEntries]) ["capacity"]
    refine ⟨current', ?_⟩
    rw [List.flatMap_cons, List.foldlM_append, extend_toStatements, Option.bind_eq_bind, Option.bind_some, hms,
      List.append_assoc]
    rfl

namespace Config

/-- The tables that a configuration adds up to. -/
def toEntries (c : Config) : Entries :=
  [("aggregator", .table .header [("expression", .value (.text c.expression))]),
    ("capacity", if c.capacity.isEmpty then .value (.list []) else .list (c.capacity.map Mapping.toEntries)),
    ("scaling_policies", .table .header [("machine_delta_tolerance", .value (.float c.damping.tolerance)),
      ("overprovisioning_grace_period", .value (.text c.damping.grace.toText))])]

theorem extend_toStatements (c : Config) :
    c.toStatements.foldlM Document.extend ⟨[], []⟩ = some ⟨c.toEntries, ["scaling_policies"]⟩ := by
  unfold toStatements toEntries
  cases c.capacity with
  | nil => rfl
  | cons m ms =>
    have hfirst : (.table ["aggregator"] :: .entry ["expression"] (.text c.expression) :: m.toStatements).foldlM
        Document.extend ⟨[], []⟩ =
          some ⟨[("aggregator", .table .header [("expression", .value (.text c.expression))]),
            ("capacity", .list [m.toEntries])], ["capacity"]⟩ := rfl
    obtain ⟨current, hrest⟩ := Mapping.extend_all
      (A := .table .header [("expression", .value (.text c.expression))]) ms [m.toEntries] ["capacity"]
    show ((.table ["aggregator"] :: .entry ["expression"] (.text c.expression) :: m.toStatements) ++
      ms.flatMap Mapping.toStatements ++ c.damping.toStatements).foldlM Document.extend ⟨[], []⟩ = _
    rw [List.foldlM_append, List.foldlM_append, hfirst, Option.bind_eq_bind, Option.bind_some, hrest,
      Option.bind_some]
    rfl

theorem entriesData_toEntries (c : Config) : .table (entriesData c.toEntries) = c.toData := by
  have hitems : ∀ ms : List Mapping, itemsData (ms.map Mapping.toEntries) = ms.map Mapping.toData := by
    intro ms
    induction ms with
    | nil => rfl
    | cons m ms ih =>
      rw [List.map_cons, itemsData, ih]
      rfl
  unfold toEntries toData
  cases c.capacity with
  | nil => rfl
  | cons m ms =>
    rw [← hitems]
    rfl

/-- **A configuration is written as the table of its data.** -/
theorem read?_toToml {c : Config} (hc : c.IsFinite) : Toml.read? c.toToml = some c.toData := by
  rw [read?_of_reads (reads_toToml hc) c.toToml_ne_mark, extend_toStatements, Option.map_some,
    entriesData_toEntries]

end Config

/-! ### From the data -/

theorem Mapping.mapM_toData (ms : List Mapping) : ms.mapM (ofData? true ∘ toData) = some ms := by
  have hm : ofData? true ∘ toData = pure := rfl
  rw [hm, List.mapM_pure, List.map_id']
  rfl

/-- Only the grace period can be refused. -/
theorem Damping.ofData?_toData (d : Damping) :
    ofData? true d.toData = (Duration.ofText? d.grace.toText).map fun grace => { d with grace } := by
  have hgrace : Duration.ofData? (.text d.grace.toText) = Duration.ofText? d.grace.toText := rfl
  simp [ofData?, toData, Data.fields?, Data.Fields.optional?, Data.Fields.get?, Data.float?, hgrace,
    Option.map_eq_bind]

theorem Config.ofData?_toData (c : Config) :
    ofData? true c.toData = (Duration.ofText? c.damping.grace.toText).map fun grace =>
      { c with damping := { c.damping with grace } } := by
  have hexpression : expressionOf? true (.table [("expression", .text c.expression)]) = some c.expression := rfl
  simp [ofData?, toData, Data.fields?, Data.Fields.optional?, Data.Fields.required?, Data.Fields.get?, Data.list?,
    hexpression, Mapping.mapM_toData, Damping.ofData?_toData, Option.map_eq_bind, Option.bind_assoc]

/-- **A configuration reads back** with its grace period, if that can be read at all. -/
theorem Config.ofToml?_toToml {c : Config} (hc : c.IsFinite) :
    ofToml? c.toToml =
      if c.damping.grace.millis < 2 ^ 64 then
        some { c with damping := { c.damping with grace := .ofMillis c.damping.grace.millis } }
      else none := by
  rw [ofToml?, read?_toToml hc, Option.bind_some, ofData?_toData, Duration.ofText?_toText]
  split <;> rfl

/-! ### Accepted configurations -/

theorem Config.isFinite_of_validate {c : Config} (h : Pipeline.validate c = .ok ()) : c.IsFinite := by
  obtain ⟨hcapacity, -, hdamping⟩ := (Pipeline.validate_eq_ok c).mp h
  have hvalid := (CapacityTable.exists_ofMappings_iff.mp (Converter.table_of_validate hcapacity)).1
  exact ⟨(Damping.validate_ok_iff.mp hdamping).1, fun m hm => (hvalid m hm).2.1⟩

/-! ### Loaded configurations -/

theorem Data.Fields.optional?_eq_some {α : Type} {f : Fields} {place : Nat} {names : List String} {default a : α}
    {decode : Data → Option α} (h : f.optional? place names default decode = some a) :
    a = default ∨ ∃ d, decode d = some a := by
  unfold optional? at h
  rw [Option.bind_eq_bind, Option.bind_eq_some_iff] at h
  obtain ⟨field, -, ha⟩ := h
  cases field with
  | none => exact .inl (Option.some.inj ha).symm
  | some d => exact .inr ⟨d, ha⟩

theorem Duration.isWhole_of_ofData? {data : Data} {d : Duration} (h : ofData? data = some d) : d.IsWhole := by
  unfold ofData? at h
  split at h
  · exact isWhole_of_ofText? h
  · rw [Option.map_eq_some_iff] at h
    obtain ⟨s, -, rfl⟩ := h
    exact isWhole_ofSeconds s

theorem Damping.isWhole_of_ofData? {spare : Bool} {data : Data} {d : Damping} (h : ofData? spare data = some d) :
    d.grace.IsWhole := by
  unfold ofData? at h
  simp only [Option.bind_eq_bind, Option.bind_eq_some_iff] at h
  obtain ⟨fields, -, tolerance, -, grace, hgrace, hd⟩ := h
  cases hd
  rcases Data.Fields.optional?_eq_some hgrace with rfl | ⟨data, hdata⟩
  · exact Duration.isWhole_ofMillis 0
  · exact Duration.isWhole_of_ofData? hdata

namespace Config

theorem isWhole_of_ofData? {spare : Bool} {data : Data} {c : Config} (h : ofData? spare data = some c) :
    c.damping.grace.IsWhole := by
  unfold ofData? at h
  simp only [Option.bind_eq_bind, Option.bind_eq_some_iff] at h
  obtain ⟨fields, -, expression, -, capacity, -, damping, hdamping, hc⟩ := h
  cases hc
  rcases Data.Fields.optional?_eq_some hdamping with rfl | ⟨data, hdata⟩
  · exact Duration.isWhole_ofMillis 0
  · exact Damping.isWhole_of_ofData? hdata

theorem exists_of_load {read : String → Option String} {path : String} {c : Config} (h : load read path = .ok c) :
    ∃ spare data, ofData? spare data = some c := by
  have helim : ∀ {o : Option Config} {e : LoadError}, o.elim (.error e) .ok = Except.ok c → o = some c := by
    intro o e h
    cases o with
    | none => cases h
    | some c' => exact congrArg some (Except.ok.inj h)
  unfold load at h
  split at h
  · cases h
  split at h
  · obtain ⟨data, -, hdata⟩ := Option.bind_eq_some_iff.mp (helim h)
    exact ⟨false, data, hdata⟩
  · obtain ⟨data, -, hdata⟩ := Option.bind_eq_some_iff.mp (helim h)
    exact ⟨true, data, hdata⟩

theorem load_of_toml {read : String → Option String} {path text : String} (hpath : isJsonPath path = false)
    (hread : read path = some text) : load read path = (ofToml? text).elim (.error .toml) .ok := by
  rw [load, hread, hpath]
  rfl

/-- **A configuration that can be loaded and is accepted can be written and loaded again**,
as long as its grace period fits in 64 bits of milliseconds: the copy is the same
configuration. Beyond that the copy is refused. -/
theorem load_toToml {read copy : String → Option String} {path copyPath : String} {c : Config}
    (hload : load read path = .ok c) (hvalid : Pipeline.validate c = .ok ())
    (hpath : isJsonPath copyPath = false) (hcopy : copy copyPath = some c.toToml) :
    load copy copyPath = if c.damping.grace.millis < 2 ^ 64 then .ok c else .error .toml := by
  obtain ⟨spare, data, hdata⟩ := exists_of_load hload
  have hwhole : Duration.ofMillis c.damping.grace.millis = c.damping.grace := isWhole_of_ofData? hdata
  rw [load_of_toml hpath hcopy, ofToml?_toToml (isFinite_of_validate hvalid), hwhole]
  split <;> rfl

/-- A file that gives the grace period as a bare number of seconds. -/
def fileWithGrace (seconds : Nat) : String :=
  "[aggregator]\nexpression = \"max(predictions)\"\n\n[[capacity]]\nmetric = \"rps\"\n" ++
    "amount_per_compute_unit = 12.5\n\n[scaling_policies]\noverprovisioning_grace_period = " ++
    toString seconds ++ "\n"

theorem load_toToml_five_minutes :
    ∃ c, load (fun _ => some (fileWithGrace 300)) "capgrid.toml" = .ok c ∧ Pipeline.validate c = .ok () ∧
      isJsonPath "copy.toml" = false ∧ load (fun _ => some c.toToml) "copy.toml" = .ok c := by
  have hfile : (load (fun _ => some (fileWithGrace 300)) "capgrid.toml").toOption.map (fun c =>
      ((Pipeline.validate c).toOption, decide (c.damping.grace.millis < 2 ^ 64))) = some (some (), true) := by
    decide +kernel
  obtain ⟨c, hload, hchecks⟩ := Option.map_eq_some_iff.mp hfile
  obtain ⟨hvalid, hfits⟩ := Prod.mk.inj hchecks
  have hload := Change.eq_ok_of_toOption hload
  have hvalid := Change.eq_ok_of_toOption hvalid
  have hpath : isJsonPath "copy.toml" = false := by decide +kernel
  have hcopy : load (fun _ => some c.toToml) "copy.toml" = _ := load_toToml hload hvalid hpath rfl
  exact ⟨c, hload, hvalid, hpath, hcopy.trans (if_pos (of_decide_eq_true hfits))⟩

/-- The seconds that just do not fit in 64 bits of milliseconds are written as a text
that is refused. -/
theorem load_toToml_refused :
    ∃ c, load (fun _ => some (fileWithGrace 18446744073709552)) "capgrid.toml" = .ok c ∧
      Pipeline.validate c = .ok () ∧ load (fun _ => some c.toToml) "copy.toml" = .error .toml := by
  have hfile : (load (fun _ => some (fileWithGrace 18446744073709552)) "capgrid.toml").toOption.map (fun c =>
      ((Pipeline.validate c).toOption, (ofToml? c.toToml).isNone)) = some (some (), true) := by
    decide +kernel
  obtain ⟨c, hload, hchecks⟩ := Option.map_eq_some_iff.mp hfile
  obtain ⟨hvalid, hrefused⟩ := Prod.mk.inj hchecks
  have hpath : isJsonPath "copy.toml" = false := by decide +kernel
  refine ⟨c, Change.eq_ok_of_toOption hload, Change.eq_ok_of_toOption hvalid, ?_⟩
  have hcopy : load (fun _ => some c.toToml) "copy.toml" = (ofToml? c.toToml).elim (.error .toml) .ok :=
    load_of_toml hpath rfl
  rw [hcopy, Option.isNone_iff_eq_none.mp hrefused]
  rfl

end Config

end PoolScaling
