import Detritus.Server.Logs

/-! The identity of an entry, as it is authorised and as it is validated.

`source_from_resource_logs` reads the first attribute of a name. The document that a
schema sees is a map, in which the last one that has a value stands. The two agree on
an entry exactly if these two values of each name look the same. -/
namespace Detritus.Server
open Files Protocol Process
variable {r : ResourceLogs}

/-- The names that `source_from_resource_logs` reads. -/
def identityNames : List String := ["source.project", "source.platform", "source.version", "source.install_id"]

/-- The first value of a name looks like the last one. -/
def Consistent (attributes : List KeyValue) (name : String) : Prop :=
  (lastValue attributes name).map anyValueJson = (firstValue attributes name).map anyValueJson

/-- What the schema sees of the resource under a name. -/
def validated (r : ResourceLogs) (name : String) : Option Json :=
  ((resourceLogsToValidationValue r).member "resource").bind (Json.member name)

/-- An entry's source is the one its document names, and the platform and version are those read. -/
structure Vouched (r : ResourceLogs) (key : SourceKey) : Prop where
  project : validated r "source.project" = some (.string key.project)
  installId : validated r "source.install_id" = some (.string key.sourceId)
  platform : ∀ resource s, r.resource = some resource → requiredAttr resource.attributes "source.platform" = .ok s →
    validated r "source.platform" = some (.string s)
  version : ∀ resource s, r.resource = some resource → requiredAttr resource.attributes "source.version" = .ok s →
    validated r "source.version" = some (.string s)

theorem validated_eq {resource : Resource} (h : r.resource = some resource) (name : String) :
    validated r name = (lastValue resource.attributes name).map anyValueJson := by
  unfold validated
  rw [member_resource h]
  exact member_attributesJson resource.attributes name

/-- A text that was read is what the schema sees exactly if the two values look the same. -/
theorem validated_iff_consistent {resource : Resource} (h : r.resource = some resource) {name s : String}
    (hs : requiredAttr resource.attributes name = .ok s) :
    validated r name = some (.string s) ↔ Consistent resource.attributes name := by
  rw [validated_eq h, Consistent, requiredAttr_ok_iff.mp hs]
  rfl

/-- What is read when a source is found. -/
theorem sourceFromResourceLogs_ok {key : SourceKey} (h : sourceFromResourceLogs r = .ok key) :
    ∃ resource, r.resource = some resource ∧
      requiredAttr resource.attributes "source.project" = .ok key.project ∧
      (∃ platform, requiredAttr resource.attributes "source.platform" = .ok platform) ∧
      (∃ version, requiredAttr resource.attributes "source.version" = .ok version) ∧
      requiredAttr resource.attributes "source.install_id" = .ok key.sourceId := by
  unfold sourceFromResourceLogs at h
  cases hr : r.resource with
  | none => rw [hr] at h; cases h
  | some resource =>
    rw [hr] at h
    obtain ⟨project, hproject, h⟩ := of_bind_ok h
    obtain ⟨platform, hplatform, h⟩ := of_bind_ok h
    obtain ⟨version, hversion, h⟩ := of_bind_ok h
    obtain ⟨installId, hinstall, h⟩ := of_bind_ok h
    cases hnew : SourceKey.new project installId with
    | error e => rw [hnew] at h; cases h
    | ok source =>
      rw [hnew] at h
      cases h
      obtain ⟨rfl, -⟩ := SourceKey.new_ok hnew
      exact ⟨resource, rfl, hproject, ⟨platform, hplatform⟩, ⟨version, hversion⟩, hinstall⟩

/-- **The identity that is authorised is the one that was validated exactly for the entries
in which, for each name read, the first value looks like the last one.** -/
theorem vouched_iff_consistent (r : ResourceLogs) :
    (∀ key, sourceFromResourceLogs r = .ok key → Vouched r key) ↔
      ∀ key resource, sourceFromResourceLogs r = .ok key → r.resource = some resource →
        ∀ name ∈ identityNames, Consistent resource.attributes name := by
  constructor
  · intro hv key resource hkey hr
    obtain ⟨_, hr', hproject, ⟨platform, hplatform⟩, ⟨version, hversion⟩, hinstall⟩ := sourceFromResourceLogs_ok hkey
    obtain rfl : resource = _ := Option.some.inj (hr.symm.trans hr')
    have v := hv key hkey
    simp only [identityNames, List.forall_mem_cons]
    exact ⟨(validated_iff_consistent hr hproject).mp v.project,
      (validated_iff_consistent hr hplatform).mp (v.platform resource platform hr hplatform),
      (validated_iff_consistent hr hversion).mp (v.version resource version hr hversion),
      (validated_iff_consistent hr hinstall).mp v.installId, by simp⟩
  · intro hc key hkey
    obtain ⟨resource, hr, hproject, -, -, hinstall⟩ := sourceFromResourceLogs_ok hkey
    have c := hc key resource hkey hr
    simp only [identityNames, List.forall_mem_cons] at c
    obtain ⟨cproject, cplatform, cversion, cinstall, -⟩ := c
    refine ⟨(validated_iff_consistent hr hproject).mpr cproject,
      (validated_iff_consistent hr hinstall).mpr cinstall, ?_, ?_⟩
    · intro resource' s hr' hs
      obtain rfl : resource' = resource := Option.some.inj (hr'.symm.trans hr)
      exact (validated_iff_consistent hr hs).mpr cplatform
    · intro resource' s hr' hs
      obtain rfl : resource' = resource := Option.some.inj (hr'.symm.trans hr)
      exact (validated_iff_consistent hr hs).mpr cversion

/-- An entry that names its project twice. -/
def twoProjects : ResourceLogs where
  resource := some ⟨[("source.project", some (.string "app")), ("source.platform", some (.string "linux")),
    ("source.version", some (.string "1.0")), ("source.install_id", some (.string "a")),
    ("source.project", some (.string "other"))]⟩
  scopeLogs := []

/-- It is authorised as `app`, and validated as `other`. -/
theorem twoProjects_not_vouched : sourceFromResourceLogs twoProjects = .ok ⟨"app", "a"⟩ ∧
    validated twoProjects "source.project" = some (.string "other") ∧ ¬ Vouched twoProjects ⟨"app", "a"⟩ := by
  have hv : validated twoProjects "source.project" = some (.string "other") :=
    (validated_eq (show twoProjects.resource = some _ from rfl) _).trans rfl
  refine ⟨by decide +kernel, hv, ?_⟩
  intro h
  have hp := hv.symm.trans h.project
  simp at hp

end Detritus.Server
