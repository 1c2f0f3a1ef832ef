import MachImage.Proofs.Objc.Passes
/-!
What an extraction comes to. Whatever it meets in the bytes of an image, it gets through its passes,
and only missing sections stop it. What it says at the end is the description of the image.
-/
namespace MachImage.Objc
open Halting Pass

def present (i : Image) : List String := sectionNames.filter fun name => (i.dataSection? name).isSome

theorem mem_present {i : Image} {name : String} (listed : name ∈ sectionNames) :
    name ∈ present i ↔ (i.dataSection? name).isSome := by
  simp [present, listed]

section
variable {i : Image} (demangler : Demangler)

theorem extract_noRuntimeData (absent : present i = []) :
    (extract i demangler).outcome {} = (.error .noRuntimeData, {}) := by
  rw [present] at absent
  rw [extract]
  dsimp only
  rw [if_pos absent]
  rfl

theorem extract_noConstantData
    (missing : classSection ∈ present i ∧ constantSection ∉ present i) :
    (extract i demangler).outcome {} = (.error .noConstantData, {}) := by
  have some_present : present i ≠ [] := List.ne_nil_of_mem missing.1
  rw [present] at some_present missing
  rw [extract]
  dsimp only
  rw [if_neg some_present, if_pos missing]
  rfl

theorem extract_through (some_present : present i ≠ [])
    (data : ¬ (classSection ∈ present i ∧ constantSection ∉ present i)) :
    ∃ t, (extract i demangler).outcome {} = (.ok (described i demangler), t) ∧
      t.classes = (declarations i).mapValues fun _ => record i demangler (listedCategories i) := by
  obtain ⟨entered, entering, classes⟩ := outcome_enterClasses i demangler
  obtain ⟨named, naming, classes, fresh⟩ := outcome_nameSuperclasses i demangler classes
  obtain ⟨filled, filling, classes⟩ := outcome_fillBodies demangler classes fresh
  obtain ⟨merged, merging, classes⟩ := outcome_mergeCategories classes (listedCategories i)
  refine ⟨merged, ?_, classes⟩
  rw [present] at some_present data
  rw [extract]
  dsimp only
  rw [if_neg some_present, if_neg data, readProtocols_eq, readCategories_eq, readSelectors_eq,
    bind_of_ok (outcome_ofResult _ _), bind_of_ok entering, bind_of_ok (outcome_ofResult _ _),
    bind_of_ok naming, bind_of_ok filling, bind_of_ok merging, bind_of_ok (outcome_ofResult _ _),
    bind_of_ok (outcome_get _), outcome_pure, classes, Table.values_mapValues]
  rfl

theorem ofImage_eq : Metadata.ofImage i demangler =
    if present i = [] then .error .noRuntimeData
    else if classSection ∈ present i ∧ constantSection ∉ present i then .error .noConstantData
    else .ok (described i demangler) := by
  rw [Metadata.ofImage]
  split
  · rw [extract_noRuntimeData demangler ‹_›]
  · split
    · rw [extract_noConstantData demangler ‹_›]
    · obtain ⟨t, through, -⟩ := extract_through demangler ‹_› ‹_›
      rw [through]

theorem ofImage_sure (some_present : present i ≠ [])
    (data : ¬ (classSection ∈ present i ∧ constantSection ∉ present i)) :
    Sure (Metadata.ofImage i demangler) :=
  ⟨described i demangler, by rw [ofImage_eq, if_neg some_present, if_neg data]⟩

end

theorem ofImage_described {i : Image} {demangler : Demangler} {m : Metadata}
    (run : Metadata.ofImage i demangler = .ok m) : m = described i demangler := by
  rw [ofImage_eq] at run
  split at run
  · cases run
  · split at run
    · cases run
    · exact (Except.ok.inj run).symm

/-- What the passes hold at the end is a record for each declaration. -/
theorem classes_of_extract {i : Image} {demangler : Demangler} {m : Metadata} {t : Registry}
    (run : (extract i demangler).outcome {} = (.ok m, t)) :
    t.classes = (declarations i).mapValues fun _ => record i demangler (listedCategories i) := by
  by_cases absent : present i = []
  · rw [extract_noRuntimeData demangler absent] at run
    cases run
  · by_cases missing : classSection ∈ present i ∧ constantSection ∉ present i
    · rw [extract_noConstantData demangler missing] at run
      cases run
    · obtain ⟨u, through, classes⟩ := extract_through demangler absent missing
      rw [through] at run
      cases run
      exact classes

/-- Only missing sections stop an extraction: all five of them, or the data of listed classes. -/
theorem extraction_outcome (i : Image) (demangler : Demangler) :
    let found name := (i.sectionIn? name ["__DATA_CONST", "__DATA"]).isSome
    let names := ["__objc_classlist", "__objc_catlist", "__objc_protolist", "__objc_selrefs",
      "__objc_const"]
    (Metadata.ofImage i demangler = .error .noRuntimeData ↔ ∀ name ∈ names, ¬ found name) ∧
    (Metadata.ofImage i demangler = .error .noConstantData ↔
      found "__objc_classlist" ∧ ¬ found "__objc_const") ∧
    ((∃ m, Metadata.ofImage i demangler = .ok m) ↔
      (∃ name ∈ names, found name) ∧ (found "__objc_classlist" → found "__objc_const")) := by
  intro found names
  have none_present : present i = [] ↔ ∀ name ∈ names, ¬ found name := List.filter_eq_nil_iff
  have some_present : (∃ name ∈ names, found name) ↔ present i ≠ [] := by
    simp only [ne_eq, none_present, Classical.not_forall, Classical.not_not, exists_prop]
  have listed : found "__objc_classlist" ↔ classSection ∈ present i :=
    (mem_present (by decide)).symm
  have held : found "__objc_const" ↔ constantSection ∈ present i :=
    (mem_present (by decide)).symm
  rw [← none_present, some_present, listed, held]
  by_cases absent : present i = []
  · simp [ofImage_eq, absent]
  · by_cases data : classSection ∈ present i ∧ constantSection ∉ present i
    · simp [ofImage_eq, absent, data]
    · obtain ⟨m, run⟩ := ofImage_sure demangler absent data
      have kept : classSection ∈ present i → constantSection ∈ present i := by
        intro h
        exact Classical.byContradiction fun gone => data ⟨h, gone⟩
      simp only [run, absent, reduceCtorEq, false_iff, ne_eq, not_false_eq_true, true_and]
      exact ⟨data, fun _ => kept, fun _ => ⟨m, rfl⟩⟩

end MachImage.Objc
