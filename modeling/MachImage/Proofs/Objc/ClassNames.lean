import MachImage.Proofs.Objc.Merging
/-!
How classes are called. The classes that can be read are remembered by their addresses, in the
order of the class list. Whoever refers to a class, as to its superclass or as to the class that it
extends, gives it the name that was remembered, or else the one that the address leads to. These are
one name, because nothing is remembered of an address but what it says.
-/
namespace MachImage.Objc

/-- The name of the class at an address, as the address itself says. -/
def calledAt (i : Image) (demangler : Demangler) (p : Nat) : String :=
  match identityAt? i demangler p with
  | some x => x.name
  | none => "<External>"

/-- The name of the class at an address, as one says it that refers to the class: that of its record
if there is one. -/
def referredName (i : Image) (demangler : Demangler) (recorded : List Class) (p : Nat) :
    Except Fault String :=
  match recorded.find? (·.address = p) with
  | some c => .ok c.name
  | none => classNameAt i demangler p

section
variable (i : Image) (demangler : Demangler)

theorem calledAt_eq (p : Nat) : calledAt i demangler p = nameAt i demangler p := by
  rw [calledAt, nameAt, identityAt?_eq]
  cases Declaration.at? i p <;> rfl

end

section
variable {i : Image} {demangler : Demangler}

theorem record_called {c : Class} (member : c ∈ records i demangler) :
    c.name = calledAt i demangler c.address := by
  obtain ⟨d, found, same⟩ := record_of_member member
  rw [calledAt_eq, nameAt, found, same]
  rfl

theorem record_superclass {c : Class} (member : c ∈ records i demangler) :
    ∃ r, i.recordAt ClassRecord c.address = .ok r ∧ c.superclass =
      if r.value.superclass = 0 then none
      else some (calledAt i demangler r.value.superclass) := by
  obtain ⟨d, found, same⟩ := record_of_member member
  obtain ⟨r, data, rawName, held, -, -, rfl⟩ := at?_cases found
  refine ⟨r, held, ?_⟩
  rw [same, record, Declaration.superclass?]
  dsimp only
  split
  · rfl
  · rw [Option.map_some, calledAt_eq]

theorem record_of_listed {p : Nat} {x : Identity} (member : p ∈ listed i "__objc_classlist")
    (read : identityAt? i demangler p = some x) :
    ∃ c ∈ records i demangler, c.address = p ∧ c.name = x.name := by
  have among := List.mem_filterMap.2 ⟨p, member, read⟩
  obtain ⟨y, first, same⟩ := mem_firsts (·.address) among
  have identities := records_identity i demangler
  rw [classSection] at identities
  rw [← identities] at first
  obtain ⟨c, recorded, rfl⟩ := List.mem_map.1 first
  have place : c.address = p := same.trans (identityAt?_address read)
  refine ⟨c, recorded, place, ?_⟩
  rw [record_called recorded, place, calledAt, read]

/-- A record and the address itself give a class one name. -/
theorem referredName_eq (p : Nat) :
    referredName i demangler (records i demangler) p = .ok (calledAt i demangler p) := by
  rw [referredName]
  cases found : (records i demangler).find? (·.address = p) with
  | none =>
    dsimp only
    rw [classNameAt_eq, calledAt_eq]
  | some c =>
    have place : c.address = p := by simpa using List.find?_some found
    dsimp only
    rw [record_called (List.mem_of_find?_eq_some found), place]

theorem categories_named {m : Metadata} (run : Metadata.ofImage i demangler = .ok m) :
    m.categories = ((listedCategories i).filter fun k =>
      ∀ c ∈ records i demangler, k.target ≠ some c.address).map fun k =>
        { category := { k with target := none },
          className := (k.target.map (calledAt i demangler)).getD "<External>" } := by
  have names : nameAt i demangler = calledAt i demangler :=
    funext fun p => (calledAt_eq i demangler p).symm
  rw [ofImage_described run, described, List.filter_congr fun k _ => unmerged_iff k]
  apply List.map_congr_left
  intro k _
  rw [foreign, names]
  rfl

/-- Every reference to a class gives it one name, which is that of its record if the class list
leads to it, and else what its address says. A class takes the name of its superclass from the
address that it holds, and a category that of the class that it extends, whether or not it is merged
into the class. -/
theorem classes_called {m : Metadata} (run : Metadata.ofImage i demangler = .ok m) :
    ∃ (ds : Table Nat Declaration) (cs : List Category) (recorded : List Class),
      readDeclarations i = .ok ds ∧ ds = (listed i "__objc_classlist").foldl (remember i) [] ∧
      readCategories i = .ok cs ∧ ds.values.mapM (classOf i demangler cs) = .ok recorded ∧
      m.classes.values = firsts (·.name) recorded ∧
      (∀ p ∈ listed i "__objc_classlist", ∀ x, identityAt? i demangler p = some x →
        ∃ c ∈ recorded, c.address = p ∧ c.name = x.name) ∧
      (∀ p, referredName i demangler recorded p = .ok (calledAt i demangler p)) ∧
      (∀ c ∈ recorded, c.name = calledAt i demangler c.address) ∧
      (∀ c ∈ recorded, ∃ r, i.recordAt ClassRecord c.address = .ok r ∧ c.superclass =
        if r.value.superclass = 0 then none
        else some (calledAt i demangler r.value.superclass)) ∧
      (∀ p k, categoryAt i p = .ok (some k) → ∃ r, i.recordAt CategoryRecord p = .ok r ∧
        k.target = if r.value.baseClass = 0 then none else some r.value.baseClass) ∧
      m.categories = (cs.filter fun k => ∀ c ∈ recorded, k.target ≠ some c.address).map fun k =>
        { category := { k with target := none },
          className := (k.target.map (calledAt i demangler)).getD "<External>" } := by
  have remembered := declarations_remembered i
  rw [targets_slots, classSection] at remembered
  refine ⟨declarations i, listedCategories i, records i demangler, readDeclarations_eq i,
    remembered, readCategories_eq i, records_eq i demangler, classes_values run,
    fun p member x => record_of_listed member, referredName_eq, fun c => record_called,
    fun c => record_superclass, ?_, categories_named run⟩
  intro p k read
  obtain ⟨r, held, target, -⟩ := categoryAt_record read
  exact ⟨r, held, target⟩

end

def citedClasses : Image := imageOf
  ([0x100000018, 0x100000020, 0x100000058, 0x100000088, 0x100000020, 0x100000028, 0x1000000B8,
    0x100000018, 0x100000018, 0x100000039, 0x1000000BA,
    0x1000000BC, 0x100000028, 0, 0, 0, 0,
    0x1000000BC, 7, 0, 0, 0, 0].flatMap wordBytes ++ [0x41, 0, 0x4D, 0, 0x4B, 0])
  [("__objc_classlist", 0, 16), ("__objc_catlist", 16, 16), ("__objc_const", 24, 166)]

theorem classes_called_cited : ∃ m, Metadata.ofImage citedClasses (some ("~" ++ ·)) = .ok m ∧
    (m.classes.values.map (·.superclass)) = [some "A"] ∧
    (m.categories.map (·.className)) = ["~M", "<External>"] := by
  have some_present : present citedClasses ≠ [] := by decide +kernel
  have data : constantSection ∈ present citedClasses := by decide +kernel
  obtain ⟨m, run⟩ := ofImage_sure (some ("~" ++ ·)) some_present fun missing => missing.2 data
  obtain ⟨ds, cs, recorded, declared, -, categories, made, classes, -, -, -, -, -, kept⟩ :=
    classes_called run
  rw [readDeclarations_eq, Except.ok.injEq] at declared
  rw [readCategories_eq, Except.ok.injEq] at categories
  subst declared categories
  rw [records_eq, Except.ok.injEq] at made
  subst made
  refine ⟨m, run, ?_, ?_⟩
  · rw [classes]
    decide +kernel
  · have kept := congrArg (List.map (·.className)) kept
    rw [List.map_map] at kept
    exact kept.trans (by decide +kernel)

end MachImage.Objc
