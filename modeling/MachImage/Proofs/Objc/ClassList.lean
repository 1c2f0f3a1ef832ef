import MachImage.Proofs.Image.PointerSlots
import MachImage.Proofs.Objc.Extraction
/-!
Which classes an extraction shows. The class list is a run of pointers in the file. Null pointers,
pointers that came before and classes that cannot be read are dropped from it, and then the classes
whose name was taken by an earlier one. What is dropped says nothing about the others.
-/
namespace MachImage.Objc

def pointersOf (i : Image) (name : String) : List Nat :=
  match i.sectionIn? name ["__DATA_CONST", "__DATA"] with
  | none => []
  | some s =>
    if s.fileOffset + s.size ≤ i.region.size then
      (List.range (s.size / 8)).map fun k => Record.u64 i.region.bytes (s.fileOffset + 8 * k)
    else []

def listed (i : Image) (name : String) : List Nat := (pointersOf i name).filter (· ≠ 0)

theorem targets_slots (i : Image) (name : String) : targets (slots i name) = listed i name := by
  unfold targets slots listed pointersOf
  change _ = List.filter _ (match i.dataSection? name with | none => _ | some s => _)
  congr 1
  cases found : i.dataSection? name with
  | none =>
    rw [Image.pointerSection_of_none found]
    rfl
  | some s =>
    dsimp only
    split
    case isTrue inside =>
      rw [Image.pointerSection_of_le found inside]
      exact List.map_map
    case isFalse outside =>
      rw [Image.pointerSection_of_lt found (Nat.lt_of_not_le outside)]
      rfl

structure Identity where
  name : String
  address : Nat
  isSwift : Bool
  deriving DecidableEq

def Class.identity (c : Class) : Identity := ⟨c.name, c.address, c.isSwift⟩

/-- A class that can be read: both of its records can, and its name is not null and can. The two low
bits of the data pointer are flags, and say that the name may be mangled. -/
def identityAt? (i : Image) (demangler : Demangler) (p : Nat) : Option Identity := do
  let record ← (i.recordAt ClassRecord p).toOption
  let data ← (i.recordAt ClassData (record.value.data / 4 * 4 : Nat)).toOption
  if data.value.name = 0 then none
  else
    let raw ← (i.stringAt data.value.name).toOption
    if record.value.data % 4 ≠ 0 then some ⟨demangler.shown raw, p, true⟩
    else some ⟨raw, p, false⟩

def Declaration.identity (demangler : Demangler) (d : Declaration) : Identity :=
  ⟨d.name demangler, d.address, isSwift d.record⟩

theorem identityAt?_eq (i : Image) (demangler : Demangler) (p : Nat) :
    identityAt? i demangler p = (Declaration.at? i p).map (·.identity demangler) := by
  unfold identityAt? Declaration.at? Declaration.read classRecordAt dataAddress
  cases i.recordAt ClassRecord p with
  | error e => rfl
  | ok record =>
    simp only [Except.toOption, ok_bind, Option.bind_eq_bind, Option.bind_some]
    cases i.recordAt ClassData (record.value.data / 4 * 4 : Nat) with
    | error e => rfl
    | ok data =>
      simp only [Option.bind_some]
      by_cases unnamed : data.value.name = 0
      · simp [unnamed, pure, Except.pure, bind, Except.bind]
      · cases named : i.stringAt data.value.name with
        | error e => simp [unnamed, named, pure, Except.pure, bind, Except.bind]
        | ok raw =>
          by_cases plain : record.value.data % 4 = 0 <;>
            simp [unnamed, named, plain, pure, Except.pure, bind, Except.bind,
              Declaration.identity, Declaration.name, Declaration.mangled?, isSwift]

theorem identityAt?_address {i : Image} {demangler : Demangler} {p : Nat} {x : Identity}
    (read : identityAt? i demangler p = some x) : x.address = p := by
  rw [identityAt?_eq, Option.map_eq_some_iff] at read
  obtain ⟨d, found, rfl⟩ := read
  exact at?_address found

section
variable (i : Image) (demangler : Demangler)

theorem declarations_keyed : declarations i = .ofListFirst
    (((listed i classSection).filterMap (Declaration.at? i)).map fun d => (d.address, d)) := by
  rw [declarations, targets_slots, List.map_filterMap]
  congr 2
  funext p
  cases found : Declaration.at? i p with
  | none => rfl
  | some d => simp [at?_address found]

theorem declarations_values : (declarations i).values =
    firsts (·.address) ((listed i classSection).filterMap (Declaration.at? i)) := by
  rw [declarations_keyed, Table.values_ofListFirst]

theorem declarations_keys : (declarations i).keys = (declarations i).values.map (·.address) := by
  rw [declarations_keyed, Table.values_ofListFirst, Table.keys_ofListFirst]

theorem records_identity : (records i demangler).map Class.identity =
    firsts (·.address) ((listed i classSection).filterMap (identityAt? i demangler)) := by
  have each : (listed i classSection).filterMap (identityAt? i demangler) =
      ((listed i classSection).filterMap (Declaration.at? i)).map (·.identity demangler) := by
    rw [List.map_filterMap]
    congr 1
    funext p
    exact identityAt?_eq i demangler p
  rw [each, firsts_map, records, declarations_values, List.map_map]
  rfl

end

theorem classes_values {i : Image} {demangler : Demangler} {m : Metadata}
    (run : Metadata.ofImage i demangler = .ok m) :
    m.classes.values = firsts (·.name) (records i demangler) := by
  rw [ofImage_described run]
  exact Table.values_ofListFirst (·.name) (records i demangler)

theorem classes_keys {i : Image} {demangler : Demangler} {m : Metadata}
    (run : Metadata.ofImage i demangler = .ok m) :
    m.classes.keys = (m.classes.values.map Class.identity).map (·.name) := by
  rw [classes_values run, ofImage_described run, List.map_map]
  exact Table.keys_ofListFirst (·.name) (records i demangler)

theorem classes_identity {i : Image} {demangler : Demangler} {m : Metadata}
    (run : Metadata.ofImage i demangler = .ok m) :
    m.classes.values.map Class.identity = firsts (·.name) (firsts (·.address)
      ((listed i "__objc_classlist").filterMap (identityAt? i demangler))) := by
  have records := records_identity i demangler
  rw [classSection] at records
  rw [classes_values run, ← records, firsts_map]
  rfl

def leads (i : Image) (demangler : Demangler) (p : Nat) : Bool := (identityAt? i demangler p).isSome

theorem filterMap_leads {i j : Image} {demangler : Demangler} {ps : List Nat}
    (same : ∀ p ∈ ps, leads i demangler p →
      identityAt? j demangler p = identityAt? i demangler p) :
    (ps.filter (leads i demangler)).filterMap (identityAt? j demangler) =
      ps.filterMap (identityAt? i demangler) := by
  induction ps with
  | nil => rfl
  | cons p ps ih =>
    have rest := ih fun q member => same q (List.mem_cons_of_mem p member)
    cases read : identityAt? i demangler p with
    | none => simp [leads, read, rest]
    | some x =>
      have first := same p List.mem_cons_self (by simp [leads, read])
      simp [leads, read, first, rest]

/-- The classes are those that can be read from the pointers of the class list, the first at each
address and then the first of each name. Every name that can be read is shown, and a pointer that
leads to no class has no part in the result. -/
theorem classes_of_list {i : Image} {demangler : Demangler} {m : Metadata}
    (run : Metadata.ofImage i demangler = .ok m) :
    m.classes.values.map Class.identity = firsts (·.name) (firsts (·.address)
        ((listed i "__objc_classlist").filterMap (identityAt? i demangler))) ∧
      m.classes.keys = (m.classes.values.map Class.identity).map (·.name) ∧
      m.classes.keys.Nodup ∧
      (∀ p ∈ listed i "__objc_classlist", ∀ x, identityAt? i demangler p = some x →
        x.address = p ∧ x.name ∈ m.classes.keys) ∧
      ∀ (j : Image) (n : Metadata), Metadata.ofImage j demangler = .ok n →
        (listed j "__objc_classlist").filter (leads j demangler) =
          (listed i "__objc_classlist").filter (leads i demangler) →
        (∀ p ∈ listed i "__objc_classlist", leads i demangler p →
          identityAt? j demangler p = identityAt? i demangler p) →
        n.classes.values.map Class.identity = m.classes.values.map Class.identity := by
  have identities := classes_identity run
  have keys := classes_keys run
  refine ⟨identities, keys, ?_, ?_, ?_⟩
  · rw [keys, identities]
    exact firsts_nodup _ _
  · intro p member x read
    have among := List.mem_filterMap.2 ⟨p, member, read⟩
    obtain ⟨y, first, sameAddress⟩ := mem_firsts (·.address) among
    obtain ⟨q, -, found⟩ := List.mem_filterMap.1 (firsts_subset _ _ first)
    have place : q = p := by
      rw [← identityAt?_address found, sameAddress, identityAt?_address read]
    rw [place, read, Option.some.injEq] at found
    subst found
    obtain ⟨z, shown, sameName⟩ := mem_firsts (·.name) first
    refine ⟨identityAt?_address read, ?_⟩
    rw [keys, identities, ← sameName]
    exact List.mem_map_of_mem shown
  · intro j n later pointers same
    have read : (listed j "__objc_classlist").filterMap (identityAt? j demangler) =
        (listed i "__objc_classlist").filterMap (identityAt? i demangler) := by
      rw [← filterMap_leads fun _ _ _ => rfl, pointers]
      exact filterMap_leads same
    rw [classes_identity later, identities, read]

def wordBytes (n : Nat) : List UInt8 := (List.range 8).map fun k => UInt8.ofNat (n >>> (8 * k))

def imageOf (bytes : List UInt8) (sections : List (String × Nat × Nat)) : Image :=
  let start := Image.defaultVirtualBase
  let segment : SegmentCommand := { (Record.decode #[] : SegmentCommand) with
    name := "__DATA".toUTF8.toList, vmAddress := start, vmSize := bytes.length,
    fileSize := bytes.length }
  let headers : List SectionHeader := sections.map fun (name, offset, size) =>
    { (Record.decode #[] : SectionHeader) with
      name := name.toUTF8.toList, address := start + offset, size, fileOffset := offset }
  { region := { bytes := bytes.toArray }, fileOffset := 0, header := ⟨Record.decode #[], 0⟩,
    commands := [.segment ⟨⟨segment, 32⟩, headers.map fun h => ⟨⟨h, 104⟩, ⟨segment, 32⟩⟩⟩],
    symbols := [] }

def nameBytes (name : String) : List UInt8 := (name.toUTF8.toList ++ List.replicate 16 0).take 16

def sectionBytes (name : String) (address size fileOffset : Nat) : List UInt8 :=
  nameBytes name ++ nameBytes "" ++ [address, size, fileOffset, 0, 0, 0].flatMap wordBytes

def segmentBytes (name : String) (address size : Nat) (sections : List (List UInt8)) : List UInt8 :=
  let count := sections.length
  wordBytes (0x19 + (72 + 80 * count) <<< 32) ++ nameBytes name ++
    [address, size, 0, size, 0, count].flatMap wordBytes ++ sections.flatten

def fileOf (commands : List (List UInt8)) (words : List Nat) : Region :=
  let counts := commands.length + commands.flatten.length <<< 32
  let header := [Image.magic64 + 0x0100000C <<< 32, 2 <<< 32, counts, 0]
  { bytes := (header.flatMap wordBytes ++ commands.flatten ++ words.flatMap wordBytes).toArray }

def repeatedClass : Image := imageOf
  ([0x100000028, 0, 7, 0x100000028, 0x100000050,
    0, 0, 0, 0, 0x100000079,
    0, 0, 0, 0, 0x100000078,
    0, 0, 0, 0x1000000C0, 0, 0, 0, 0, 0].flatMap wordBytes ++ [0x41, 0])
  [("__objc_classlist", 0, 40), ("__objc_const", 40, 154)]

theorem classes_of_list_repeated : ∃ m, Metadata.ofImage repeatedClass none = .ok m ∧
    m.classes.values.map Class.identity = [⟨"A", 0x100000028, true⟩] ∧ m.classes.keys = ["A"] := by
  have some_present : present repeatedClass ≠ [] := by decide +kernel
  have data : constantSection ∈ present repeatedClass := by decide +kernel
  obtain ⟨m, run⟩ := ofImage_sure none some_present fun missing => missing.2 data
  obtain ⟨identities, keys, -⟩ := classes_of_list run
  have shown : m.classes.values.map Class.identity = [⟨"A", 0x100000028, true⟩] :=
    identities.trans (by decide +kernel)
  refine ⟨m, run, shown, ?_⟩
  rw [keys, shown]
  rfl

end MachImage.Objc
