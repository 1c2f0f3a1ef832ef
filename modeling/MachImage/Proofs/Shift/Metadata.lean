import MachImage.PrintableRun
import MachImage.Proofs.Objc.Extraction
import MachImage.SwiftType
import MachImage.Proofs.Shift.Views
/-!
The strings and the runtime metadata of an image further on in its file. Everything is followed by
addresses, which stay the same, so the same is found.
-/
namespace MachImage

namespace Image

section
variable (o : Nat) (i : Image)

theorem stringsIn_shift (least : Nat) (segment name : String) :
    (i.shift o).stringsIn least segment name = i.stringsIn least segment name := by
  rw [stringsIn, sectionNamed?_shift, stringsIn]
  cases i.sectionNamed? name segment with
  | none => rfl
  | some s =>
    have read : (i.shift o).region.read (s.shift o).fileOffset (s.shift o).size =
        shifted o id (i.region.read s.fileOffset s.size) := i.region.read_shift o _ _
    dsimp only [Option.map]
    rw [read]
    change (if s.isZeroFill then _ else _) = _
    split
    · rfl
    · cases i.region.read s.fileOffset s.size with
      | error e => rfl
      | ok bs => rfl

theorem strings_shift (least : Int) : (i.shift o).strings least = i.strings least := by
  unfold strings
  simp only [stringsIn_shift]

end
end Image

namespace SwiftType

section
variable (o : Nat) (i : Image)

theorem descriptorOf_shift (entry word : Int) :
    descriptorOf (i.shift o) entry word = shifted o id (descriptorOf i entry word) := by
  unfold descriptorOf
  dsimp only
  split
  · rfl
  · split
    · exact shifted_map (shifted_bind (i.pointerAt_shift o _) fun _ => rfl) fun _ => rfl
    · rfl

theorem nameOf_shift (descriptor offset : Int) :
    nameOf (i.shift o) descriptor offset = nameOf i descriptor offset := by
  unfold nameOf
  rw [Image.stringAt_shift]
  split
  · rfl
  · cases i.stringAt (descriptor + 8 + offset) with
    | error e => rfl
    | ok name => rfl

theorem ofDescriptor_shift (address : Int) :
    ofDescriptor (i.shift o) address = shifted o id (ofDescriptor i address) := by
  apply shifted_bind (i.recordAt_shift o TypeDescriptor address)
  intro d
  dsimp only [Placed.shift]
  rw [nameOf_shift]
  rfl

theorem entry_shift (entry word : Int) :
    ofEntry? (i.shift o) entry word = ofEntry? i entry word := by
  unfold ofEntry?
  rw [descriptorOf_shift]
  cases descriptorOf i entry word with
  | error e => rfl
  | ok found =>
    cases found with
    | none => rfl
    | some address =>
      dsimp only [shifted, id]
      rw [ofDescriptor_shift, toOption_fixed]

theorem ofImage_shift : ofImage (i.shift o) = ofImage i := by
  rw [ofImage, Image.sectionNamed?_shift, ofImage]
  cases i.sectionNamed? typesSection "__TEXT" with
  | none => rfl
  | some s =>
    have read : (i.shift o).region.read (s.shift o).fileOffset (s.shift o).size =
        shifted o id (i.region.read s.fileOffset s.size) := i.region.read_shift o _ _
    dsimp only [Option.map]
    rw [read]
    cases i.region.read s.fileOffset s.size with
    | error e => rfl
    | ok bs =>
      dsimp only [shifted, id]
      simp only [entry_shift]
      rfl

end
end SwiftType

namespace Objc

section
variable (o : Nat) (i : Image)

theorem stringOr_shift (address : Int) (placeholder : String) :
    stringOr (i.shift o) address placeholder = shifted o id (stringOr i address placeholder) := by
  unfold stringOr
  split
  · rfl
  · exact i.stringAt_shift o address

theorem endsInSection_shift (list stop : Nat) :
    endsInSection (i.shift o) list stop = endsInSection i list stop := by
  rw [endsInSection, Image.sectionAt?_shift, endsInSection]
  cases i.sectionAt? list with
  | none => rfl
  | some s => rfl

theorem fits_shift (list size count : Nat) :
    fits (i.shift o) list size count = shifted o id (fits i list size count) := by
  unfold fits
  dsimp only
  rw [endsInSection_shift, Image.offsetOf_shift, attempt_fixed]
  split
  · rfl
  · split
    · exact shifted_map rfl fun found => rfl
    · rfl

theorem gatherFrom_fixed {α : Type} {read read' : Nat → Except Fault (Option α)}
    (each : ∀ address, read' address = shifted o id (read address)) (stride address count : Nat) :
    gatherFrom read' stride address count =
      shifted o id (gatherFrom read stride address count) := by
  rw [gatherFrom_eq, gatherFrom_eq]
  exact gather_fixed fun k => each _

def EntryForm.Fixed {α : Type} (f : EntryForm α) : Prop :=
  ∀ address, f.read (i.shift o) address = shifted o id (f.read i address)

theorem readAll_shift {α : Type} {f : EntryForm α} (fixed : f.Fixed o i) (list size count : Nat) :
    f.readAll (i.shift o) list size count = shifted o id (f.readAll i list size count) :=
  gatherFrom_fixed o (fun _ => shifted_map (fixed _) fun _ => rfl) ..

theorem list_shift {α : Type} {form : EntryListHeader → EntryForm α}
    (fixed : ∀ h, (form h).Fixed o i) (address : Nat) :
    EntryForm.list form (i.shift o) address = shifted o id (EntryForm.list form i address) := by
  unfold EntryForm.list
  split
  · rfl
  · apply shifted_bind (i.recordAt_shift o EntryListHeader address)
    intro header
    dsimp only [Placed.shift]
    split
    · rfl
    · apply shifted_bind (fits_shift o i _ _ _)
      intro inside
      change (if inside = true then _ else _) = shifted o id (if inside = true then _ else _)
      split
      · exact readAll_shift o i (fixed header.value) _ _ _
      · rfl

theorem byAddress_fixed (isClassMethod : Bool) : (Method.byAddress isClassMethod).Fixed o i := by
  intro address
  apply shifted_bind (i.recordAt_shift o MethodEntry address)
  intro e
  apply shifted_bind (stringOr_shift o i _ _)
  intro name
  exact shifted_bind (stringOr_shift o i _ _) fun _ => rfl

theorem byOffset_fixed (isClassMethod : Bool) : (Method.byOffset isClassMethod).Fixed o i := by
  intro address
  apply shifted_bind (i.recordAt_shift o RelativeMethodEntry address)
  intro e
  apply shifted_bind (i.pointerAt_shift o _)
  intro literal
  apply shifted_bind (stringOr_shift o i _ _)
  intro name
  exact shifted_bind (stringOr_shift o i _ _) fun _ => rfl

theorem property_fixed : Property.form.Fixed o i := by
  intro address
  apply shifted_bind (i.recordAt_shift o PropertyEntry address)
  intro e
  apply shifted_bind (stringOr_shift o i _ _)
  intro name
  exact shifted_bind (stringOr_shift o i _ _) fun _ => rfl

theorem ivarOffset_shift (pointer : Nat) :
    Ivar.offsetAt (i.shift o) pointer = shifted o id (Ivar.offsetAt i pointer) := by
  unfold Ivar.offsetAt
  rw [Image.pointerAt_shift, attempt_fixed]
  split
  · rfl
  · exact shifted_map rfl fun found => rfl

theorem ivar_fixed : Ivar.form.Fixed o i := by
  intro address
  apply shifted_bind (i.recordAt_shift o IvarEntry address)
  intro e
  apply shifted_bind (stringOr_shift o i _ _)
  intro name
  apply shifted_bind (ivarOffset_shift o i _)
  intro offset
  exact shifted_bind (stringOr_shift o i _ _) fun _ => rfl

theorem methodList_shift (isClassMethod : Bool) (address : Nat) :
    Method.list isClassMethod (i.shift o) address =
      shifted o id (Method.list isClassMethod i address) := by
  refine list_shift o i (fun h => ?_) address
  split
  · exact byOffset_fixed o i isClassMethod
  · exact byAddress_fixed o i isClassMethod

theorem propertyList_shift (address : Nat) :
    Property.list (i.shift o) address = shifted o id (Property.list i address) :=
  list_shift o i (fun _ => property_fixed o i) address

theorem ivarList_shift (address : Nat) :
    Ivar.list (i.shift o) address = shifted o id (Ivar.list i address) :=
  list_shift o i (fun _ => ivar_fixed o i) address

theorem protocolNameAt_shift (slot : Nat) :
    protocolNameAt (i.shift o) slot = shifted o id (protocolNameAt i slot) := by
  apply shifted_bind (i.pointerAt_shift o slot)
  intro address
  change (if address = 0 then _ else _) = shifted o id (if address = 0 then _ else _)
  split
  · rfl
  · apply shifted_bind (i.recordAt_shift o ProtocolRecord address)
    intro p
    exact shifted_bind (i.stringAt_shift o _) fun _ => rfl

theorem protocolNames_shift (list : Nat) :
    protocolNames (i.shift o) list = shifted o id (protocolNames i list) := by
  unfold protocolNames
  split
  · rfl
  · apply shifted_bind (i.recordAt_shift o ProtocolListHeader list)
    intro header
    dsimp only [Placed.shift]
    split
    · rfl
    · exact gatherFrom_fixed o (protocolNameAt_shift o i) ..

theorem classRecordAt_shift (address : Nat) :
    classRecordAt (i.shift o) address = shifted o id (classRecordAt i address) := by
  apply shifted_bind (i.recordAt_shift o ClassRecord address)
  intro r
  exact shifted_bind (i.recordAt_shift o ClassData _) fun _ => rfl

theorem declaration_shift (address : Nat) :
    Declaration.read (i.shift o) address = shifted o id (Declaration.read i address) := by
  apply shifted_bind (classRecordAt_shift o i address)
  intro found
  obtain ⟨record, data⟩ := found
  dsimp only [id]
  split
  · rfl
  · exact shifted_bind (i.stringAt_shift o _) fun _ => rfl

theorem at?_shift (address : Nat) :
    Declaration.at? (i.shift o) address = Declaration.at? i address := by
  rw [Declaration.at?, declaration_shift, toOption_fixed, Declaration.at?]

theorem fill_shift {stage stage' : Body → Except Fault Body}
    {rest rest' : List (Body → Except Fault Body)} (here : ∀ b, stage' b = shifted o id (stage b))
    (later : ∀ b, fill rest' b = shifted o id (fill rest b)) (b : Body) :
    fill (stage' :: rest') b = shifted o id (fill (stage :: rest) b) := by
  have found : attempt (stage' b) = shifted o id (attempt (stage b)) := by
    rw [here, attempt_fixed]
  apply shifted_bind found
  intro found
  cases found with
  | none => rfl
  | some c => exact later c

theorem classStages_shift (metaclass : Nat) (b : Body) :
    fill (classStages (i.shift o) metaclass) b =
      shifted o id (fill (classStages i metaclass) b) := by
  have data : (classRecordAt (i.shift o) metaclass).map (·.2) =
      shifted o id ((classRecordAt i metaclass).map (·.2)) :=
    shifted_map (classRecordAt_shift o i metaclass) fun _ => rfl
  unfold classStages
  split
  · rfl
  · dsimp only
    refine fill_shift o (fun b => ?_) (fill_shift o (fun b => ?_) (fill_shift o (fun b => ?_) ?_)) b
    · rfl
    · apply shifted_bind data
      intro d
      exact shifted_bind (methodList_shift o i true d.methods) fun _ => rfl
    · apply shifted_bind data
      intro d
      exact shifted_bind (propertyList_shift o i d.properties) fun _ => rfl
    · exact fun b => rfl

theorem body_shift (d : Declaration) : d.body (i.shift o) = shifted o id (d.body i) := by
  apply fill_shift o fun b => shifted_bind (methodList_shift o i false _) fun _ => rfl
  apply fill_shift o fun b => shifted_bind (propertyList_shift o i _) fun _ => rfl
  apply fill_shift o fun b => shifted_bind (protocolNames_shift o i _) fun _ => rfl
  apply fill_shift o fun b => shifted_bind (ivarList_shift o i _) fun _ => rfl
  exact classStages_shift o i d.record.metaclass

theorem protocolAt_shift (address : Nat) :
    protocolAt (i.shift o) address = shifted o id (protocolAt i address) := by
  apply shifted_bind (i.recordAt_shift o ProtocolRecord address)
  intro p
  apply shifted_bind (stringOr_shift o i _ _)
  intro name
  apply shifted_bind (protocolNames_shift o i _)
  intro bases
  apply shifted_bind (methodList_shift o i _ _)
  intro instanceMethods
  apply shifted_bind (methodList_shift o i _ _)
  intro classMethods
  apply shifted_bind (methodList_shift o i _ _)
  intro optionalInstanceMethods
  apply shifted_bind (methodList_shift o i _ _)
  intro optionalClassMethods
  apply shifted_bind (propertyList_shift o i _)
  intro instanceProperties
  change (if p.value.size < classPropertiesEnd then _ else _) =
    shifted o id (if p.value.size < classPropertiesEnd then _ else _)
  split
  · rfl
  · apply shifted_bind (i.pointerAt_shift o _)
    intro list
    exact shifted_bind (propertyList_shift o i list) fun _ => rfl

theorem categoryAt_shift (address : Nat) :
    categoryAt (i.shift o) address = shifted o id (categoryAt i address) := by
  apply shifted_bind (i.recordAt_shift o CategoryRecord address)
  intro c
  dsimp only [Placed.shift]
  split
  · rfl
  · apply shifted_bind (i.stringAt_shift o _)
    intro name
    apply shifted_bind (methodList_shift o i _ _)
    intro instanceMethods
    apply shifted_bind (methodList_shift o i _ _)
    intro classMethods
    apply shifted_bind (protocolNames_shift o i _)
    intro protocols
    exact shifted_bind (propertyList_shift o i _) fun _ => rfl

theorem selectorAt_shift (slot : Nat × Nat) :
    selectorAt (i.shift o) slot = shifted o id (selectorAt i slot) := by
  unfold selectorAt
  dsimp only
  split
  · rfl
  · exact shifted_map (i.stringAt_shift o _) fun _ => rfl

theorem slots_shift (name : String) : slots (i.shift o) name = slots i name := by
  rw [slots, Image.pointerSection_shift, toOption_fixed, slots]

theorem declarations_shift : declarations (i.shift o) = declarations i := by
  have declared : Declaration.at? (i.shift o) = Declaration.at? i := funext (at?_shift o i)
  rw [declarations, slots_shift, declared, declarations]

theorem listedProtocols_shift : listedProtocols (i.shift o) = listedProtocols i := by
  have protocols (p : Nat) : (protocolAt (i.shift o) p).toOption = (protocolAt i p).toOption := by
    rw [protocolAt_shift, toOption_fixed]
  rw [listedProtocols, slots_shift, listedProtocols]
  simp only [protocols]

theorem listedCategories_shift : listedCategories (i.shift o) = listedCategories i := by
  have categories (p : Nat) : (categoryAt (i.shift o) p).toOption = (categoryAt i p).toOption := by
    rw [categoryAt_shift, toOption_fixed]
  rw [listedCategories, slots_shift, listedCategories]
  simp only [categories]

theorem listedSelectors_shift : listedSelectors (i.shift o) = listedSelectors i := by
  have selectors (s : Nat × Nat) :
      (selectorAt (i.shift o) s).toOption = (selectorAt i s).toOption := by
    rw [selectorAt_shift, toOption_fixed]
  rw [listedSelectors, slots_shift, listedSelectors]
  simp only [selectors]

theorem mangledNames_shift : mangledNames (i.shift o) = mangledNames i := by
  have declared : Declaration.at? (i.shift o) = Declaration.at? i := funext (at?_shift o i)
  rw [mangledNames, declarations_shift, listedCategories_shift, declared, mangledNames]

theorem described_shift (demangler : Demangler) :
    described (i.shift o) demangler = described i demangler := by
  have names : nameAt (i.shift o) demangler = nameAt i demangler := by
    funext p
    rw [nameAt, at?_shift, nameAt]
  have bodies (d : Declaration) : d.ownBody (i.shift o) = d.ownBody i := by
    rw [Declaration.ownBody, body_shift, toOption_fixed, Declaration.ownBody]
  have recorded : records (i.shift o) demangler = records i demangler := by
    unfold records record
    simp only [declarations_shift, listedCategories_shift, names, bodies]
  unfold described foreign
  rw [recorded, listedProtocols_shift, listedCategories_shift, declarations_shift, names,
    listedSelectors_shift]

theorem ofImage_shift (demangler : Demangler) :
    Metadata.ofImage (i.shift o) demangler = shifted o id (Metadata.ofImage i demangler) := by
  have sections : present (i.shift o) = present i := by
    simp only [present, Image.dataSection?_shift, Option.isSome_map]
  rw [ofImage_eq, ofImage_eq, sections, described_shift]
  split
  · rfl
  · split
    · rfl
    · rfl

end
end Objc
end MachImage
