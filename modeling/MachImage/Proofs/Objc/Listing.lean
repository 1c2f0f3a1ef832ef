import MachImage.Objc.Metadata
import MachImage.Proofs.Objc.EntryLists
/-!
Following the lists of an image over every fault that its bytes can cause. Whatever a reader meets
is tame, so each list comes out as the pure list of what can be followed of it.
-/
namespace MachImage.Objc

theorem classRecordAt_tame (i : Image) (address : Nat) : Tame (classRecordAt i address) := by
  apply (i.recordAt_tame ClassRecord address).bind
  intro r _
  exact (i.recordAt_tame ClassData _).bind fun _ _ => tame_ok _

theorem declaration_tame (i : Image) (address : Nat) : Tame (Declaration.read i address) := by
  apply (classRecordAt_tame i address).bind
  intro found _
  obtain ⟨record, data⟩ := found
  dsimp only
  split
  · exact tame_ok none
  · exact (i.stringAt_tame _).bind fun _ _ => tame_ok _

theorem protocolAt_tame (i : Image) (address : Nat) : Tame (protocolAt i address) := by
  apply (i.recordAt_tame ProtocolRecord address).bind
  intro p _
  apply (stringOr_tame ..).bind
  intro name _
  apply (protocolNames_tame ..).bind
  intro bases _
  apply (methodList_tame ..).bind
  intro instanceMethods _
  apply (methodList_tame ..).bind
  intro classMethods _
  apply (methodList_tame ..).bind
  intro optionalInstanceMethods _
  apply (methodList_tame ..).bind
  intro optionalClassMethods _
  apply (propertyList_tame ..).bind
  intro instanceProperties _
  dsimp only
  split
  · exact tame_ok _
  · apply (i.pointerAt_tame _).bind
    intro list _
    exact (propertyList_tame i list).bind fun _ _ => tame_ok _

theorem categoryAt_tame (i : Image) (address : Nat) : Tame (categoryAt i address) := by
  apply (i.recordAt_tame CategoryRecord address).bind
  intro c _
  dsimp only
  split
  · exact tame_ok none
  · apply (i.stringAt_tame _).bind
    intro name _
    apply (methodList_tame ..).bind
    intro instanceMethods _
    apply (methodList_tame ..).bind
    intro classMethods _
    apply (protocolNames_tame ..).bind
    intro protocols _
    exact (propertyList_tame ..).bind fun _ _ => tame_ok _

theorem selectorAt_tame (i : Image) (slot : Nat × Nat) : Tame (selectorAt i slot) := by
  unfold selectorAt
  dsimp only
  split
  · exact tame_ok none
  · exact (i.stringAt_tame _).map _

theorem readSlots_eq (i : Image) (name : String) : readSlots i name = .ok (slots i name) := by
  unfold readSlots slots
  rw [attempt_of_tame (i.pointerSection_tame name)]
  rfl

theorem at?_cases {i : Image} {address : Nat} {d : Declaration}
    (found : Declaration.at? i address = some d) : ∃ r data rawName,
      i.recordAt ClassRecord address = .ok r ∧
      i.recordAt ClassData (dataAddress r.value) = .ok data ∧
      i.stringAt data.value.name = .ok rawName ∧ d = ⟨address, r.value, data.value, rawName⟩ := by
  obtain ⟨⟨record, data⟩, records, read⟩ := of_bind_ok (read_of_at? found)
  obtain ⟨r, held, rest⟩ := of_bind_ok records
  obtain ⟨part, shared, rest⟩ := of_bind_ok rest
  cases rest
  dsimp only at read
  split at read
  · cases read
  · obtain ⟨rawName, named, read⟩ := of_bind_ok read
    cases read
    exact ⟨r, part, rawName, held, shared, named, rfl⟩

theorem at?_address {i : Image} {address : Nat} {d : Declaration}
    (h : Declaration.at? i address = some d) : d.address = address := by
  obtain ⟨_, _, _, -, -, -, rfl⟩ := at?_cases h
  rfl

theorem readProtocols_eq (i : Image) : readProtocols i = .ok (listedProtocols i) := by
  unfold readProtocols listedProtocols
  rw [readSlots_eq]
  simp only [bind, Except.bind]
  rw [gather_of_tame fun p _ => (protocolAt_tame i p).map some]
  simp only [pure, Except.pure, List.map_filterMap]
  congr 3
  funext p
  cases protocolAt i p <;> rfl

theorem readCategories_eq (i : Image) : readCategories i = .ok (listedCategories i) := by
  unfold readCategories
  rw [readSlots_eq]
  exact gather_of_tame fun p _ => categoryAt_tame i p

theorem readSelectors_eq (i : Image) : readSelectors i = .ok (listedSelectors i) := by
  unfold readSelectors
  rw [readSlots_eq]
  exact gather_of_tame fun s _ => selectorAt_tame i s

end MachImage.Objc
