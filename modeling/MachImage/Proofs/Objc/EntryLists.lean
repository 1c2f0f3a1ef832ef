import MachImage.Objc.EntryList
import MachImage.Proofs.Image.TameReads
/-!
Lists of entries step over the entries that cannot be read: `readAll` gives what the places of the
list give one by one, and only an unreadable header stops a list. To ask whether the entries fit is
sure.
-/
namespace MachImage.Objc

theorem stringOr_tame (i : Image) (address : Int) (placeholder : String) :
    Tame (stringOr i address placeholder) := by
  unfold stringOr
  split
  · exact tame_ok _
  · exact i.stringAt_tame address

theorem fits_sure (i : Image) (list size count : Nat) : Sure (fits i list size count) := by
  unfold fits
  dsimp only
  split
  · exact sure_ok true
  · split
    · rw [attempt_of_tame (i.offsetOf_tame _)]
      exact sure_ok _
    · exact sure_ok false

def EntryForm.IsTame {α : Type} (f : EntryForm α) : Prop := ∀ i address, Tame (f.read i address)

section
variable {α : Type}

theorem readAll_of_tame {f : EntryForm α} (tame : f.IsTame) (i : Image) (list size count : Nat) :
    f.readAll i list size count = .ok ((List.range count).filterMap fun k =>
      (f.read i (entryAddress list size k)).toOption) := by
  have places : f.readAll i list size count =
      gather (fun k => (f.read i (entryAddress list size k)).map some) (List.range count) :=
    gatherFrom_eq ..
  rw [places, gather_of_tame fun k _ => (tame i (entryAddress list size k)).map some]
  congr 2
  funext k
  cases f.read i (entryAddress list size k) <;> rfl

theorem list_tame {form : EntryListHeader → EntryForm α} (tame : ∀ h, (form h).IsTame)
    (i : Image) (address : Nat) : Tame (EntryForm.list form i address) := by
  unfold EntryForm.list
  split
  · exact tame_ok []
  · apply (i.recordAt_tame EntryListHeader address).bind
    intro header _
    dsimp only
    split
    · exact tame_ok []
    · apply (fits_sure ..).tame.bind
      intro inside _
      split
      · rw [readAll_of_tame (tame header.value)]
        exact tame_ok _
      · exact tame_ok []

end

theorem byAddress_tame (isClassMethod : Bool) : (Method.byAddress isClassMethod).IsTame := by
  intro i address
  apply (i.recordAt_tame MethodEntry address).bind
  intro e _
  apply (stringOr_tame ..).bind
  intro name _
  exact (stringOr_tame ..).bind fun _ _ => tame_ok _

theorem byOffset_tame (isClassMethod : Bool) : (Method.byOffset isClassMethod).IsTame := by
  intro i address
  apply (i.recordAt_tame RelativeMethodEntry address).bind
  intro e _
  apply (i.pointerAt_tame _).bind
  intro literal _
  apply (stringOr_tame ..).bind
  intro name _
  exact (stringOr_tame ..).bind fun _ _ => tame_ok _

theorem property_tame : Property.form.IsTame := by
  intro i address
  apply (i.recordAt_tame PropertyEntry address).bind
  intro e _
  apply (stringOr_tame ..).bind
  intro name _
  exact (stringOr_tame ..).bind fun _ _ => tame_ok _

theorem ivarOffset_sure (i : Image) (pointer : Nat) : Sure (Ivar.offsetAt i pointer) := by
  unfold Ivar.offsetAt
  split
  · exact sure_ok 0
  · rw [attempt_of_tame (i.pointerAt_tame _)]
    exact sure_ok _

theorem ivar_tame : Ivar.form.IsTame := by
  intro i address
  apply (i.recordAt_tame IvarEntry address).bind
  intro e _
  apply (stringOr_tame ..).bind
  intro name _
  apply (ivarOffset_sure ..).tame.bind
  intro offset _
  exact (stringOr_tame ..).bind fun _ _ => tame_ok _

theorem methodList_tame (isClassMethod : Bool) (i : Image) (address : Nat) :
    Tame (Method.list isClassMethod i address) := by
  refine list_tame (fun h => ?_) i address
  split
  · exact byOffset_tame isClassMethod
  · exact byAddress_tame isClassMethod

theorem propertyList_tame (i : Image) (address : Nat) : Tame (Property.list i address) :=
  list_tame (fun _ => property_tame) i address

theorem ivarList_tame (i : Image) (address : Nat) : Tame (Ivar.list i address) :=
  list_tame (fun _ => ivar_tame) i address

theorem protocolNameAt_tame (i : Image) (slot : Nat) : Tame (protocolNameAt i slot) := by
  apply (i.pointerAt_tame slot).bind
  intro address _
  split
  · exact tame_ok none
  · apply (i.recordAt_tame ProtocolRecord address).bind
    intro p _
    exact (i.stringAt_tame _).bind fun _ _ => tame_ok _

theorem protocolNames_tame (i : Image) (list : Nat) : Tame (protocolNames i list) := by
  unfold protocolNames
  split
  · exact tame_ok []
  · apply (i.recordAt_tame ProtocolListHeader list).bind
    intro header _
    dsimp only
    split
    · exact tame_ok []
    · rw [gatherFrom_eq]
      exact (gather_sure fun k _ => protocolNameAt_tame i _).tame

end MachImage.Objc
