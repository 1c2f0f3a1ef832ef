import MachImage.Image.Description
import MachImage.Image.Memory
import MachImage.Image.Names
import MachImage.Proofs.Shift.Image
/-!
What is known of an image further on in its file. Views and look-ups find the same segments,
sections and commands, each moved along; memory has the same contents at the same addresses, for
addresses lead to places counted from the start of the slice.
-/
namespace MachImage

theorem Index.ofListFirst_map {α β : Type} (f : α → β) (ps : List (Nat × α)) (key : Nat) :
    (ofListFirst (ps.map fun p => (p.1, f p.2)))[key]? = (ofListFirst ps)[key]?.map f := by
  rw [getElem?_ofListFirst, getElem?_ofListFirst, List.find?_map, Option.map_map, Option.map_map]
  rfl

namespace Image

section
variable (o : Nat) (i : Image)

theorem region_shift : (i.shift o).region = i.region.shift o := rfl

theorem segments_shift : (i.shift o).segments = i.segments.map (Segment.shift o) := by
  rw [segments_eq, segments_eq]
  exact LoadCommand.picked_shift (fun c => by cases c <;> rfl) i.commands

theorem sections_shift : (i.shift o).sections = i.sections.map (Section.shift o) := by
  rw [sections_eq, segments_shift, List.flatMap_map, sections_eq, List.map_flatMap]
  rfl

theorem namedDylibs_shift : (i.shift o).namedDylibs = i.namedDylibs.map (Dylib.shift o) :=
  LoadCommand.picked_shift (fun c => by cases c <;> rfl) i.commands

theorem dylibs_shift : (i.shift o).dylibs = i.dylibs.map (Dylib.shift o) := by
  rw [dylibs_eq, namedDylibs_shift, List.filter_map, dylibs_eq]
  rfl

theorem idDylib?_shift : (i.shift o).idDylib? = i.idDylib?.map (Dylib.shift o) := by
  rw [idDylib?_eq, namedDylibs_shift, List.filter_map, List.getLast?_map, idDylib?_eq]
  rfl

theorem dylinker?_shift : (i.shift o).dylinker? = i.dylinker?.map (Dylinker.shift o) := by
  rw [dylinker?_eq, dylinker?_eq]
  exact LoadCommand.last_shift (fun c => by cases c <;> rfl) i.commands

theorem symbolTable?_shift : (i.shift o).symbolTable? = i.symbolTable?.map (Placed.shift o) := by
  rw [symbolTable?_eq, symbolTable?_eq]
  exact LoadCommand.last_shift (fun c => by cases c <;> rfl) i.commands

theorem dynamicTable?_shift : (i.shift o).dynamicTable? = i.dynamicTable?.map (Placed.shift o) := by
  rw [dynamicTable?_eq, dynamicTable?_eq]
  exact LoadCommand.last_shift (fun c => by cases c <;> rfl) i.commands

theorem linkInfo?_shift : (i.shift o).linkInfo? = i.linkInfo?.map (Placed.shift o) := by
  rw [linkInfo?_eq, linkInfo?_eq]
  exact LoadCommand.last_shift (fun c => by cases c <;> rfl) i.commands

theorem uuid?_shift : (i.shift o).uuid? = i.uuid?.map (Placed.shift o) := by
  rw [uuid?_eq, uuid?_eq]
  exact LoadCommand.last_shift (fun c => by cases c <;> rfl) i.commands

theorem entryPoint?_shift : (i.shift o).entryPoint? = i.entryPoint?.map (Placed.shift o) := by
  rw [entryPoint?_eq, entryPoint?_eq]
  exact LoadCommand.last_shift (fun c => by cases c <;> rfl) i.commands

theorem sourceVersion?_shift :
    (i.shift o).sourceVersion? = i.sourceVersion?.map (Placed.shift o) := by
  rw [sourceVersion?_eq, sourceVersion?_eq]
  exact LoadCommand.last_shift (fun c => by cases c <;> rfl) i.commands

theorem versionMinimum?_shift :
    (i.shift o).versionMinimum? = i.versionMinimum?.map (Placed.shift o) := by
  rw [versionMinimum?_eq, versionMinimum?_eq]
  exact LoadCommand.last_shift (fun c => by cases c <;> rfl) i.commands

theorem buildVersion?_shift :
    (i.shift o).buildVersion? =
      i.buildVersion?.map fun (c, tools) => (c.shift o, tools.map (Placed.shift o)) := by
  rw [buildVersion?_eq, buildVersion?_eq]
  exact LoadCommand.last_shift (fun c => by cases c <;> rfl) i.commands

theorem encryption_shift : (i.shift o).encryption = i.encryption := by
  rw [encryption_eq, encryption_eq]
  refine congrArg _ (Eq.trans ?_ (List.map_id _))
  exact LoadCommand.picked_shift (fun c => by cases c <;> rfl) i.commands

theorem linkedit_getElem? (code : Nat) :
    (i.shift o).linkedit[code]? = i.linkedit[code]?.map (Placed.shift o) := by
  rw [linkedit_eq, linkedit_eq, ← Index.ofListFirst_map]
  refine congrArg (fun ps => (Index.ofListFirst ps)[code]?) ?_
  exact LoadCommand.picked_shift (fun c => by cases c <;> rfl) i.commands

theorem linkedit_toList :
    (i.shift o).linkedit.toList = i.linkedit.toList.map fun (code, c) => (code, c.shift o) := by
  have same : (i.shift o).linkedit.Equiv (i.linkedit.map fun _ c => c.shift o) := by
    apply Std.TreeMap.Equiv.of_forall_constGet?_eq
    intro code
    rw [linkedit_getElem?, Std.TreeMap.getElem?_map]
  rw [same.toList_eq, Std.TreeMap.toList_map]

theorem functionStarts?_shift :
    (i.shift o).functionStarts? = i.functionStarts?.map (Placed.shift o) :=
  linkedit_getElem? o i functionStartsCode

theorem virtualBase_shift : (i.shift o).virtualBase = i.virtualBase := by
  have found : (i.segments.map (Segment.shift o)).find? (·.name = "__TEXT") =
      (i.segments.find? (·.name = "__TEXT")).map (Segment.shift o) := List.find?_map
  rw [virtualBase_eq, segments_shift, found, virtualBase_eq]
  cases i.segments.find? (·.name = "__TEXT") with
  | none => rfl
  | some s => rfl

theorem symbolTable_shift :
    (i.shift o).symbolTable = shifted o (Placed.shift o) i.symbolTable := by
  rw [symbolTable, symbolTable?_shift, symbolTable]
  cases i.symbolTable? with
  | none => rfl
  | some c => rfl

theorem dynamicTable_shift :
    (i.shift o).dynamicTable = shifted o (Placed.shift o) i.dynamicTable := by
  rw [dynamicTable, dynamicTable?_shift, dynamicTable]
  cases i.dynamicTable? with
  | none => rfl
  | some c => rfl

theorem linkInfo_shift : (i.shift o).linkInfo = shifted o (Placed.shift o) i.linkInfo := by
  rw [linkInfo, linkInfo?_shift, linkInfo]
  cases i.linkInfo? with
  | none => rfl
  | some c => rfl

theorem uuidText?_shift : (i.shift o).uuidText? = i.uuidText? := by
  rw [uuidText?, uuid?_shift, Option.map_map]
  rfl

theorem entryOffset?_shift : (i.shift o).entryOffset? = i.entryOffset? := by
  rw [entryOffset?, entryPoint?_shift, Option.map_map]
  rfl

theorem sourceVersionText?_shift : (i.shift o).sourceVersionText? = i.sourceVersionText? := by
  rw [sourceVersionText?, sourceVersion?_shift, Option.map_map]
  rfl

theorem minimumOs?_shift : (i.shift o).minimumOs? = i.minimumOs? := by
  rw [minimumOs?, buildVersion?_shift, versionMinimum?_shift, Option.map_map, minimumOs?]
  cases i.buildVersion? with
  | none => rfl
  | some b => rfl

theorem platform?_shift : (i.shift o).platform? = i.platform? := by
  rw [platform?, buildVersion?_shift, platform?]
  cases i.buildVersion? with
  | none => rfl
  | some b => rfl

theorem buildTools?_shift :
    (i.shift o).buildTools? = i.buildTools?.map (List.map (Placed.shift o)) := by
  rw [buildTools?, buildVersion?_shift, buildTools?, Option.map_map, Option.map_map]
  rfl

theorem segmentAt_shift (index : Int) :
    (i.shift o).segmentAt index = shifted o (Segment.shift o) (i.segmentAt index) := by
  unfold segmentAt
  rw [segments_shift, List.length_map, List.getElem?_map]
  by_cases negative : index < 0
  · rw [if_pos negative, if_pos negative]
    rfl
  · rw [if_neg negative, if_neg negative]
    cases i.segments[index.toNat]? with
    | none => rfl
    | some s => rfl

theorem segmentNamed?_shift (name : String) :
    (i.shift o).segmentNamed? name = (i.segmentNamed? name).map (Segment.shift o) := by
  rw [segmentNamed?, segments_shift, List.find?_map]
  rfl

theorem sectionNamed?_shift (name segment : String) :
    (i.shift o).sectionNamed? name segment =
      (i.sectionNamed? name segment).map (Section.shift o) := by
  rw [sectionNamed?, segmentNamed?_shift, sectionNamed?]
  cases i.segmentNamed? segment with
  | none => rfl
  | some s => exact List.find?_map

theorem sectionIn?_shift (name : String) (segments : List String) :
    (i.shift o).sectionIn? name segments = (i.sectionIn? name segments).map (Section.shift o) := by
  rw [sectionIn?, sectionIn?, List.map_findSome?]
  congr 1
  funext segment
  exact sectionNamed?_shift o i name segment

theorem dataSection?_shift (name : String) :
    (i.shift o).dataSection? name = (i.dataSection? name).map (Section.shift o) :=
  sectionIn?_shift o i name dataSegments

theorem sectionAt?_shift (address : Int) :
    (i.shift o).sectionAt? address = (i.sectionAt? address).map (Section.shift o) := by
  rw [sectionAt?, sections_shift, List.find?_map]
  rfl

theorem dylibAt?_shift (ordinal : Int) :
    (i.shift o).dylibAt? ordinal = (i.dylibAt? ordinal).map (Dylib.shift o) := by
  unfold dylibAt?
  rw [dylibs_shift, List.getElem?_map]
  split
  · rfl
  · rfl

theorem dylibNameAt_shift (ordinal : Int) :
    (i.shift o).dylibNameAt ordinal = i.dylibNameAt ordinal := by
  rw [dylibNameAt, dylibAt?_shift, dylibNameAt]
  cases i.dylibAt? ordinal with
  | none => rfl
  | some d => rfl

theorem encrypted?_shift : (i.shift o).encrypted? = i.encrypted? := by
  rw [encrypted?, encryption_shift, encrypted?]

theorem isRangeEncrypted_shift (offset size : Int) :
    (i.shift o).isRangeEncrypted offset size = i.isRangeEncrypted offset size := by
  rw [isRangeEncrypted, encrypted?_shift, isRangeEncrypted]

theorem offsetIn_shift (s : Segment) (address : Int) :
    offsetIn (s.shift o) address = shifted o id (offsetIn s address) := by
  unfold offsetIn
  have found : (s.shift o).sections.find? (·.covers address) =
      (s.sections.find? (·.covers address)).map (Section.shift o) := List.find?_map
  rw [found]
  cases s.sections.find? (·.covers address) with
  | none =>
    dsimp only [Option.map]
    change (if address - s.address < s.fileSize then _ else _) = _
    split <;> rfl
  | some sec =>
    dsimp only [Option.map]
    change (if sec.isZeroFill then _ else _) = _
    split <;> rfl

theorem offsetOf_shift (address : Int) :
    (i.shift o).offsetOf address = shifted o id (i.offsetOf address) := by
  have found : (i.segments.map (Segment.shift o)).find? (·.covers address) =
      (i.segments.find? (·.covers address)).map (Segment.shift o) := List.find?_map
  rw [offsetOf_eq, offsetOf_eq]
  rw [virtualBase_shift, segments_shift, found]
  split
  · rfl
  · cases i.segments.find? (·.covers address) with
    | none => rfl
    | some s => exact offsetIn_shift o s address

theorem recordAt_shift (α : Type) [Record α] (address : Int) :
    (i.shift o).recordAt α address = shifted o (Placed.shift o) (i.recordAt α address) :=
  shifted_bind (i.offsetOf_shift o address) fun offset => i.region.record_shift α o offset

theorem dumpAt_shift (l : Layout) (address : Int) :
    (i.shift o).dumpAt l address = shifted o (Dump.shift o) (i.dumpAt l address) :=
  shifted_bind (i.offsetOf_shift o address) fun offset => i.region.dump_shift o l offset

theorem wordAt_shift (address : Int) (type : WordType) :
    (i.shift o).wordAt address type = shifted o id (i.wordAt address type) :=
  shifted_bind (i.offsetOf_shift o address) fun offset => i.region.word_shift o offset type

theorem pointerAt_shift (address : Int) :
    (i.shift o).pointerAt address = shifted o id (i.pointerAt address) :=
  shifted_map (i.wordAt_shift o address .u64) fun _ => rfl

theorem stringAt_shift (address : Int) :
    (i.shift o).stringAt address = shifted o id (i.stringAt address) :=
  shifted_bind (i.offsetOf_shift o address) fun offset => i.region.cstring_shift o offset

theorem pointerSection_shift (name : String) :
    (i.shift o).pointerSection name = shifted o id (i.pointerSection name) := by
  rw [pointerSection, dataSection?_shift, pointerSection]
  cases i.dataSection? name with
  | none => rfl
  | some s =>
    exact shifted_bind (i.region.read_shift o s.fileOffset s.size) fun bs => rfl

theorem stringTable_shift : (i.shift o).stringTable = shifted o id i.stringTable := by
  apply shifted_bind (i.symbolTable_shift o)
  intro c
  dsimp only [Placed.shift]
  rw [region_shift, strings?_shift]
  cases c.value.strings? i.region with
  | none => rfl
  | some strings => rfl

theorem dynamicRanges_shift : (i.shift o).dynamicRanges = shifted o id i.dynamicRanges :=
  shifted_bind (i.dynamicTable_shift o) fun _ => rfl

theorem words_shift (r : Region) (offset count : Nat) :
    words (r.shift o) offset count = shifted o id (words r offset count) := by
  induction count generalizing offset with
  | zero => rfl
  | succ count ih =>
    apply shifted_bind (r.word_shift o offset .u32)
    intro n
    exact shifted_bind (ih _) fun ns => rfl

theorem indirectSymbols_shift :
    (i.shift o).indirectSymbols = shifted o id i.indirectSymbols :=
  shifted_bind (i.dynamicTable_shift o) fun _ => words_shift o i.region _ _

theorem isEntered_shift : (i.shift o).isEntered = i.isEntered := by
  rw [isEntered, entryPoint?_shift, segmentNamed?_shift, Option.isSome_map, Option.isSome_map,
    isEntered]

theorem startAmong?_shift (symbols : List Symbol) :
    (i.shift o).startAmong? symbols = i.startAmong? symbols := by
  rw [startAmong?, isEntered_shift, startAmong?]

end
end Image
end MachImage
