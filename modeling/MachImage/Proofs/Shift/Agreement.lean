import MachImage.Proofs.Shift.Metadata
import MachImage.Proofs.Shift.Streams
/-!
All that can be asked of an image, asked again `o` bytes further on. An answer that tells no place
in the file is the same; a decoded record has an offset larger by `o`; and a fault is the same
fault, whose place is larger by `o` if it tells one in the file.
-/
namespace MachImage

/-- What the second image answers, by what the first one does. -/
structure Agreement (o : Nat) (i j : Image) : Prop where
  fileOffset : j.fileOffset = i.fileOffset + o
  bytes : j.region.bytes = i.region.bytes
  header : j.header = i.header.shift o
  commands : j.commands = i.commands.map (LoadCommand.shift o)
  commandTexts : j.commands.map LoadCommand.text =
    i.commands.map fun c => (c.dump?.map fun d => (d.shift o).text).getD c.text
  segments : j.segments = i.segments.map (Segment.shift o)
  segmentTexts : j.segments.map Segment.text = i.segments.map Segment.text
  sections : j.sections = i.sections.map (Section.shift o)
  sectionTexts : j.sections.map Section.text = i.sections.map Section.text
  dylibs : j.dylibs = i.dylibs.map (Dylib.shift o)
  idDylib : j.idDylib? = i.idDylib?.map (Dylib.shift o)
  dylinker : j.dylinker? = i.dylinker?.map (Dylinker.shift o)
  linkedit : j.linkedit.toList = i.linkedit.toList.map fun (code, c) => (code, c.shift o)
  functionStartsCommand : j.functionStarts? = i.functionStarts?.map (Placed.shift o)
  symbolTable : j.symbolTable = shifted o (Placed.shift o) i.symbolTable
  dynamicTable : j.dynamicTable = shifted o (Placed.shift o) i.dynamicTable
  linkInfo : j.linkInfo = shifted o (Placed.shift o) i.linkInfo
  cpu : j.cpu = i.cpu
  fileType : j.fileType? = i.fileType?
  headerFlags : j.headerFlags = i.headerFlags
  virtualBase : j.virtualBase = i.virtualBase
  uuid : j.uuidText? = i.uuidText?
  entryOffset : j.entryOffset? = i.entryOffset?
  sourceVersion : j.sourceVersionText? = i.sourceVersionText?
  minimumOs : j.minimumOs? = i.minimumOs?
  platform : j.platform? = i.platform?
  buildTools : j.buildTools? = i.buildTools?.map (List.map (Placed.shift o))
  encryption : j.encryption = i.encryption
  isEncrypted : j.isEncrypted = i.isEncrypted
  isRangeEncrypted : j.isRangeEncrypted = i.isRangeEncrypted
  text : j.text = i.text
  segmentAt : ∀ index, j.segmentAt index = shifted o (Segment.shift o) (i.segmentAt index)
  segmentNamed : ∀ name, j.segmentNamed? name = (i.segmentNamed? name).map (Segment.shift o)
  sectionNamed : ∀ name segment,
    j.sectionNamed? name segment = (i.sectionNamed? name segment).map (Section.shift o)
  sectionIn : ∀ name segments,
    j.sectionIn? name segments = (i.sectionIn? name segments).map (Section.shift o)
  sectionAt : ∀ address, j.sectionAt? address = (i.sectionAt? address).map (Section.shift o)
  dylibAt : ∀ ordinal, j.dylibAt? ordinal = (i.dylibAt? ordinal).map (Dylib.shift o)
  dylibNameAt : j.dylibNameAt = i.dylibNameAt
  read : ∀ offset size, j.region.read offset size = shifted o id (i.region.read offset size)
  word : ∀ offset type, j.region.word offset type = shifted o id (i.region.word offset type)
  dump : ∀ l offset, j.region.dump l offset = shifted o (Dump.shift o) (i.region.dump l offset)
  offsetOf : ∀ address, j.offsetOf address = shifted o id (i.offsetOf address)
  wordAt : ∀ address type, j.wordAt address type = shifted o id (i.wordAt address type)
  pointerAt : ∀ address, j.pointerAt address = shifted o id (i.pointerAt address)
  stringAt : ∀ address, j.stringAt address = shifted o id (i.stringAt address)
  recordAt : ∀ (α : Type) [Record α] (address : Int),
    j.recordAt α address = shifted o (Placed.shift o) (i.recordAt α address)
  dumpAt : ∀ l address, j.dumpAt l address = shifted o (Dump.shift o) (i.dumpAt l address)
  pointerSection : ∀ name, j.pointerSection name = shifted o id (i.pointerSection name)
  symbols : j.symbols = i.symbols
  names : SymbolNames.ofSymbols j.symbols = SymbolNames.ofSymbols i.symbols
  importedFrom : Symbol.importedFrom j.symbols = Symbol.importedFrom i.symbols
  main : Symbol.main? j.symbols = Symbol.main? i.symbols
  start : j.startAmong? j.symbols = i.startAmong? i.symbols
  stringTable : j.stringTable = shifted o id i.stringTable
  dynamicRanges : j.dynamicRanges = shifted o id i.dynamicRanges
  indirectSymbols : j.indirectSymbols = shifted o id i.indirectSymbols
  functionStarts : j.functionStarts = shifted o id i.functionStarts
  functions : j.functions = shifted o id i.functions
  linkInfoStreams : LinkInfo.ofImage j = shifted o (LinkInfo.shift o) (LinkInfo.ofImage i)
  recordLimit : j.recordLimit = i.recordLimit
  slotAddress : ∀ index offset,
    j.slotAddress index offset = shifted o id (i.slotAddress index offset)
  boundSymbols : j.boundSymbols = i.boundSymbols
  strings : j.strings = i.strings
  swiftTypes : SwiftType.ofImage j = SwiftType.ofImage i
  objcMetadata : ∀ demangler,
    Objc.Metadata.ofImage j demangler = shifted o id (Objc.Metadata.ofImage i demangler)
  demangled : Objc.mangledNames j = Objc.mangledNames i

theorem LoadCommand.text_shift (o : Nat) (c : LoadCommand) :
    (c.shift o).text = (c.dump?.map fun d => (d.shift o).text).getD c.text := by
  cases c <;> rfl

theorem agreement_shift (o : Nat) (i : Image) : Agreement o i (i.shift o) where
  fileOffset := rfl
  bytes := rfl
  header := rfl
  commands := rfl
  commandTexts := by
    change (i.commands.map (LoadCommand.shift o)).map LoadCommand.text = _
    rw [List.map_map]
    congr 1
    funext c
    exact c.text_shift o
  segments := i.segments_shift o
  segmentTexts := by
    rw [i.segments_shift o, List.map_map]
    rfl
  sections := i.sections_shift o
  sectionTexts := by
    rw [i.sections_shift o, List.map_map]
    rfl
  dylibs := i.dylibs_shift o
  idDylib := i.idDylib?_shift o
  dylinker := i.dylinker?_shift o
  linkedit := i.linkedit_toList o
  functionStartsCommand := i.functionStarts?_shift o
  symbolTable := i.symbolTable_shift o
  dynamicTable := i.dynamicTable_shift o
  linkInfo := i.linkInfo_shift o
  cpu := rfl
  fileType := rfl
  headerFlags := rfl
  virtualBase := i.virtualBase_shift o
  uuid := i.uuidText?_shift o
  entryOffset := i.entryOffset?_shift o
  sourceVersion := i.sourceVersionText?_shift o
  minimumOs := i.minimumOs?_shift o
  platform := i.platform?_shift o
  buildTools := i.buildTools?_shift o
  encryption := i.encryption_shift o
  isEncrypted := congrArg Option.isSome (i.encrypted?_shift o)
  isRangeEncrypted := by
    funext offset size
    exact i.isRangeEncrypted_shift o offset size
  text := rfl
  segmentAt := i.segmentAt_shift o
  segmentNamed := i.segmentNamed?_shift o
  sectionNamed := i.sectionNamed?_shift o
  sectionIn := i.sectionIn?_shift o
  sectionAt := i.sectionAt?_shift o
  dylibAt := i.dylibAt?_shift o
  dylibNameAt := funext (i.dylibNameAt_shift o)
  read := i.region.read_shift o
  word := i.region.word_shift o
  dump := i.region.dump_shift o
  offsetOf := i.offsetOf_shift o
  wordAt := i.wordAt_shift o
  pointerAt := i.pointerAt_shift o
  stringAt := i.stringAt_shift o
  recordAt := i.recordAt_shift o
  dumpAt := i.dumpAt_shift o
  pointerSection := i.pointerSection_shift o
  symbols := rfl
  names := rfl
  importedFrom := rfl
  main := rfl
  start := i.startAmong?_shift o i.symbols
  stringTable := i.stringTable_shift o
  dynamicRanges := i.dynamicRanges_shift o
  indirectSymbols := i.indirectSymbols_shift o
  functionStarts := i.functionStarts_shift o
  functions := i.functions_shift o
  linkInfoStreams := LinkInfo.ofImage_shift o i
  recordLimit := i.recordLimit_shift o
  slotAddress := i.slotAddress_shift o
  boundSymbols := funext (i.boundSymbols_shift o)
  strings := funext (i.strings_shift o)
  swiftTypes := SwiftType.ofImage_shift o i
  objcMetadata := Objc.ofImage_shift o i
  demangled := Objc.mangledNames_shift o i

end MachImage
