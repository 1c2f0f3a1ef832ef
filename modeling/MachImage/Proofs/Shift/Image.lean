import MachImage.Proofs.Image.CutCommands
import MachImage.Proofs.Image.Tables
import MachImage.Proofs.Shift.Reads
/-!
An image further on in its file. Parsing reads the commands, the sections and the symbols of the
same bytes in the same way. What is decoded tells its place in the file, so it moves along; a
command that stays undecoded tells its place in the slice, and does not.
-/
namespace MachImage

def Section.shift (o : Nat) (s : Section) : Section := ⟨s.header.shift o, s.owner.shift o⟩

def Segment.shift (o : Nat) (s : Segment) : Segment :=
  ⟨s.command.shift o, s.sections.map (Section.shift o)⟩

def Dylib.shift (o : Nat) (d : Dylib) : Dylib := { d with command := d.command.shift o }

def Dylinker.shift (o : Nat) (d : Dylinker) : Dylinker := { d with command := d.command.shift o }

namespace LoadCommand

def shift (o : Nat) : LoadCommand → LoadCommand
  | .segment s => .segment (s.shift o)
  | .encryption c => .encryption (c.shift o)
  | .symbolTable c => .symbolTable (c.shift o)
  | .dynamicTable c => .dynamicTable (c.shift o)
  | .linkInfo c => .linkInfo (c.shift o)
  | .linkedit c => .linkedit (c.shift o)
  | .dylib d => .dylib (d.shift o)
  | .dylinker d => .dylinker (d.shift o)
  | .uuid c => .uuid (c.shift o)
  | .versionMinimum c => .versionMinimum (c.shift o)
  | .sourceVersion c => .sourceVersion (c.shift o)
  | .entryPoint c => .entryPoint (c.shift o)
  | .buildVersion c tools => .buildVersion (c.shift o) (tools.map (Placed.shift o))
  | .undecoded code size offset => .undecoded code size offset

end LoadCommand

def CommandList.shift (o : Nat) (list : CommandList) : CommandList :=
  .ofCommands (list.commands.map (LoadCommand.shift o))

def Image.shift (o : Nat) (i : Image) : Image where
  toCommandList := i.toCommandList.shift o
  region := i.region.shift o
  fileOffset := i.fileOffset + o
  header := i.header.shift o
  symbols := i.symbols

theorem records_shift (α : Type) [Record α] (o : Nat) (r : Region) (offset count : Nat) :
    (r.shift o).records α offset count =
      shifted o (List.map (Placed.shift o)) (r.records α offset count) := by
  rw [Region.records_eq, Region.records_eq]
  exact mapM_shifted fun _ => r.record_shift α o _

namespace LoadCommand

section
variable (o : Nat) (bytes : Region)

theorem decodeSegment_shift (c : Placed SegmentCommand) :
    decodeSegment (bytes.shift o) (c.shift o) = shifted o (shift o) (decodeSegment bytes c) := by
  have fields : (c.shift o).value = c.value := rfl
  unfold decodeSegment
  dsimp only
  rw [fields]
  split
  · rfl
  · apply shifted_bind (records_shift SectionHeader o bytes _ _)
    intro headers
    change Except.ok (segment ⟨c.shift o, (headers.map (Placed.shift o)).map (⟨·, c.shift o⟩)⟩) =
      Except.ok (segment ⟨c.shift o, (headers.map (⟨·, c⟩)).map (Section.shift o)⟩)
    rw [List.map_map, List.map_map]
    rfl

theorem decodeBuildVersion_shift (offset : Nat) (c : Placed BuildVersion) :
    decodeBuildVersion (bytes.shift o) offset (c.shift o) =
      shifted o (shift o) (decodeBuildVersion bytes offset c) := by
  have fields : (c.shift o).value = c.value := rfl
  unfold decodeBuildVersion
  dsimp only
  rw [fields]
  split
  · rfl
  · exact shifted_bind (records_shift BuildTool o bytes _ _) fun tools => rfl

theorem whole_shift (α : Type) [Record α] {undecoded : LoadCommand}
    {make make' : Placed α → Except Fault LoadCommand} (undecoded' : undecoded.shift o = undecoded)
    (made : ∀ c, make' (c.shift o) = shifted o (shift o) (make c)) :
    whole α (bytes.shift o) undecoded make' =
      shifted o (shift o) (whole α bytes undecoded make) := by
  unfold whole
  rw [Region.record_shift]
  cases bytes.record α 0 with
  | error e => exact congrArg Except.ok undecoded'.symm
  | ok c => exact made c

theorem path_shift (offset : Nat) : path (bytes.shift o) offset = path bytes offset := by
  rw [path, Region.cstring_shift, toOption_fixed, path]

theorem decode_shift (offset : Nat) (head : CommandHeader) :
    decode (bytes.shift o) offset head = shifted o (shift o) (decode bytes offset head) := by
  unfold decode
  dsimp only
  cases CommandKind.ofCode head.cmd with
  | other => rfl
  | segment => exact whole_shift o bytes _ rfl (decodeSegment_shift o bytes)
  | buildVersion => exact whole_shift o bytes _ rfl (decodeBuildVersion_shift o bytes offset)
  | dylib =>
    apply whole_shift o bytes _ rfl
    intro c
    rw [path_shift]
    rfl
  | dylinker =>
    apply whole_shift o bytes _ rfl
    intro c
    rw [path_shift]
    rfl
  | encryption | symbolTable | dynamicTable | linkInfo | linkedit | uuid | versionMinimum
  | sourceVersion | entryPoint => exact whole_shift o bytes _ rfl fun c => rfl

end

theorem picked_shift {α : Type} {o : Nat} {pick : LoadCommand → Option α} {move : α → α}
    (each : ∀ c : LoadCommand, pick (c.shift o) = (pick c).map move) (commands : List LoadCommand) :
    (commands.map (shift o)).filterMap pick = (commands.filterMap pick).map move := by
  rw [List.filterMap_map, List.map_filterMap]
  congr 1
  funext c
  exact each c

theorem last_shift {α : Type} {o : Nat} {pick : LoadCommand → Option α} {move : α → α}
    (each : ∀ c : LoadCommand, pick (c.shift o) = (pick c).map move) (commands : List LoadCommand) :
    ((commands.map (shift o)).filterMap pick).getLast? =
      (commands.filterMap pick).getLast?.map move := by
  rw [← List.getLast?_map, ← picked_shift each]

end LoadCommand

namespace Image

section
variable (o : Nat) (r : Region)

theorem cutCommands_shift (stop offset index count : Nat) :
    cutCommands (r.shift o) stop offset index count =
      shifted o (List.map (LoadCommand.shift o)) (cutCommands r stop offset index count) := by
  induction count generalizing offset index with
  | zero => rfl
  | succ count ih =>
    unfold cutCommands
    split
    · rfl
    · apply shifted_bind (r.record_shift CommandHeader o offset)
      intro head
      dsimp only [Placed.shift]
      split
      · rfl
      · split
        · rfl
        · apply shifted_bind (r.slice_shift o _ _)
          intro bytes
          apply shifted_bind (LoadCommand.decode_shift o bytes _ _)
          intro command
          exact shifted_bind (ih _ _) fun commands => rfl

theorem readHeader_shift :
    readHeader (r.shift o) = shifted o (Placed.shift o) (readHeader r) := by
  rw [readHeader, Region.record_shift, readHeader]
  cases r.record Header 0 with
  | error e => rfl
  | ok h => rfl

theorem readMagic_shift : readMagic (r.shift o) = shifted o id (readMagic r) := by
  rw [readMagic, Region.word_shift, readMagic]
  cases r.word 0 .u32 with
  | error e => rfl
  | ok n => rfl

theorem checkMagic_fixed (magic : Nat) :
    checkMagic magic = shifted o id (checkMagic magic) := by
  unfold checkMagic
  split
  · rfl
  · split <;> rfl

theorem readCommands_shift (h : Header) :
    readCommands (r.shift o) h = shifted o (CommandList.shift o) (readCommands r h) := by
  have commands := cutCommands_shift o r (32 + h.commandsSize) 32 0 h.commandCount
  rw [readCommands_eq, readCommands_eq, commands]
  change (if r.size < _ then _ else _) = _
  split
  · rfl
  · cases cutCommands r (32 + h.commandsSize) 32 0 h.commandCount with
    | error e => rfl
    | ok commands => rfl

theorem nameIn_shift (strings : Region) (index : Nat) :
    nameIn (strings.shift o) index = shifted o id (nameIn strings index) := by
  unfold nameIn
  change (if index = 0 then _ else if strings.size ≤ index then _ else _) = _
  split
  · rfl
  · split
    · rfl
    · rw [Region.cstring_shift]
      cases strings.cstring index with
      | ok s => rfl
      | error e =>
        cases e <;> rfl

theorem ofEntry_shift (strings : Region) (e : SymbolEntry) :
    Symbol.ofEntry (strings.shift o) e = shifted o id (Symbol.ofEntry strings e) :=
  shifted_map (nameIn_shift o strings e.nameIndex) fun _ => rfl

theorem strings?_shift (c : SymbolTableCommand) :
    c.strings? (r.shift o) = (c.strings? r).map (Region.shift o) := by
  rw [SymbolTableCommand.strings?, Region.slice_shift, toOption_shifted]
  rfl

theorem symbols_shift (c : SymbolTableCommand) :
    c.symbols (r.shift o) = shifted o id (c.symbols r) := by
  unfold SymbolTableCommand.symbols
  rw [strings?_shift]
  change (if r.contains c.symbolOffset (c.symbolCount * Record.size SymbolEntry : Nat)
    then _ else _) = _
  split
  · cases c.strings? r with
    | none => rfl
    | some strings =>
      apply shifted_bind (records_shift SymbolEntry o r _ _)
      intro entries
      rw [List.mapM_map]
      exact mapM_fixed fun e => ofEntry_shift o strings e.value
  · rfl

theorem readSymbols_shift (list : CommandList) :
    readSymbols (r.shift o) (list.shift o).tables = shifted o id (readSymbols r list.tables) := by
  have last (list : CommandList) := list.last_of_tables Tables.symbolTable?
    LoadCommand.symbolTable? (fun t c => by cases c <;> rfl) rfl
  have table : (list.shift o).tables.symbolTable? =
      list.tables.symbolTable?.map (Placed.shift o) := by
    rw [last, last]
    exact LoadCommand.last_shift (fun c => by cases c <;> rfl) list.commands
  rw [readSymbols, table, readSymbols]
  cases list.tables.symbolTable? with
  | none => rfl
  | some c => exact symbols_shift o r c.value

theorem parse_shift (fileOffset : Nat) :
    parse (r.shift o) (fileOffset + o) = shifted o (shift o) (parse r fileOffset) := by
  apply shifted_bind (readMagic_shift o r)
  intro magic
  apply shifted_bind (checkMagic_fixed o magic)
  intro checked
  apply shifted_bind (readHeader_shift o r)
  intro header
  apply shifted_bind (readCommands_shift o r header.value)
  intro list
  exact shifted_bind (readSymbols_shift o r list) fun symbols => rfl

end
end Image
end MachImage
