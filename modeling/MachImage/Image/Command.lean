import MachImage.Record.Command
import MachImage.Table
/-!
Load commands. A command is of the kind that its code tells, with the records and the name that it
holds. One whose size is too small for its kind stays undecoded, as does one of a kind that holds
nothing of interest here.
-/
namespace MachImage

structure Section where
  header : Placed SectionHeader
  owner : Placed SegmentCommand

structure Segment where
  command : Placed SegmentCommand
  sections : List Section

structure Dylib where
  command : Placed DylibCommand
  name : String

structure Dylinker where
  command : Placed DylinkerCommand
  name : String

inductive LoadCommand where
  | segment (s : Segment)
  | encryption (c : Placed EncryptionInfo)
  | symbolTable (c : Placed SymbolTableCommand)
  | dynamicTable (c : Placed DynamicTableCommand)
  | linkInfo (c : Placed LinkInfoCommand)
  | linkedit (c : Placed LinkeditData)
  | dylib (d : Dylib)
  | dylinker (d : Dylinker)
  | uuid (c : Placed Uuid)
  | versionMinimum (c : Placed VersionMinimum)
  | sourceVersion (c : Placed SourceVersion)
  | entryPoint (c : Placed EntryPoint)
  | buildVersion (c : Placed BuildVersion) (tools : List (Placed BuildTool))
  | undecoded (code size offset : Nat)

namespace Segment

def name (s : Segment) : String := Utf8.decode s.command.value.name
def address (s : Segment) : Nat := s.command.value.vmAddress
def vmSize (s : Segment) : Nat := s.command.value.vmSize
def endAddress (s : Segment) : Nat := s.address + s.vmSize
def fileOffset (s : Segment) : Nat := s.command.value.fileOffset
def fileSize (s : Segment) : Nat := s.command.value.fileSize
def fileEnd (s : Segment) : Nat := s.fileOffset + s.fileSize

def covers (s : Segment) (a : Int) : Bool := s.address ≤ a && a < s.endAddress

def text (s : Segment) : String :=
  let range (start stop : Nat) := s!"[0x{Hex.padded 11 start} - 0x{Hex.padded 11 stop}]"
  s!"<MachoSegment {range s.address s.endAddress} (file {range s.fileOffset s.fileEnd}) " ++
    s!"{s.name} ({s.command.value.sectionCount} sections)>"

end Segment

namespace Section

def name (s : Section) : String := Utf8.decode s.header.value.name
def segmentName (s : Section) : String := Utf8.decode s.header.value.segmentName
def ownerName (s : Section) : String := Utf8.decode s.owner.value.name
def address (s : Section) : Nat := s.header.value.address
def size (s : Section) : Nat := s.header.value.size
def endAddress (s : Section) : Nat := s.address + s.size
def fileOffset (s : Section) : Nat := s.header.value.fileOffset

def covers (s : Section) (a : Int) : Bool := s.address ≤ a && a < s.endAddress

def isZeroFill (s : Section) : Bool := [0x1, 0xC, 0x12].contains (s.header.value.flags % 256)

def text (s : Section) : String :=
  s!"<MachoSection [0x{Hex.padded 11 s.address} - 0x{Hex.padded 11 s.endAddress}] " ++
    s!"\"{s.name}\" (\"{s.segmentName}\")>"

end Section

def dylibCodes : Table Nat String :=
  [(0xC, "LC_LOAD_DYLIB"), (0x80000018, "LC_LOAD_WEAK_DYLIB"), (0x8000001F, "LC_REEXPORT_DYLIB"),
   (0x80000023, "LC_LOAD_UPWARD_DYLIB"), (0x20, "LC_LAZY_LOAD_DYLIB"), (0xD, "LC_ID_DYLIB")]

def dylinkerCodes : Table Nat String := [(0xE, "LC_LOAD_DYLINKER"), (0xF, "LC_ID_DYLINKER")]

def idDylibCode : Nat := 0xD

def functionStartsCode : Nat := 0x26

/-- Signature, split info, function starts, data in code, signing requirements, optimisation
hints, exports trie and chained fixups. -/
def linkeditCodes : List Nat :=
  [0x1D, 0x1E, functionStartsCode, 0x29, 0x2B, 0x2E, 0x80000033, 0x80000034]

def versionMinimumCodes : List Nat := [0x24, 0x25, 0x2F, 0x30]

inductive CommandKind where
  | segment | encryption | symbolTable | dynamicTable | linkInfo | linkedit | dylib | dylinker
  | uuid | versionMinimum | sourceVersion | entryPoint | buildVersion | other
  deriving DecidableEq

def CommandKind.ofCode (code : Nat) : CommandKind :=
  if code = 0x19 then .segment
  else if code = 0x2C then .encryption
  else if code = 0x2 then .symbolTable
  else if code = 0xB then .dynamicTable
  else if code = 0x22 ∨ code = 0x80000022 then .linkInfo
  else if code ∈ linkeditCodes then .linkedit
  else if code ∈ dylibCodes.keys then .dylib
  else if code ∈ dylinkerCodes.keys then .dylinker
  else if code = 0x1B then .uuid
  else if code ∈ versionMinimumCodes then .versionMinimum
  else if code = 0x2A then .sourceVersion
  else if code = 0x80000028 then .entryPoint
  else if code = 0x32 then .buildVersion
  else .other

def Region.records (α : Type) [Record α] (r : Region) :
    (offset count : Nat) → Except Fault (List (Placed α))
  | _, 0 => .ok []
  | offset, count + 1 => do
    let x ← r.record α offset
    return x :: (← records α r (offset + Record.size α) count)

theorem Region.records_eq (α : Type) [Record α] (r : Region) (offset count : Nat) :
    r.records α offset count =
      (List.range count).mapM fun i => r.record α (offset + i * Record.size α : Nat) := by
  induction count generalizing offset with
  | zero => rfl
  | succ count ih =>
    have later (i : Nat) :
        offset + Record.size α + i * Record.size α = offset + (i + 1) * Record.size α := by
      rw [Nat.succ_mul, Nat.add_right_comm, Nat.add_assoc]
    rw [List.range_succ_eq_map, List.mapM_cons, List.mapM_map, Nat.zero_mul, records, ih]
    simp only [later]
    rfl

namespace LoadCommand

def path (bytes : Region) (offset : Nat) : String :=
  (bytes.cstring offset).toOption.getD "<unknown dylib>"

def dump? : LoadCommand → Option Dump
  | .encryption c => some c.dump
  | .symbolTable c => some c.dump
  | .dynamicTable c => some c.dump
  | .linkInfo c => some c.dump
  | .linkedit c => some c.dump
  | .uuid c => some c.dump
  | .versionMinimum c => some c.dump
  | .sourceVersion c => some c.dump
  | .entryPoint c => some c.dump
  | .buildVersion c _ => some c.dump
  | .segment _ | .dylib _ | .dylinker _ | .undecoded .. => none

def text (command : LoadCommand) : String :=
  let named (codes : Table Nat String) (code : Nat) (name : String) :=
    let label := (codes.get? code).getD ""
    s!"<MachoDylibCommand {label} {name}>"
  match command with
  | .segment s => s.text
  | .dylib d => named dylibCodes d.command.value.cmd d.name
  | .dylinker d => named dylinkerCodes d.command.value.cmd d.name
  | .undecoded code size _ =>
    s!"<MachoUnknownLoadCommand cmd={Hex.number code} cmdsize={Hex.number size}>"
  | .encryption _ | .symbolTable _ | .dynamicTable _ | .linkInfo _ | .linkedit _ | .uuid _
  | .versionMinimum _ | .sourceVersion _ | .entryPoint _ | .buildVersion .. =>
    (command.dump?.map Dump.text).getD ""

end LoadCommand
end MachImage
