import MachImage.Image.CommandList
import MachImage.Image.Symbol
/-!
An image is one 64-bit slice: its bytes, the header, the load commands in order with the tables made
of them, and the symbols. Parsing walks the commands by their declared sizes and refuses the image
at the first bound that is broken. All else that is known of an image stands in its tables.
-/
namespace MachImage

structure Image extends CommandList where
  region : Region
  /-- Where the slice begins in its file. -/
  fileOffset : Nat
  header : Placed Header
  symbols : List Symbol

namespace Image

def magic64 : Nat := 0xFEEDFACF

def swappedMagic64 : Nat := 0xCFFAEDFE

def readMagic (r : Region) : Except Fault Nat :=
  match r.word 0 .u32 with
  | .ok n => .ok n.toNat
  | .error _ => .error (.format .sliceTooSmall)

def checkMagic (magic : Nat) : Except Fault Unit :=
  if magic = swappedMagic64 then .error (.format .bigEndian)
  else if magic ≠ magic64 then .error (.format (.unknownMagic magic))
  else .ok ()

def readHeader (r : Region) : Except Fault (Placed Header) :=
  match r.record Header 0 with
  | .ok h => .ok h
  | .error _ => .error (.corrupt .headerTruncated)

def readSymbols (r : Region) (t : Tables) : Except Fault (List Symbol) :=
  match t.symbolTable? with
  | some c => c.value.symbols r
  | none => .ok []

def parse (r : Region) (fileOffset : Nat) : Except Fault Image := do
  checkMagic (← readMagic r)
  let header ← readHeader r
  let list ← readCommands r header.value
  let symbols ← readSymbols r list.tables
  return { toCommandList := list, region := r, fileOffset, header, symbols }

section
variable (i : Image)

def segments : List Segment := i.tables.segments.toList

def sections : List Section := i.tables.sections.toList

def dylibs : List Dylib := i.tables.dylibs.toList

def idDylib? : Option Dylib := i.tables.idDylib?

def dylinker? : Option Dylinker := i.tables.dylinker?

def symbolTable? : Option (Placed SymbolTableCommand) := i.tables.symbolTable?

def dynamicTable? : Option (Placed DynamicTableCommand) := i.tables.dynamicTable?

def linkInfo? : Option (Placed LinkInfoCommand) := i.tables.linkInfo?

def uuid? : Option (Placed Uuid) := i.tables.uuid?

def entryPoint? : Option (Placed EntryPoint) := i.tables.entryPoint?

def sourceVersion? : Option (Placed SourceVersion) := i.tables.sourceVersion?

def versionMinimum? : Option (Placed VersionMinimum) := i.tables.versionMinimum?

def buildVersion? : Option (Placed BuildVersion × List (Placed BuildTool)) := do
  return (← i.tables.buildVersion?, (← i.tables.buildTools?).toList)

/-- By encryption id, the range of the last command with that id. -/
def encryption : Index (Nat × Nat) := i.tables.encryption

def linkedit : Index (Placed LinkeditData) := i.tables.linkedit

def functionStarts? : Option (Placed LinkeditData) := i.linkedit[functionStartsCode]?

end

def defaultVirtualBase : Nat := 0x100000000

def virtualBase (i : Image) : Nat := i.tables.virtualBase?.getD defaultVirtualBase

def symbolTable (i : Image) : Except Fault (Placed SymbolTableCommand) :=
  match i.symbolTable? with
  | some c => .ok c
  | none => .error (.missing .symbolTable)

def dynamicTable (i : Image) : Except Fault (Placed DynamicTableCommand) :=
  match i.dynamicTable? with
  | some c => .ok c
  | none => .error (.missing .dynamicSymbolTable)

def linkInfo (i : Image) : Except Fault (Placed LinkInfoCommand) :=
  match i.linkInfo? with
  | some c => .ok c
  | none => .error (.missing .linkInfo)

def segmentAt (i : Image) (index : Int) : Except Fault Segment :=
  let count := i.segments.length
  match if index < 0 then none else i.segments[index.toNat]? with
  | some s => .ok s
  | none => .error (.misuse (.segmentIndex index count))

def segmentNamed? (i : Image) (name : String) : Option Segment :=
  i.segments.find? (·.name = name)

def sectionNamed? (i : Image) (name segment : String) : Option Section :=
  (i.segmentNamed? segment).bind fun s => s.sections.find? (·.name = name)

def sectionIn? (i : Image) (name : String) (segments : List String) : Option Section :=
  segments.findSome? (i.sectionNamed? name)

def dataSegments : List String := ["__DATA_CONST", "__DATA"]

def dataSection? (i : Image) (name : String) : Option Section := i.sectionIn? name dataSegments

def sectionAt? (i : Image) (address : Int) : Option Section :=
  i.sections.find? (·.covers address)

/-- Ordinals count the loaded dylibs from one. -/
def dylibAt? (i : Image) (ordinal : Int) : Option Dylib :=
  if ordinal < 1 then none else i.dylibs[(ordinal - 1).toNat]?

def dylibNameAt (i : Image) (ordinal : Int) : String :=
  match i.dylibAt? ordinal with
  | some d => d.name
  | none => "<unknown dylib>"

def encrypted? (i : Image) : Option (Nat × Nat) := i.encryption[1]?

def isEncrypted (i : Image) : Bool := i.encrypted?.isSome

def isRangeEncrypted (i : Image) (offset size : Int) : Bool :=
  match i.encrypted? with
  | some (start, length) => start < offset + size && offset < start + length
  | none => false

def text (_ : Image) : String := "<MachoBinary binary=None>"

end Image
end MachImage
