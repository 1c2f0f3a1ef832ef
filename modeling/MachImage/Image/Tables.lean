import MachImage.Image.Command
import MachImage.Index
/-!
What is noted down about the commands while they are parsed. Each kind has a place of its own, and
one of three rules for a command that meets another there: lists grow, most single places hold the
last command, and link edit data and the virtual base are those of the first.
-/
namespace MachImage

structure Tables where
  segments : Array Segment := #[]
  sections : Array Section := #[]
  dylibs : Array Dylib := #[]
  idDylib? : Option Dylib := none
  dylinker? : Option Dylinker := none
  symbolTable? : Option (Placed SymbolTableCommand) := none
  dynamicTable? : Option (Placed DynamicTableCommand) := none
  linkInfo? : Option (Placed LinkInfoCommand) := none
  uuid? : Option (Placed Uuid) := none
  entryPoint? : Option (Placed EntryPoint) := none
  sourceVersion? : Option (Placed SourceVersion) := none
  versionMinimum? : Option (Placed VersionMinimum) := none
  buildVersion? : Option (Placed BuildVersion) := none
  buildTools? : Option (Array (Placed BuildTool)) := none
  /-- By encryption id, the place and size of a range. -/
  encryption : Index (Nat × Nat) := ∅
  /-- By command code. -/
  linkedit : Index (Placed LinkeditData) := ∅
  virtualBase? : Option Nat := none

namespace Tables

def addSection (x : Section) (t : Tables) : Tables := { t with sections := t.sections.push x }

/-- The first segment of that name sets the virtual base. -/
def addSegment (s : Segment) (t : Tables) : Tables :=
  { t with
    segments := t.segments.push s
    virtualBase? :=
      if s.name = "__TEXT" ∧ t.virtualBase?.isNone then some s.address else t.virtualBase? }

def addDylib (code : Nat) (d : Dylib) (t : Tables) : Tables :=
  { t with
    idDylib? := if code = idDylibCode then some d else t.idDylib?
    dylibs := if code = idDylibCode then t.dylibs else t.dylibs.push d }

def addTool (x : Placed BuildTool) (t : Tables) : Tables :=
  { t with buildTools? := t.buildTools?.map (·.push x) }

def addEncryption (c : Placed EncryptionInfo) (t : Tables) : Tables :=
  { t with
    encryption := t.encryption.insert c.value.cryptId (c.value.cryptOffset, c.value.cryptSize) }

def addLinkedit (code : Nat) (c : Placed LinkeditData) (t : Tables) : Tables :=
  { t with linkedit := t.linkedit.insertIfNew code c }

def note (t : Tables) : LoadCommand → Tables
  | .segment s => { t.addSegment s with sections := t.sections ++ s.sections.toArray }
  | .encryption c => t.addEncryption c
  | .symbolTable c => { t with symbolTable? := some c }
  | .dynamicTable c => { t with dynamicTable? := some c }
  | .linkInfo c => { t with linkInfo? := some c }
  | .linkedit c => t.addLinkedit c.value.cmd c
  | .dylib d => t.addDylib d.command.value.cmd d
  | .dylinker d => { t with dylinker? := some d }
  | .uuid c => { t with uuid? := some c }
  | .versionMinimum c => { t with versionMinimum? := some c }
  | .sourceVersion c => { t with sourceVersion? := some c }
  | .entryPoint c => { t with entryPoint? := some c }
  | .buildVersion c tools =>
    { t with buildVersion? := some c, buildTools? := some tools.toArray }
  | .undecoded .. => t

def of (commands : List LoadCommand) : Tables := commands.foldl note {}

theorem foldl_addSection (xs : List Section) (t : Tables) :
    xs.foldl (fun t x => t.addSection x) t = { t with sections := t.sections ++ xs.toArray } := by
  induction xs generalizing t with
  | nil => simp
  | cons x xs ih =>
    rw [List.foldl_cons, ih]
    simp [addSection]

theorem foldl_addTool (xs : List (Placed BuildTool)) {t : Tables} {tools : Array (Placed BuildTool)}
    (begun : t.buildTools? = some tools) :
    xs.foldl (fun t x => t.addTool x) t = { t with buildTools? := some (tools ++ xs.toArray) } := by
  induction xs generalizing t tools with
  | nil => simp [← begun]
  | cons x xs ih =>
    have next : (t.addTool x).buildTools? = some (tools.push x) := by simp [addTool, begun]
    rw [List.foldl_cons, ih next]
    simp [addTool]

end Tables
end MachImage
