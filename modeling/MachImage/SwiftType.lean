import MachImage.Demangler
import MachImage.Image.Memory
/-!
The nominal types that an image declares. A section of the text segment lists them: each entry is
an offset from the entry's own place to a type descriptor, and its two low bits tell whether the
way leads over a pointer. An entry stands for itself: one that leads nowhere, or to a descriptor
of another kind, is left out without a change to the others.
-/
namespace MachImage

inductive NominalKind where
  | classType
  | structType
  | enumType
  deriving DecidableEq

inductive NominalName where
  | anonymous
  | unreadable
  | mangled (name : String)
  deriving DecidableEq

structure SwiftType where
  kind : NominalKind
  name : NominalName
  address : Int

namespace NominalKind

def ofFlags? (flags : Nat) : Option NominalKind :=
  match flags % 32 with
  | 16 => some .classType
  | 17 => some .structType
  | 18 => some .enumType
  | _ => none

def keyword : NominalKind → String
  | .classType => "class"
  | .structType => "struct"
  | .enumType => "enum"

def capitalized : NominalKind → String
  | .classType => "Class"
  | .structType => "Struct"
  | .enumType => "Enum"

end NominalKind

namespace SwiftType

def typesSection : String := "__swift5_types"

def mangled? (t : SwiftType) : Option String :=
  match t.name with
  | .mangled name => some name
  | .anonymous | .unreadable => none

def rawName (t : SwiftType) : String :=
  match t.name with
  | .mangled name => name
  | .anonymous => s!"<{t.kind.capitalized}_Anonymous>"
  | .unreadable => s!"<{t.kind.capitalized}_NameReadError>"

def shownName (demangler : Demangler) (t : SwiftType) : String :=
  match t.mangled? with
  | some name => demangler.shown name
  | none => t.rawName

def text (demangler : Demangler) (t : SwiftType) : String :=
  s!"<SwiftType {t.kind.keyword} {t.shownName demangler} @ {Hex.number t.address}>"

/-- Where the descriptor of an entry lies. An entry without an offset has none. -/
def descriptorOf (i : Image) (entry word : Int) : Except Fault (Option Int) :=
  let tag := word % 4
  let offset := word - tag
  if offset = 0 then .ok none
  else if tag = 1 then (i.pointerAt (entry + offset)).map fun p => some (p : Int)
  else .ok (some (entry + offset))

/-- The name behind its offset, which counts from eight bytes into the descriptor. -/
def nameOf (i : Image) (descriptor offset : Int) : NominalName :=
  if offset = 0 then .anonymous
  else match i.stringAt (descriptor + 8 + offset) with
    | .ok name => .mangled name
    | .error _ => .unreadable

def ofDescriptor (i : Image) (address : Int) : Except Fault (Option SwiftType) := do
  let d := (← i.recordAt TypeDescriptor address).value
  return (NominalKind.ofFlags? d.flags).map fun kind =>
    { kind, name := nameOf i address d.name, address }

def ofEntry? (i : Image) (entry word : Int) : Option SwiftType :=
  match descriptorOf i entry word with
  | .ok (some address) => (ofDescriptor i address).toOption.join
  | .ok none | .error _ => none

def words (bs : Array UInt8) : List Int :=
  (List.range (bs.size / 4)).map fun k => Record.i32 bs (4 * k)

def ofImage (i : Image) : List SwiftType :=
  match i.sectionNamed? typesSection "__TEXT" with
  | none => []
  | some s =>
    match i.region.read s.fileOffset s.size with
    | .error _ => []
    | .ok bs => ((words bs).mapIdx fun k w => ofEntry? i (s.address + 4 * k) w).filterMap id

end SwiftType
end MachImage
