import MachImage.Address
import MachImage.Image.Description
/-!
A file holds one slice, or begins with a table of slices for several machines. The table is
written in one byte order for the whole of it; its magic tells which, and the records are brought
to the reader's order. The slice for a machine is the first that names it, or else the first.
-/
namespace MachImage

structure Container where
  region : Region
  magic : Nat
  header : Option (Placed FatHeader)
  archs : List (Placed FatArch)

def FatArch.swap (a : FatArch) : FatArch where
  cpuType := swap32 a.cpuType
  cpuSubtype := swap32 a.cpuSubtype
  offset := swap32 a.offset
  size := swap32 a.size
  align := swap32 a.align

namespace Container

/-- The magic of a table in the reader's own byte order, and in the other one. -/
def nativeMagic : Nat := 0xCAFEBABE
def swappedMagic : Nat := 0xBEBAFECA

def isSwapped (c : Container) : Bool := c.magic = swappedMagic

def isFat (c : Container) : Bool := c.magic = nativeMagic || c.magic = swappedMagic

def walkArchs (r : Region) (swapped : Bool) :
    (offset index count : Nat) → Except Fault (List (Placed FatArch))
  | _, _, 0 => .ok []
  | offset, index, count + 1 =>
    match r.record FatArch offset with
    | .error _ => .error (.corrupt (.architectureOutside index offset))
    | .ok a => do
      let arch : Placed FatArch := if swapped then { a with value := a.value.swap } else a
      return arch :: (← walkArchs r swapped (offset + Record.size FatArch) (index + 1) count)

def readMagic (r : Region) : Except Fault Nat :=
  match r.word 0 .u32 with
  | .ok n => .ok n.toNat
  | .error _ => .error (.format .fileTooSmall)

def readFatHeader (r : Region) (swapped : Bool) : Except Fault (Placed FatHeader) :=
  match r.record FatHeader 0 with
  | .error _ => .error (.corrupt .archiveHeaderTruncated)
  | .ok h =>
    let count := if swapped then swap32 h.value.archCount else h.value.archCount
    if count = 0 then .error (.format .noArchitectures)
    else .ok { h with value.archCount := count }

def ofRegion (r : Region) : Except Fault Container := do
  let magic ← readMagic r
  let thin : Container := { region := r, magic, header := none, archs := [] }
  if thin.isFat then
    let header ← readFatHeader r thin.isSwapped
    let archs ← walkArchs r thin.isSwapped (Record.size FatHeader) 0 header.value.archCount
    return { thin with header := some header, archs }
  else return thin

def archFor? (c : Container) (cpuType : Int) : Option (Placed FatArch) :=
  match c.archs.find? (·.value.cpuType = cpuType) with
  | some a => some a
  | none => c.archs.head?

def imageFor (c : Container) (cpuType : Int) : Except Fault Image :=
  if c.isFat then
    match c.archFor? cpuType with
    | none => .error (.format .noArchitectures)
    | some a =>
      match c.region.slice a.value.offset a.value.size with
      | .ok r => Image.parse r a.value.offset
      | .error _ => .error (.corrupt
          (.sliceOutside a.value.offset (a.value.offset + a.value.size) c.region.size))
  else Image.parse c.region 0

def parse (bytes : Array UInt8) (cpuType : Int) : Except Fault Image := do
  (← ofRegion { bytes }).imageFor cpuType

end Container
end MachImage
