import MachImage.Image.Basic
/-!
What an image says of itself: the machine and the purpose it was built for, its flags, versions,
platform and identifier.
-/
namespace MachImage

inductive Cpu where
  | arm64 | x86_64 | unknown
  deriving DecidableEq

namespace Cpu

def arm64Code : Nat := 0x0100000C
def x86_64Code : Nat := 0x01000007

def ofCode (code : Nat) : Cpu :=
  if code = arm64Code then .arm64 else if code = x86_64Code then .x86_64 else .unknown

def name : Cpu → String
  | .arm64 => "ARM64"
  | .x86_64 => "X86_64"
  | .unknown => "UNKNOWN"

end Cpu

def fileTypes : List String :=
  ["MH_OBJECT", "MH_EXECUTE", "MH_FVMLIB", "MH_CORE", "MH_PRELOAD", "MH_DYLIB", "MH_DYLINKER",
   "MH_BUNDLE", "MH_DYLIB_STUB", "MH_DSYM", "MH_KEXT_BUNDLE", "MH_FILESET"]

def platforms : List String :=
  ["MACOS", "IOS", "TVOS", "WATCHOS", "BRIDGEOS", "MACCATALYST", "IOSSIMULATOR",
   "TVOSSIMULATOR", "WATCHOSSIMULATOR", "DRIVERKIT"]

def nameFromOne? (names : List String) (code : Nat) : Option String :=
  if code = 0 then none else names[code - 1]?

def packedVersion (n : Nat) : Nat × Nat × Nat :=
  (n >>> 16 % 0x10000, n >>> 8 % 0x100, n % 0x100)

namespace Image

def cpu (i : Image) : Cpu := .ofCode i.header.value.cpuType

def fileType? (i : Image) : Option String := nameFromOne? fileTypes i.header.value.fileType

def headerFlags (i : Image) : List Nat :=
  ((List.range 26).map (1 <<< ·)).filter fun mask => i.header.value.flags / mask % 2 = 1

def uuidText? (i : Image) : Option String :=
  i.uuid?.map fun c =>
    let part (start stop : Nat) := Hex.bytes (c.value.uuid.extract start stop)
    "-".intercalate [part 0 4, part 4 6, part 6 8, part 8 10, part 10 16]

def entryOffset? (i : Image) : Option Nat := i.entryPoint?.map (·.value.entryOffset)

def sourceVersionText? (i : Image) : Option String :=
  i.sourceVersion?.map fun c =>
    let n := c.value.version
    ".".intercalate ([n >>> 40 % 0x1000000, n >>> 30 % 0x400, n >>> 20 % 0x400,
      n >>> 10 % 0x400, n % 0x400].map toString)

/-- The build version speaks before a minimum version. -/
def minimumOs? (i : Image) : Option (Nat × Nat × Nat) :=
  match i.buildVersion? with
  | some (c, _) => some (packedVersion c.value.minimumOs)
  | none => i.versionMinimum?.map fun c => packedVersion c.value.version

def platform? (i : Image) : Option String :=
  i.buildVersion?.bind fun (c, _) => nameFromOne? platforms c.value.platform

def buildTools? (i : Image) : Option (List (Placed BuildTool)) := i.buildVersion?.map (·.2)

end Image
end MachImage
