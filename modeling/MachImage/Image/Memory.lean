import MachImage.Image.Basic
import MachImage.Record.Catalogue
/-!
The image as it lies in memory. An address leads to a place in the slice through the first segment
that covers it: by a section of that segment if one covers the address, else by the part of the
segment that the file holds. Reads at an address go through that place.
-/
namespace MachImage.Image

def offsetIn (s : Segment) (address : Int) : Except Fault Int :=
  match s.sections.find? (·.covers address) with
  | some sec =>
    if sec.isZeroFill then .error (.unmapped address)
    else .ok (sec.fileOffset + (address - sec.address))
  | none =>
    if address - s.address < s.fileSize then .ok (s.fileOffset + (address - s.address))
    else .error (.unmapped address)

def coversBehind (base : Nat) (s : Segment) (distance : Int) : Bool :=
  (s.address - base : Int) ≤ distance && distance < (s.address - base : Int) + s.vmSize

def offsetOf (i : Image) (address : Int) : Except Fault Int :=
  let base := i.virtualBase
  if address < base then .error (.unmapped address)
  else match i.segments.find? (coversBehind base · (address - base)) with
    | some s => offsetIn s address
    | none => .error (.unmapped address)

theorem coversBehind_eq (base : Nat) (s : Segment) (address : Int) :
    coversBehind base s (address - base) = s.covers address := by
  have stop : (s.endAddress : Int) = s.address + s.vmSize := rfl
  rw [Bool.eq_iff_iff]
  simp only [coversBehind, Segment.covers, Bool.and_eq_true, decide_eq_true_eq, stop]
  refine and_congr ?_ ?_
  · omega
  · omega

/-- Distances from the base are compared, which is to compare the addresses. -/
theorem offsetOf_eq (i : Image) (address : Int) : i.offsetOf address =
    if address < i.virtualBase then .error (.unmapped address)
    else match i.segments.find? (·.covers address) with
      | some s => offsetIn s address
      | none => .error (.unmapped address) := by
  simp only [offsetOf, coversBehind_eq]

def recordAt (α : Type) [Record α] (i : Image) (address : Int) : Except Fault (Placed α) := do
  i.region.record α (← i.offsetOf address)

def dumpAt (l : Layout) (i : Image) (address : Int) : Except Fault Dump := do
  i.region.dump l (← i.offsetOf address)

def wordAt (i : Image) (address : Int) (type : WordType) : Except Fault Int := do
  i.region.word (← i.offsetOf address) type

def pointerAt (i : Image) (address : Int) : Except Fault Nat :=
  (i.wordAt address .u64).map (·.toNat)

def stringAt (i : Image) (address : Int) : Except Fault String := do
  i.region.cstring (← i.offsetOf address)

def pointers (bs : Array UInt8) : List Nat :=
  (List.range (bs.size / 8)).map fun k => Record.u64 bs (8 * k)

def pointerSection (i : Image) (name : String) : Except Fault (List (Nat × Nat)) :=
  match i.dataSection? name with
  | none => .ok []
  | some s => do
    let bs ← i.region.read s.fileOffset s.size
    return (pointers bs).mapIdx fun k p => (s.address + 8 * k, p)

end MachImage.Image
