import MachImage.Image.Basic
/-!
Strings that stand in an image's data. A printable run is a stretch of bytes 0x20 to 0x7E in a
section that is long enough and that a NUL follows within the section. Runs are matched from left
to right, each as long as it can be. The sections that hold strings by custom are searched in turn,
and what is found is put in the order of the file.
-/
namespace MachImage

structure FoundString where
  text : String
  (address fileOffset : Nat)
  sectionName : String

def isShown (b : UInt8) : Bool := 0x20 ≤ b && b ≤ 0x7E

/-- How many bytes of a run match at the start: as many as show, or as many less as it takes for a
NUL to stand behind them, but not less than the least. -/
def matchLength? (least : Nat) (bs : List UInt8) : Option Nat :=
  let shown := (bs.takeWhile isShown).length
  (List.range' least (shown + 1 - least)).reverse.find? fun n => bs[n]? = some 0

def matchesFrom (least place : Nat) : List UInt8 → List (Nat × List UInt8)
  | [] => []
  | b :: bs =>
    match matchLength? least (b :: bs) with
    | some n =>
      (place, (b :: bs).take n) :: matchesFrom least (place + 1 + (n - 1)) (bs.drop (n - 1))
    | none => matchesFrom least (place + 1) bs
termination_by bs => bs.length
decreasing_by all_goals simp only [List.length_cons, List.length_drop]; omega

def printableRuns (least : Nat) (bs : List UInt8) : List (Nat × List UInt8) :=
  matchesFrom least 0 bs

namespace Image

def stringSections : List (String × String) :=
  [("__TEXT", "__cstring"), ("__TEXT", "__objc_classname"), ("__TEXT", "__objc_methname"),
   ("__TEXT", "__objc_methtype"), ("__TEXT", "__const"), ("__DATA", "__const"),
   ("__DATA", "__data")]

/-- A section that is missing, zero-filled or outside the slice holds no strings. -/
def stringsIn (i : Image) (least : Nat) (segment name : String) : List FoundString :=
  match i.sectionNamed? name segment with
  | none => []
  | some s =>
    if s.isZeroFill then []
    else match i.region.read s.fileOffset s.size with
      | .error _ => []
      | .ok bs => (printableRuns least bs.toList).map fun (start, run) =>
        { text := String.ofList (run.map fun b => Char.ofNat b.toNat)
          address := s.address + start
          fileOffset := s.fileOffset + start
          sectionName := s!"{segment},{name}" }

def repetitionLimit : Nat := 0xFFFFFFFF

def strings (i : Image) (least : Int) : Except Fault (List FoundString) :=
  if least < 1 then .error (.misuse (.minimumLength least))
  else if repetitionLimit ≤ least then .error .repetition
  else
    let found := stringSections.flatMap fun (segment, name) =>
      i.stringsIn least.toNat segment name
    .ok (found.mergeSort fun a b => a.fileOffset ≤ b.fileOffset)

end Image
end MachImage
