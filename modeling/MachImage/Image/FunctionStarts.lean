import MachImage.Cursor
import MachImage.Image.Basic
/-!
Function starts: distances written one behind the other, the first from the virtual base, each
next from the start before it. A distance of zero ends them, as does the end of the data.
-/
namespace MachImage

def startsFrom (c : Cursor) (address : Nat) : Except Fault (List Nat) :=
  if c.atEnd then .ok []
  else match _read : c.unsigned with
    | .error e => .error e
    | .ok (distance, next) =>
      if distance = 0 then .ok []
      else (startsFrom next (address + distance)).map ((address + distance) :: ·)
termination_by c.left
decreasing_by exact (c.unsigned_moves _ _ _read).2.2

theorem startsFrom_eq (c : Cursor) (address : Nat) :
    startsFrom c address =
      if c.atEnd then .ok []
      else match c.unsigned with
        | .error e => .error e
        | .ok (distance, next) =>
          if distance = 0 then .ok []
          else (startsFrom next (address + distance)).map ((address + distance) :: ·) := by
  rw [startsFrom]
  split
  · rfl
  · split
    next e read => rw [read]
    next distance next read => rw [read]

def dropRepeats : List Nat → List Nat
  | a :: b :: rest => if a = b then dropRepeats (b :: rest) else a :: dropRepeats (b :: rest)
  | rest => rest

namespace Image

def functionStarts (i : Image) : Except Fault (List Nat) :=
  match i.functionStarts? with
  | none => .error (.missing .functionStarts)
  | some c =>
    let offset := c.value.dataOffset
    let size := c.value.dataSize
    match i.region.slice offset size with
    | .error _ => .error (.corrupt (.functionStartsOutside offset size))
    | .ok r => startsFrom { region := r } i.virtualBase

def functions (i : Image) : Except Fault (List Nat) :=
  if i.functionStarts?.isNone then .ok []
  else i.functionStarts.map fun starts => dropRepeats (starts.mergeSort (· ≤ ·))

end Image

end MachImage
