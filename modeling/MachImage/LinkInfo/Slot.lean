import MachImage.Cursor
/-!
A slot is a place for a pointer, given by a segment and an offset in it. The streams that list
slots hold offsets of 64 bits, step by slots of eight bytes, and say for each slot how it is to be
filled.
-/
namespace MachImage.Slot

def size : Nat := 8

/-- An offset that passes the end of 64 bits begins again at zero. -/
def advance (offset distance : Nat) : Nat := (offset + distance) % 0x10000000000000000

def pointerKind : Nat := 1

def kindText (kind : Nat) : String :=
  if kind = 1 then "Pointer"
  else if kind = 2 then "Text Abs32"
  else if kind = 3 then "Text PCRel32"
  else s!"Unknown ({kind})"

end MachImage.Slot
