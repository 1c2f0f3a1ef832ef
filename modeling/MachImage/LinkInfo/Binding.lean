import MachImage.LinkInfo.Slot
/-!
The bind streams list the slots that hold an address of another image, and name the symbol to be
found there. They drive a machine like that of the rebase stream, with a symbol, a dylib ordinal
and an addend among its registers. A lazy stream has an entry per stub, each ended by `done`, so
there `done` ends nothing.
-/
namespace MachImage

structure Binding where
  (segmentIndex segmentOffset kind flags : Nat)
  addend : Int
  /-- Which dylib is searched: counted from one, or a special place if not positive. -/
  ordinal : Int
  symbol : String
  deriving DecidableEq

namespace Binding

def kindText (b : Binding) : String := Slot.kindText b.kind

def isWeakImport (b : Binding) : Bool := b.flags % 2 = 1

def ordinalText (b : Binding) : String :=
  if b.ordinal = 0 then "Self"
  else if b.ordinal = -1 then "Main Executable"
  else if b.ordinal = -2 then "Flat Lookup"
  else if b.ordinal = -3 then "Weak Lookup"
  else s!"Dylib #{b.ordinal}"

inductive Instruction where
  | done
  | setOrdinal (ordinal : Nat)
  | setLongOrdinal (ordinal : Nat)
  | setSpecial (place : Nat)
  | setSymbol (flags : Nat) (name : List UInt8)
  | setKind (kind : Nat)
  | setAddend (addend : Int)
  | setSegment (index offset : Nat)
  | skip (distance : Nat)
  | once
  | onceAndSkip (distance : Nat)
  | onceAndSkipSlots (count : Nat)
  | timesSkipping (count distance : Nat)
  | threadedTable (size : Nat)
  | threadedApply
  deriving DecidableEq

/-- What follows the first byte of an instruction: its high half tells which one it is, its low
half is a small operand. -/
def Instruction.rest (c : Cursor) (b : UInt8) (next : Cursor) : Cursor.Read Instruction :=
  let low := b.toNat % 16
  match b.toNat / 16 with
  | 0x0 => .ok (.done, next)
  | 0x1 => .ok (.setOrdinal low, next)
  | 0x2 => next.unsigned.as .setLongOrdinal
  | 0x3 => .ok (.setSpecial low, next)
  | 0x4 => next.cstringBytes.as (.setSymbol low)
  | 0x5 => .ok (.setKind low, next)
  | 0x6 => next.signed.as .setAddend
  | 0x7 => next.unsigned.as (.setSegment low)
  | 0x8 => next.unsigned.as .skip
  | 0x9 => .ok (.once, next)
  | 0xA => next.unsigned.as .onceAndSkip
  | 0xB => .ok (.onceAndSkipSlots low, next)
  | 0xC => next.unsigned.andThen fun count next => next.unsigned.as (.timesSkipping count)
  | 0xD =>
    if low = 0 then next.unsigned.as .threadedTable
    else if low = 1 then .ok (.threadedApply, next)
    else .error (.opcode b (c.region.base + c.offset))
  | _ => .error (.opcode b (c.region.base + c.offset))

def Instruction.read (c : Cursor) : Cursor.Read Instruction := c.byte.andThen (rest c)

structure State where
  segmentIndex : Nat := 0
  segmentOffset : Nat := 0
  kind : Nat := Slot.pointerKind
  flags : Nat := 0
  addend : Int := 0
  ordinal : Int := 0
  symbol : String := ""
  records : Array Binding := #[]

namespace State

def record (s : State) : Binding :=
  ⟨s.segmentIndex, s.segmentOffset, s.kind, s.flags, s.addend, s.ordinal, s.symbol⟩

def write (s : State) (stride : Nat) : State :=
  { s with
    records := s.records.push s.record
    segmentOffset := Slot.advance s.segmentOffset stride }

def writeMany (stride : Nat) : Nat → State → State
  | 0, s => s
  | count + 1, s => writeMany stride count (s.write stride)

/-- More records than the limit are refused before one of them is written. -/
def commit (limit : Nat) (s : State) (count stride : Nat) : Except Fault State :=
  if limit < count + s.records.size then .error (.corrupt (.repeatCount count))
  else .ok (writeMany stride count s)

/-- The special places are numbers from -15 to 0, of which the low four bits are kept. -/
def specialOrdinal (place : Nat) : Int := if place = 0 then 0 else place - 16

/-- Threaded binds describe chains that are not followed. -/
def step (limit : Nat) (s : State) : Instruction → Except Fault State
  | .done | .threadedTable _ | .threadedApply => .ok s
  | .setOrdinal n | .setLongOrdinal n => .ok { s with ordinal := n }
  | .setSpecial place => .ok { s with ordinal := specialOrdinal place }
  | .setSymbol flags name => .ok { s with flags, symbol := Utf8.decode name }
  | .setKind kind => .ok { s with kind }
  | .setAddend addend => .ok { s with addend }
  | .setSegment index offset => .ok { s with segmentIndex := index, segmentOffset := offset }
  | .skip n => .ok { s with segmentOffset := Slot.advance s.segmentOffset n }
  | .once => s.commit limit 1 Slot.size
  | .onceAndSkip n => s.commit limit 1 (Slot.size + n)
  | .onceAndSkipSlots n => s.commit limit 1 (Slot.size + n * Slot.size)
  | .timesSkipping count n => s.commit limit count (Slot.size + n)

end State

theorem Instruction.read_moves (c : Cursor) : c.Moves (Instruction.read c) := by
  refine c.byte_moves.andThen fun b next first => ?_
  have operand := next.unsigned_moves.after first
  simp only [rest]
  split
  · exact Cursor.moves_ok first
  · exact Cursor.moves_ok first
  · exact operand.as _
  · exact Cursor.moves_ok first
  · exact (next.cstringBytes_moves.after first).as _
  · exact Cursor.moves_ok first
  · exact (next.signed_moves.after first).as _
  · exact operand.as _
  · exact operand.as _
  · exact Cursor.moves_ok first
  · exact operand.as _
  · exact Cursor.moves_ok first
  · exact operand.andThen fun _ after second => (after.unsigned_moves.after second).as _
  · split
    · exact operand.as _
    · split
      · exact Cursor.moves_ok first
      · exact Cursor.moves_error
  · exact Cursor.moves_error

def run (limit : Nat) (isLazy : Bool) (s : State) (c : Cursor) : Except Fault (Array Binding) :=
  if c.atEnd then .ok s.records
  else match _read : Instruction.read c with
    | .error e => .error e
    | .ok (instruction, next) =>
      if instruction = .done ∧ isLazy = false then .ok s.records
      else match s.step limit instruction with
        | .error e => .error e
        | .ok t => run limit isLazy t next
termination_by c.left
decreasing_by exact (Instruction.read_moves _ _ _ _read).2.2

theorem run_eq (limit : Nat) (isLazy : Bool) (s : State) (c : Cursor) :
    run limit isLazy s c =
      if c.atEnd then .ok s.records
      else match Instruction.read c with
        | .error e => .error e
        | .ok (x, next) =>
          if x = .done ∧ isLazy = false then .ok s.records
          else s.step limit x >>= fun t => run limit isLazy t next := by
  rw [run]
  split
  · rfl
  · split
    next e read => rw [read]
    next x next read =>
      rw [read]
      dsimp only
      cases s.step limit x <;> rfl

def ofStream (limit : Nat) (isLazy : Bool) (r : Region) : Except Fault (List Binding) :=
  (run limit isLazy {} { region := r }).map (·.toList)

end Binding
end MachImage
