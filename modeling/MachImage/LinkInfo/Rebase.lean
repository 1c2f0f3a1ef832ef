import MachImage.LinkInfo.Slot
/-!
The rebase stream lists the slots that hold an address of the image itself. Its instructions set
the registers of a small machine and tell it to write records: each record is the registers as
they stand, and the offset moves on behind it. The stream ends with `done` or with its bytes.
-/
namespace MachImage

structure Rebase where
  (segmentIndex segmentOffset kind : Nat)
  deriving DecidableEq

namespace Rebase

def kindText (r : Rebase) : String := Slot.kindText r.kind

inductive Instruction where
  | done
  | setKind (kind : Nat)
  | setSegment (index offset : Nat)
  | skip (distance : Nat)
  | skipSlots (count : Nat)
  | fewTimes (count : Nat)
  | times (count : Nat)
  | onceAndSkip (distance : Nat)
  | timesSkipping (count distance : Nat)
  deriving DecidableEq

def Instruction.rest (c : Cursor) (b : UInt8) (next : Cursor) : Cursor.Read Instruction :=
  let low := b.toNat % 16
  match b.toNat / 16 with
  | 0x0 => .ok (.done, next)
  | 0x1 => .ok (.setKind low, next)
  | 0x2 => next.unsigned.as (.setSegment low)
  | 0x3 => next.unsigned.as .skip
  | 0x4 => .ok (.skipSlots low, next)
  | 0x5 => .ok (.fewTimes low, next)
  | 0x6 => next.unsigned.as .times
  | 0x7 => next.unsigned.as .onceAndSkip
  | 0x8 => next.unsigned.andThen fun count next => next.unsigned.as (.timesSkipping count)
  | _ => .error (.opcode b (c.region.base + c.offset))

def Instruction.read (c : Cursor) : Cursor.Read Instruction := c.byte.andThen (rest c)

structure State where
  segmentIndex : Nat := 0
  segmentOffset : Nat := 0
  kind : Nat := Slot.pointerKind
  records : Array Rebase := #[]

namespace State

def write (s : State) (stride : Nat) : State :=
  { s with
    records := s.records.push ⟨s.segmentIndex, s.segmentOffset, s.kind⟩
    segmentOffset := Slot.advance s.segmentOffset stride }

def writeMany (stride : Nat) : Nat → State → State
  | 0, s => s
  | count + 1, s => writeMany stride count (s.write stride)

def commit (limit : Nat) (s : State) (count stride : Nat) : Except Fault State :=
  if limit < count + s.records.size then .error (.corrupt (.repeatCount count))
  else .ok (writeMany stride count s)

def step (limit : Nat) (s : State) : Instruction → Except Fault State
  | .done => .ok s
  | .setKind kind => .ok { s with kind }
  | .setSegment index offset => .ok { s with segmentIndex := index, segmentOffset := offset }
  | .skip n => .ok { s with segmentOffset := Slot.advance s.segmentOffset n }
  | .skipSlots n => .ok { s with segmentOffset := Slot.advance s.segmentOffset (n * Slot.size) }
  | .fewTimes count => s.commit limit count Slot.size
  | .times count => s.commit limit count Slot.size
  | .onceAndSkip n => s.commit limit 1 (Slot.size + n)
  | .timesSkipping count n => s.commit limit count (Slot.size + n)

end State

theorem Instruction.read_moves (c : Cursor) : c.Moves (Instruction.read c) := by
  refine c.byte_moves.andThen fun b next first => ?_
  have operand := next.unsigned_moves.after first
  simp only [rest]
  split
  · exact Cursor.moves_ok first
  · exact Cursor.moves_ok first
  · exact operand.as _
  · exact operand.as _
  · exact Cursor.moves_ok first
  · exact Cursor.moves_ok first
  · exact operand.as _
  · exact operand.as _
  · exact operand.andThen fun _ after second => (after.unsigned_moves.after second).as _
  · exact Cursor.moves_error

def run (limit : Nat) (s : State) (c : Cursor) : Except Fault (Array Rebase) :=
  if c.atEnd then .ok s.records
  else match _read : Instruction.read c with
    | .error e => .error e
    | .ok (instruction, next) =>
      if instruction = .done then .ok s.records
      else match s.step limit instruction with
        | .error e => .error e
        | .ok t => run limit t next
termination_by c.left
decreasing_by exact (Instruction.read_moves _ _ _ _read).2.2

theorem run_eq (limit : Nat) (s : State) (c : Cursor) :
    run limit s c =
      if c.atEnd then .ok s.records
      else match Instruction.read c with
        | .error e => .error e
        | .ok (x, next) =>
          if x = .done then .ok s.records else s.step limit x >>= fun t => run limit t next := by
  rw [run]
  split
  · rfl
  · split
    next e read => rw [read]
    next x next read =>
      rw [read]
      dsimp only
      cases s.step limit x <;> rfl

def ofStream (limit : Nat) (r : Region) : Except Fault (List Rebase) :=
  (run limit {} { region := r }).map (·.toList)

end Rebase
end MachImage
