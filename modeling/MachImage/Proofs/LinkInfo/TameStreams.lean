import MachImage.LinkInfo.Basic
import MachImage.Proofs.Image.TameReads
import MachImage.Proofs.LinkInfo.ExportWalk
/-!
Streams are tame. The machines and the walk read through cursors, which only damaged bytes can
stop; and what they refuse themselves, they refuse as damage: an unknown instruction, more records
than there is room for, a root that cannot be read.
-/
namespace MachImage

namespace Cursor

section
variable {α β : Type} (c : Cursor)

theorem byte_tame : Tame c.byte := ((read_tame c.region c.offset 1).map _).map _

theorem unsigned_tame : Tame c.unsigned := by
  apply Tame.map
  unfold Leb.readUnsigned
  split
  · exact tame_ok _
  · exact tame_error rfl

theorem signed_tame : Tame c.signed := by
  apply Tame.map
  unfold Leb.readSigned
  split
  · exact tame_ok _
  · exact tame_error rfl

theorem stringBytes_tame : Tame c.cstringBytes := (cstringBytes_tame c.region c.offset).map _

theorem andThen_tame {x : Read α} {f : α → Cursor → Read β} (first : Tame x)
    (next : ∀ a d, Tame (f a d)) : Tame (x.andThen f) := by
  cases x with
  | error e => exact tame_error (first.expected e rfl)
  | ok p => exact next p.1 p.2

end
end Cursor

namespace Rebase

theorem read_tame (c : Cursor) : Tame (Instruction.read c) := by
  apply Cursor.andThen_tame c.byte_tame
  intro b next
  have operand := next.unsigned_tame
  simp only [Instruction.rest]
  split
  · exact tame_ok _
  · exact tame_ok _
  · exact operand.map _
  · exact operand.map _
  · exact tame_ok _
  · exact tame_ok _
  · exact operand.map _
  · exact operand.map _
  · exact Cursor.andThen_tame operand fun count after => after.unsigned_tame.map _
  · exact tame_error rfl

theorem step_tame (limit : Nat) (s : State) (x : Instruction) : Tame (s.step limit x) := by
  have commit (count stride : Nat) : Tame (s.commit limit count stride) := by
    unfold State.commit
    split
    · exact tame_error rfl
    · exact tame_ok _
  cases x with
  | done | setKind | setSegment | skip | skipSlots => exact tame_ok _
  | fewTimes | times | onceAndSkip | timesSkipping => exact commit _ _

theorem run_tame (limit : Nat) (s : State) (c : Cursor) : Tame (run limit s c) := by
  induction h : c.left using Nat.strongRecOn generalizing c s with
  | ind n ih =>
    rw [run_eq]
    split
    · exact tame_ok _
    · cases read : Instruction.read c with
      | error e => exact tame_error ((read_tame c).expected e read)
      | ok p =>
        obtain ⟨x, next⟩ := p
        have fewer := (Instruction.read_moves c x next read).2.2
        dsimp only
        split
        · exact tame_ok _
        · exact (step_tame limit s x).bind fun t _ => ih _ (h ▸ fewer) t next rfl

theorem ofStream_tame (limit : Nat) (r : Region) : Tame (ofStream limit r) :=
  (run_tame limit {} { region := r }).map _

end Rebase

namespace Binding

theorem read_tame (c : Cursor) : Tame (Instruction.read c) := by
  apply Cursor.andThen_tame c.byte_tame
  intro b next
  have operand := next.unsigned_tame
  simp only [Instruction.rest]
  split
  · exact tame_ok _
  · exact tame_ok _
  · exact operand.map _
  · exact tame_ok _
  · exact next.stringBytes_tame.map _
  · exact tame_ok _
  · exact next.signed_tame.map _
  · exact operand.map _
  · exact operand.map _
  · exact tame_ok _
  · exact operand.map _
  · exact tame_ok _
  · exact Cursor.andThen_tame operand fun count after => after.unsigned_tame.map _
  · split
    · exact operand.map _
    · split
      · exact tame_ok _
      · exact tame_error rfl
  · exact tame_error rfl

theorem step_tame (limit : Nat) (s : State) (x : Instruction) : Tame (s.step limit x) := by
  have commit (count stride : Nat) : Tame (s.commit limit count stride) := by
    unfold State.commit
    split
    · exact tame_error rfl
    · exact tame_ok _
  cases x with
  | once | onceAndSkip | onceAndSkipSlots | timesSkipping => exact commit _ _
  | done | setOrdinal | setLongOrdinal | setSpecial | setSymbol | setKind | setAddend | setSegment
  | skip | threadedTable | threadedApply => exact tame_ok _

theorem run_tame (limit : Nat) (isLazy : Bool) (s : State) (c : Cursor) :
    Tame (run limit isLazy s c) := by
  induction h : c.left using Nat.strongRecOn generalizing c s with
  | ind n ih =>
    rw [run_eq]
    split
    · exact tame_ok _
    · cases read : Instruction.read c with
      | error e => exact tame_error ((read_tame c).expected e read)
      | ok p =>
        obtain ⟨x, next⟩ := p
        have fewer := (Instruction.read_moves c x next read).2.2
        dsimp only
        split
        · exact tame_ok _
        · exact (step_tame limit s x).bind fun t _ => ih _ (h ▸ fewer) t next rfl

theorem ofStream_tame (limit : Nat) (isLazy : Bool) (r : Region) :
    Tame (ofStream limit isLazy r) :=
  (run_tame limit isLazy {} { region := r }).map _

end Binding

namespace Export

theorem readNode_tame (r : Region) (offset : Nat) (name : String) :
    Tame (readNode r offset name) := by
  apply (Cursor.unsigned_tame { region := r, offset }).bind
  intro p _
  obtain ⟨size, c⟩ := p
  dsimp only
  split
  · exact tame_error rfl
  · cases Cursor.byte { region := r, offset := c.offset + size } with
    | error e => exact tame_ok _
    | ok counted => exact tame_ok _

theorem walk_tame (r : Region) (seen : Std.TreeSet Nat) (todo : List (Nat × String)) :
    ∀ found, Tame (walk r seen found todo) := by
  induction seen, todo using walk_induction r with
  | done seen =>
    intro found
    rw [walk_nil]
    exact tame_ok _
  | enter seen offset name rest reachable ih =>
    intro found
    cases read : readNode r offset name with
    | ok node =>
      rw [walk_node reachable read]
      exact ih _ _
    | error e =>
      rw [walk_unreadable reachable read]
      split
      · exact tame_error ((readNode_tame r offset name).expected e read)
      · exact ih _ _
  | skip seen offset name rest unreachable ih =>
    intro found
    rw [walk_skip unreachable]
    split
    · exact tame_error rfl
    · exact ih found

theorem ofStream_tame (r : Region) : Tame (ofStream r) := (walk_tame r ∅ [(0, "")] #[]).map _

end Export
end MachImage
