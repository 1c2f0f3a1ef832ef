import MachImage.Proofs.LinkInfo.Program
/-!
Programs of the rebase stream. A program is a list of instructions other than the one that ends it.
The stream of its bytes, ended or not, holds the records of its single steps.
-/
namespace MachImage

namespace Rebase

instance : Registers Rebase where
  advance n r := { r with segmentOffset := (r.segmentOffset + n) % 0x10000000000000000 }

def start : Rebase := ⟨0, 0, 1⟩

namespace Instruction

def expand : Instruction → List (Micro Rebase)
  | .done => []
  | .setKind kind => [.set fun r => { r with kind }]
  | .setSegment index offset =>
    [.set fun r => { r with segmentIndex := index, segmentOffset := offset }]
  | .skip n => [.set (Registers.advance n)]
  | .skipSlots n => [.set (Registers.advance (8 * n))]
  | .fewTimes count | .times count => List.replicate count (.emit 8)
  | .onceAndSkip n => [.emit (8 + n)]
  | .timesSkipping count n => List.replicate count (.emit (8 + n))

def encode : Instruction → List UInt8
  | .done => [opcode 0x0 0]
  | .setKind kind => [opcode 0x1 kind]
  | .setSegment index offset => opcode 0x2 index :: Leb.encodeUnsigned offset
  | .skip n => opcode 0x3 0 :: Leb.encodeUnsigned n
  | .skipSlots n => [opcode 0x4 n]
  | .fewTimes count => [opcode 0x5 count]
  | .times count => opcode 0x6 0 :: Leb.encodeUnsigned count
  | .onceAndSkip n => opcode 0x7 0 :: Leb.encodeUnsigned n
  | .timesSkipping count n => opcode 0x8 0 :: Leb.encodeUnsigned count ++ Leb.encodeUnsigned n

def Fits : Instruction → Prop
  | .done => True
  | .setKind n | .skipSlots n | .fewTimes n => n < 16
  | .setSegment index offset => index < 16 ∧ offset < 0x10000000000000000
  | .skip n | .times n | .onceAndSkip n => n < 0x10000000000000000
  | .timesSkipping count n => count < 0x10000000000000000 ∧ n < 0x10000000000000000

end Instruction

section
variable {c : Cursor} {bs : List UInt8}

theorem read_opcode {high low : Nat} (h : c.Faces (opcode high low :: bs)) :
    Instruction.read c = Instruction.rest c (opcode high low) (c.forward 1) := by
  rw [Instruction.read, h.byte]
  rfl

theorem read_encode {x : Instruction} (h : c.Faces (x.encode ++ bs)) (fits : x.Fits) :
    ∃ d, Instruction.read c = .ok (x, d) ∧ d.Faces bs := by
  cases x with
  | done =>
    obtain ⟨high, -⟩ := @opcode_halves 0x0 0 (by decide) (by decide)
    refine ⟨_, ?_, h.next⟩
    rw [read_opcode h, Instruction.rest, high]
    rfl
  | setKind kind =>
    obtain ⟨high, low⟩ := @opcode_halves 0x1 kind (by decide) fits
    refine ⟨_, ?_, h.next⟩
    rw [read_opcode h, Instruction.rest, high, low]
    rfl
  | setSegment index offset =>
    obtain ⟨high, low⟩ := @opcode_halves 0x2 index (by decide) fits.1
    refine ⟨_, ?_, h.next.forward⟩
    rw [read_opcode h, Instruction.rest, high, low, h.next.unsigned fits.2]
    rfl
  | skip n =>
    obtain ⟨high, -⟩ := @opcode_halves 0x3 0 (by decide) (by decide)
    refine ⟨_, ?_, h.next.forward⟩
    rw [read_opcode h, Instruction.rest, high, h.next.unsigned fits]
    rfl
  | skipSlots n =>
    obtain ⟨high, low⟩ := @opcode_halves 0x4 n (by decide) fits
    refine ⟨_, ?_, h.next⟩
    rw [read_opcode h, Instruction.rest, high, low]
    rfl
  | fewTimes count =>
    obtain ⟨high, low⟩ := @opcode_halves 0x5 count (by decide) fits
    refine ⟨_, ?_, h.next⟩
    rw [read_opcode h, Instruction.rest, high, low]
    rfl
  | times count =>
    obtain ⟨high, -⟩ := @opcode_halves 0x6 0 (by decide) (by decide)
    refine ⟨_, ?_, h.next.forward⟩
    rw [read_opcode h, Instruction.rest, high, h.next.unsigned fits]
    rfl
  | onceAndSkip n =>
    obtain ⟨high, -⟩ := @opcode_halves 0x7 0 (by decide) (by decide)
    refine ⟨_, ?_, h.next.forward⟩
    rw [read_opcode h, Instruction.rest, high, h.next.unsigned fits]
    rfl
  | timesSkipping count n =>
    obtain ⟨high, -⟩ := @opcode_halves 0x8 0 (by decide) (by decide)
    have first : (c.forward 1).Faces
        (Leb.encodeUnsigned count ++ (Leb.encodeUnsigned n ++ bs)) := by
      rw [← List.append_assoc]
      exact h.next
    refine ⟨_, ?_, first.forward.forward⟩
    rw [read_opcode h, Instruction.rest, high, first.unsigned fits.1]
    dsimp only [Cursor.Read.andThen]
    rw [first.forward.unsigned fits.2]
    rfl

theorem read_end {low : Nat} (h : c.Faces (opcode 0 low :: bs)) (small : low < 16) :
    Instruction.read c = .ok (.done, c.forward 1) := by
  rw [read_opcode h, Instruction.rest, (opcode_halves (by decide) small).1]
  rfl

theorem encode_ne_nil (x : Instruction) : x.encode ≠ [] := by
  cases x <;> simp [Instruction.encode]

section
variable {limit : Nat} {s : State} {x : Instruction} {d : Cursor}

theorem run_atEnd (ended : c.atEnd = true) : run limit s c = .ok s.records := by
  rw [run_eq, if_pos ended]

theorem run_done (going : c.atEnd = false) (read : Instruction.read c = .ok (.done, d)) :
    run limit s c = .ok s.records := by
  rw [run_eq, if_neg (ne_true_of_eq_false going), read]
  exact if_pos rfl

theorem run_step (going : c.atEnd = false) (read : Instruction.read c = .ok (x, d))
    (more : x ≠ .done) : run limit s c = s.step limit x >>= fun t => run limit t d := by
  rw [run_eq, if_neg (ne_true_of_eq_false going), read]
  exact if_neg more

end

theorem run_executes (limit : Nat) {tail : List UInt8} (ends : EndsProgram tail) :
    Executes (fun x => x ≠ .done ∧ x.Fits) Instruction.encode tail (State.step limit)
      (·.records) (run limit) where
  last s c faces := by
    rcases ends with rfl | ⟨low, rest, small, rfl⟩
    · exact run_atEnd faces.atEnd
    · exact run_done faces.atEnd (read_end faces small)
  next s c x bs allowed faces := by
    obtain ⟨more, fits⟩ := allowed
    obtain ⟨d, read, behind⟩ := read_encode faces fits
    exact ⟨d, behind, run_step (faces.going (encode_ne_nil x)) read more⟩

end

/-- The registers and the records of a state. -/
def State.view (s : State) : Rebase × List Rebase :=
  (⟨s.segmentIndex, s.segmentOffset, s.kind⟩, s.records.toList)

theorem State.view_write (s : State) (stride : Nat) :
    (s.write stride).view = (Registers.advance stride s.view.1, s.view.2 ++ [s.view.1]) := by
  simp only [view, write, Array.toList_push]
  rfl

theorem commit_capped (limit count stride : Nat) (s : State) :
    Capped limit State.view s (List.replicate count (.emit stride))
      (s.commit limit count stride) :=
  Capped.commit (view_writeMany (fun _ => rfl) (fun _ _ => rfl) (·.view_write stride) count s)

theorem step_capped (limit : Nat) (s : State) (x : Instruction) :
    Capped limit State.view s x.expand (s.step limit x) := by
  cases x with
  | done => exact Capped.ok rfl rfl
  | setKind kind => exact Capped.ok rfl rfl
  | setSegment index offset => exact Capped.ok rfl rfl
  | skip n => exact Capped.ok rfl rfl
  | skipSlots n =>
    rw [Instruction.expand, Nat.mul_comm]
    exact Capped.ok rfl rfl
  | fewTimes count => exact commit_capped limit count 8 s
  | times count => exact commit_capped limit count 8 s
  | onceAndSkip n => exact commit_capped limit 1 (8 + n) s
  | timesSkipping count n => exact commit_capped limit count (8 + n) s

/-- The stream of a program holds the records of its single steps, if they are no more than the
pointers that the segments have room for and one more. Otherwise it is corrupt. -/
theorem rebases_of_program (i : Image) (is : List Instruction) (tail : List UInt8) (base : Int)
    (program : ∀ x ∈ is, x ≠ .done ∧ x.Fits) (ends : EndsProgram tail) :
    HoldsUpTo (i.segments.foldl (fun total s => total + s.vmSize) 0 / 8 + 1)
      (emitted start (is.flatMap Instruction.expand))
      (ofStream i.recordLimit
        { bytes := (is.flatMap Instruction.encode ++ tail).toArray, base }) := by
  have capped : Capped i.recordLimit State.view {} (is.flatMap Instruction.expand)
      (is.foldlM (State.step i.recordLimit) {}) := Capped.run (step_capped _) is {}
  rw [ofStream, (run_executes _ ends).program is program {} (Cursor.faces_start _ base)]
  exact capped.holdsUpTo rfl fun _ => rfl

def wrapping : List Instruction :=
  [.setKind 2, .setSegment 3 0xFFFFFFFFFFFFFFF0, .skipSlots 1, .fewTimes 0, .timesSkipping 2 8,
   .onceAndSkip 1]

theorem rebases_of_wrapping :
    (∀ x ∈ wrapping, x ≠ .done ∧ x.Fits) ∧ EndsProgram [0x0A, 0xFF] ∧
    ofStream (Image.withRoom 16).recordLimit
      { bytes := (wrapping.flatMap Instruction.encode ++ [0x0A, 0xFF]).toArray } =
        .ok [⟨3, 0xFFFFFFFFFFFFFFF8, 2⟩, ⟨3, 8, 2⟩, ⟨3, 24, 2⟩] ∧
    ∃ c, ofStream (Image.withRoom 15).recordLimit
      { bytes := (wrapping.flatMap Instruction.encode ++ [0x0A, 0xFF]).toArray } =
        .error (.corrupt c) := by
  have fits : ∀ x ∈ wrapping, x ≠ .done ∧ x.Fits := by simp [wrapping, Instruction.Fits]
  have ends : EndsProgram [0x0A, 0xFF] := Or.inr ⟨0xA, [0xFF], by decide, rfl⟩
  refine ⟨fits, ends, ?_, ?_⟩
  · exact (rebases_of_program (Image.withRoom 16) wrapping _ 0 fits ends).held (by decide)
  · exact (rebases_of_program (Image.withRoom 15) wrapping _ 0 fits ends).refused (by decide)

end Rebase
end MachImage
