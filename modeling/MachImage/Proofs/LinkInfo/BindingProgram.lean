import MachImage.Proofs.LinkInfo.Program
/-!
Programs of the bind streams. As with rebases, the stream of a program holds the records of its
single steps. A lazy stream may have the instruction that ends other streams anywhere in it.
-/
namespace MachImage.Binding

instance : Registers Binding where
  advance n b := { b with segmentOffset := (b.segmentOffset + n) % 0x10000000000000000 }

def start : Binding := ⟨0, 0, 1, 0, 0, 0, ""⟩

namespace Instruction

/-- The single steps of an instruction. A slot takes eight bytes, and threaded binds take none. -/
def expand : Instruction → List (Micro Binding)
  | .done | .threadedTable _ | .threadedApply => []
  | .setOrdinal n | .setLongOrdinal n => [.set fun b => { b with ordinal := n }]
  | .setSpecial n => [.set fun b => { b with ordinal := if n = 0 then 0 else (n : Int) - 16 }]
  | .setSymbol flags name => [.set fun b => { b with flags, symbol := Utf8.decode name }]
  | .setKind kind => [.set fun b => { b with kind }]
  | .setAddend addend => [.set fun b => { b with addend }]
  | .setSegment index offset =>
    [.set fun b => { b with segmentIndex := index, segmentOffset := offset }]
  | .skip n => [.set (Registers.advance n)]
  | .once => [.emit 8]
  | .onceAndSkip n => [.emit (8 + n)]
  | .onceAndSkipSlots n => [.emit (8 + n * 8)]
  | .timesSkipping count n => List.replicate count (.emit (8 + n))

def encode : Instruction → List UInt8
  | .done => [opcode 0x0 0]
  | .setOrdinal n => [opcode 0x1 n]
  | .setLongOrdinal n => opcode 0x2 0 :: Leb.encodeUnsigned n
  | .setSpecial n => [opcode 0x3 n]
  | .setSymbol flags name => opcode 0x4 flags :: name ++ [0]
  | .setKind kind => [opcode 0x5 kind]
  | .setAddend addend => opcode 0x6 0 :: Leb.encodeSigned addend
  | .setSegment index offset => opcode 0x7 index :: Leb.encodeUnsigned offset
  | .skip n => opcode 0x8 0 :: Leb.encodeUnsigned n
  | .once => [opcode 0x9 0]
  | .onceAndSkip n => opcode 0xA 0 :: Leb.encodeUnsigned n
  | .onceAndSkipSlots n => [opcode 0xB n]
  | .timesSkipping count n => opcode 0xC 0 :: Leb.encodeUnsigned count ++ Leb.encodeUnsigned n
  | .threadedTable size => opcode 0xD 0 :: Leb.encodeUnsigned size
  | .threadedApply => [opcode 0xD 1]

/-- Small operands have four bits, the others 64. A name has no NUL. -/
def Fits : Instruction → Prop
  | .done | .once | .threadedApply => True
  | .setOrdinal n | .setSpecial n | .setKind n | .onceAndSkipSlots n => n < 16
  | .setSymbol flags name => flags < 16 ∧ 0 ∉ name
  | .setAddend addend => -0x8000000000000000 ≤ addend ∧ addend < 0x8000000000000000
  | .setSegment index offset => index < 16 ∧ offset < 0x10000000000000000
  | .setLongOrdinal n | .skip n | .onceAndSkip n | .threadedTable n => n < 0x10000000000000000
  | .timesSkipping count n => count < 0x10000000000000000 ∧ n < 0x10000000000000000

end Instruction

section
variable {c : Cursor} {bs : List UInt8}

theorem read_opcode {high low : Nat} (h : c.Faces (opcode high low :: bs)) :
    Instruction.read c = Instruction.rest c (opcode high low) (c.forward 1) := by
  rw [Instruction.read, h.byte]
  rfl

theorem read_encode {x : Instruction} (h : c.Faces (x.encode ++ bs)) (fits : x.Fits) :
    ∃ d, Instruction.read c = .ok (x, d) ∧ d.Faces bs := by
  cases x with
  | done =>
    obtain ⟨high, -⟩ := @opcode_halves 0x0 0 (by decide) (by decide)
    refine ⟨_, ?_, h.next⟩
    rw [read_opcode h, Instruction.rest, high]
    rfl
  | setOrdinal n =>
    obtain ⟨high, low⟩ := @opcode_halves 0x1 n (by decide) fits
    refine ⟨_, ?_, h.next⟩
    rw [read_opcode h, Instruction.rest, high, low]
    rfl
  | setLongOrdinal n =>
    obtain ⟨high, -⟩ := @opcode_halves 0x2 0 (by decide) (by decide)
    refine ⟨_, ?_, h.next.forward⟩
    rw [read_opcode h, Instruction.rest, high, h.next.unsigned fits]
    rfl
  | setSpecial n =>
    obtain ⟨high, low⟩ := @opcode_halves 0x3 n (by decide) fits
    refine ⟨_, ?_, h.next⟩
    rw [read_opcode h, Instruction.rest, high, low]
    rfl
  | setSymbol flags name =>
    obtain ⟨high, low⟩ := @opcode_halves 0x4 flags (by decide) fits.1
    have string : (c.forward 1).Faces (name ++ 0 :: bs) := by
      rw [List.append_cons]
      exact h.next
    refine ⟨_, ?_, string.behindString⟩
    rw [read_opcode h, Instruction.rest, high, low, string.cstringBytes fits.2]
    rfl
  | setKind kind =>
    obtain ⟨high, low⟩ := @opcode_halves 0x5 kind (by decide) fits
    refine ⟨_, ?_, h.next⟩
    rw [read_opcode h, Instruction.rest, high, low]
    rfl
  | setAddend addend =>
    obtain ⟨high, -⟩ := @opcode_halves 0x6 0 (by decide) (by decide)
    refine ⟨_, ?_, h.next.forward⟩
    rw [read_opcode h, Instruction.rest, high, h.next.signed fits]
    rfl
  | setSegment index offset =>
    obtain ⟨high, low⟩ := @opcode_halves 0x7 index (by decide) fits.1
    refine ⟨_, ?_, h.next.forward⟩
    rw [read_opcode h, Instruction.rest, high, low, h.next.unsigned fits.2]
    rfl
  | skip n =>
    obtain ⟨high, -⟩ := @opcode_halves 0x8 0 (by decide) (by decide)
    refine ⟨_, ?_, h.next.forward⟩
    rw [read_opcode h, Instruction.rest, high, h.next.unsigned fits]
    rfl
  | once =>
    obtain ⟨high, -⟩ := @opcode_halves 0x9 0 (by decide) (by decide)
    refine ⟨_, ?_, h.next⟩
    rw [read_opcode h, Instruction.rest, high]
    rfl
  | onceAndSkip n =>
    obtain ⟨high, -⟩ := @opcode_halves 0xA 0 (by decide) (by decide)
    refine ⟨_, ?_, h.next.forward⟩
    rw [read_opcode h, Instruction.rest, high, h.next.unsigned fits]
    rfl
  | onceAndSkipSlots n =>
    obtain ⟨high, low⟩ := @opcode_halves 0xB n (by decide) fits
    refine ⟨_, ?_, h.next⟩
    rw [read_opcode h, Instruction.rest, high, low]
    rfl
  | timesSkipping count n =>
    obtain ⟨high, -⟩ := @opcode_halves 0xC 0 (by decide) (by decide)
    have first : (c.forward 1).Faces
        (Leb.encodeUnsigned count ++ (Leb.encodeUnsigned n ++ bs)) := by
      rw [← List.append_assoc]
      exact h.next
    refine ⟨_, ?_, first.forward.forward⟩
    rw [read_opcode h, Instruction.rest, high, first.unsigned fits.1]
    dsimp only [Cursor.Read.andThen]
    rw [first.forward.unsigned fits.2]
    rfl
  | threadedTable size =>
    obtain ⟨high, low⟩ := @opcode_halves 0xD 0 (by decide) (by decide)
    refine ⟨_, ?_, h.next.forward⟩
    rw [read_opcode h, Instruction.rest, high, low, h.next.unsigned fits]
    rfl
  | threadedApply =>
    obtain ⟨high, low⟩ := @opcode_halves 0xD 1 (by decide) (by decide)
    refine ⟨_, ?_, h.next⟩
    rw [read_opcode h, Instruction.rest, high, low]
    rfl

theorem read_end {low : Nat} (h : c.Faces (opcode 0 low :: bs)) (small : low < 16) :
    Instruction.read c = .ok (.done, c.forward 1) := by
  rw [read_opcode h, Instruction.rest, (opcode_halves (by decide) small).1]
  rfl

theorem encode_ne_nil (x : Instruction) : x.encode ≠ [] := by
  cases x <;> simp [Instruction.encode]

section
variable {limit : Nat} {isLazy : Bool} {s : State} {x : Instruction} {d : Cursor}

theorem run_atEnd (ended : c.atEnd = true) : run limit isLazy s c = .ok s.records := by
  rw [run_eq, if_pos ended]

theorem run_done (going : c.atEnd = false) (read : Instruction.read c = .ok (.done, d)) :
    run limit false s c = .ok s.records := by
  rw [run_eq, if_neg (ne_true_of_eq_false going), read]
  exact if_pos ⟨rfl, rfl⟩

theorem run_step (going : c.atEnd = false) (read : Instruction.read c = .ok (x, d))
    (more : x = .done → isLazy = true) :
    run limit isLazy s c = s.step limit x >>= fun t => run limit isLazy t d := by
  rw [run_eq, if_neg (ne_true_of_eq_false going), read]
  refine if_neg fun ⟨ended, strict⟩ => ?_
  rw [more ended] at strict
  cases strict

end

theorem run_executes (limit : Nat) {isLazy : Bool} {tail : List UInt8}
    (ends : tail = [] ∨ isLazy = false ∧ EndsProgram tail) :
    Executes (fun x => (x = .done → isLazy = true) ∧ x.Fits) Instruction.encode tail
      (State.step limit) (·.records) (run limit isLazy) where
  last s c faces := by
    rcases ends with rfl | ⟨rfl, rfl | ⟨low, rest, small, rfl⟩⟩
    · exact run_atEnd faces.atEnd
    · exact run_atEnd faces.atEnd
    · exact run_done faces.atEnd (read_end faces small)
  next s c x bs allowed faces := by
    obtain ⟨more, fits⟩ := allowed
    obtain ⟨d, read, behind⟩ := read_encode faces fits
    exact ⟨d, behind, run_step (faces.going (encode_ne_nil x)) read more⟩

end

def State.view (s : State) : Binding × List Binding := (s.record, s.records.toList)

theorem State.view_write (s : State) (stride : Nat) :
    (s.write stride).view = (Registers.advance stride s.view.1, s.view.2 ++ [s.view.1]) := by
  simp only [view, write, Array.toList_push]
  rfl

theorem commit_capped (limit count stride : Nat) (s : State) :
    Capped limit State.view s (List.replicate count (.emit stride))
      (s.commit limit count stride) :=
  Capped.commit (view_writeMany (fun _ => rfl) (fun _ _ => rfl) (·.view_write stride) count s)

theorem step_capped (limit : Nat) (s : State) (x : Instruction) :
    Capped limit State.view s x.expand (s.step limit x) := by
  cases x with
  | done => exact Capped.ok rfl rfl
  | setOrdinal n => exact Capped.ok rfl rfl
  | setLongOrdinal n => exact Capped.ok rfl rfl
  | setSpecial n => exact Capped.ok rfl rfl
  | setSymbol flags name => exact Capped.ok rfl rfl
  | setKind kind => exact Capped.ok rfl rfl
  | setAddend addend => exact Capped.ok rfl rfl
  | setSegment index offset => exact Capped.ok rfl rfl
  | skip n => exact Capped.ok rfl rfl
  | once => exact commit_capped limit 1 8 s
  | onceAndSkip n => exact commit_capped limit 1 (8 + n) s
  | onceAndSkipSlots n => exact commit_capped limit 1 (8 + n * 8) s
  | timesSkipping count n => exact commit_capped limit count (8 + n) s
  | threadedTable size => exact Capped.ok rfl rfl
  | threadedApply => exact Capped.ok rfl rfl

/-- The stream of a program holds the records of its single steps, if they are no more than the
pointers that the segments have room for and one more. Otherwise it is corrupt. What ends other
streams is no instruction of theirs, and one of no steps in a lazy stream. -/
theorem bindings_of_program (i : Image) (is : List Instruction) (tail : List UInt8) (base : Int)
    (fits : ∀ x ∈ is, x.Fits) (ends : EndsProgram tail) :
    let held := HoldsUpTo (i.segments.foldl (fun total s => total + s.vmSize) 0 / 8 + 1)
      (emitted start (is.flatMap Instruction.expand))
    let written := is.flatMap Instruction.encode
    ((∀ x ∈ is, x ≠ .done) →
      held (ofStream i.recordLimit false { bytes := (written ++ tail).toArray, base })) ∧
    held (ofStream i.recordLimit true { bytes := written.toArray, base }) := by
  intro held written
  have capped : Capped i.recordLimit State.view {} (is.flatMap Instruction.expand)
      (is.foldlM (State.step i.recordLimit) {}) := Capped.run (step_capped _) is {}
  constructor
  · intro strict
    have program : ∀ x ∈ is, (x = .done → false = true) ∧ x.Fits := fun x member =>
      ⟨fun ended => absurd ended (strict x member), fits x member⟩
    rw [ofStream, (run_executes _ (Or.inr ⟨rfl, ends⟩)).program is program {}
      (Cursor.faces_start _ base)]
    exact capped.holdsUpTo rfl fun _ => rfl
  · have program : ∀ x ∈ is, (x = .done → true = true) ∧ x.Fits := fun x member =>
      ⟨fun _ => rfl, fits x member⟩
    have all : Cursor.Faces { region := { bytes := written.toArray, base } } (written ++ []) := by
      rw [List.append_nil]
      exact Cursor.faces_start written base
    rw [ofStream, (run_executes _ (Or.inl rfl)).program is program {} all]
    exact capped.holdsUpTo rfl fun _ => rfl

def stubs : List Instruction :=
  [.setSegment 2 0xFFFFFFFFFFFFFFF8, .setSpecial 14, .setSymbol 1 [0x66, 0xFF], .setAddend (-129),
   .once, .done, .threadedTable 7, .setLongOrdinal 300, .onceAndSkipSlots 15, .threadedApply, .done]

theorem bindings_of_stubs :
    (∀ x ∈ stubs, x.Fits) ∧ EndsProgram [0x00, 0xD7] ∧
    ofStream (Image.withRoom 8).recordLimit true
      { bytes := (stubs.flatMap Instruction.encode).toArray } =
        .ok [⟨2, 0xFFFFFFFFFFFFFFF8, 1, 1, -129, -2, Utf8.decode [0x66, 0xFF]⟩,
          ⟨2, 0, 1, 1, -129, 300, Utf8.decode [0x66, 0xFF]⟩] ∧
    ofStream (Image.withRoom 0).recordLimit false
      { bytes := ((stubs.take 5).flatMap Instruction.encode ++ [0x00, 0xD7]).toArray } =
        .ok [⟨2, 0xFFFFFFFFFFFFFFF8, 1, 1, -129, -2, Utf8.decode [0x66, 0xFF]⟩] ∧
    ∃ c, ofStream (Image.withRoom 0).recordLimit true
      { bytes := (stubs.flatMap Instruction.encode).toArray } = .error (.corrupt c) := by
  have fits : ∀ x ∈ stubs, x.Fits := by simp [stubs, Instruction.Fits]
  have some : ∀ x ∈ stubs.take 5, x.Fits := fun x member => fits x (List.mem_of_mem_take member)
  have strict : ∀ x ∈ stubs.take 5, x ≠ .done := by decide
  have ends : EndsProgram [0x00, 0xD7] := Or.inr ⟨0, [0xD7], by decide, rfl⟩
  refine ⟨fits, ends, ?_, ?_, ?_⟩
  · exact (bindings_of_program (Image.withRoom 8) stubs _ 0 fits ends).2.held (by decide)
  · exact ((bindings_of_program (Image.withRoom 0) (stubs.take 5) _ 0 some ends).1 strict).held
      (by decide)
  · exact (bindings_of_program (Image.withRoom 0) stubs _ 0 fits ends).2.refused (by decide)

end MachImage.Binding
