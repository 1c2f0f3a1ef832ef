import Mathlib.Data.List.Nodup
import MachImage.Proofs.Image.Tables
import MachImage.Proofs.LinkInfo.Ranges
/-!
Room for slots. The slots of a stream that lie in their segments and do not overlap cover eight
bytes each, all of them different, so they are no more than the bytes of the segments divided by
eight. The limit for records is one more than that: it refuses no such stream, and bounds the
records of all others.
-/
namespace MachImage

def slotBytes (slot : Nat × Nat) : List (Nat × Nat) :=
  (List.range 8).map fun k => (slot.1, slot.2 + k)

def segmentBytes (sizes : List Nat) : List (Nat × Nat) :=
  sizes.zipIdx.flatMap fun s => (List.range s.1).map fun o => (s.2, o)

/-- Slots, each by its segment and the offset in it, that lie in segments of these sizes and do not
overlap. -/
structure SlotsFit (sizes : List Nat) (slots : List (Nat × Nat)) : Prop where
  inside : ∀ p ∈ slots, ∃ size, sizes[p.1]? = some size ∧ p.2 + 8 ≤ size
  apart : slots.Pairwise fun p q => p.1 = q.1 → p.2 + 8 ≤ q.2 ∨ q.2 + 8 ≤ p.2

theorem mem_slotBytes {slot place : Nat × Nat} :
    place ∈ slotBytes slot ↔ place.1 = slot.1 ∧ slot.2 ≤ place.2 ∧ place.2 < slot.2 + 8 := by
  obtain ⟨segment, offset⟩ := place
  simp only [slotBytes, List.mem_map, List.mem_range, Prod.mk.injEq]
  constructor
  · rintro ⟨k, small, rfl, rfl⟩
    omega
  · rintro ⟨rfl, low, high⟩
    exact ⟨offset - slot.2, by omega, rfl, by omega⟩

theorem mem_segmentBytes {sizes : List Nat} {place : Nat × Nat} :
    place ∈ segmentBytes sizes ↔ ∃ size, sizes[place.1]? = some size ∧ place.2 < size := by
  obtain ⟨segment, offset⟩ := place
  simp only [segmentBytes, List.mem_flatMap, List.mem_map, List.mem_range, Prod.mk.injEq]
  constructor
  · rintro ⟨⟨size, k⟩, member, o, small, rfl, rfl⟩
    exact ⟨size, List.mem_zipIdx_iff_getElem?.1 member, small⟩
  · rintro ⟨size, found, small⟩
    exact ⟨(size, segment), List.mem_zipIdx_iff_getElem?.2 found, offset, small, rfl, rfl⟩

theorem length_segmentBytes (sizes : List Nat) : (segmentBytes sizes).length = sizes.sum := by
  simp [segmentBytes, List.length_flatMap]

theorem length_slotsBytes (slots : List (Nat × Nat)) :
    (slots.flatMap slotBytes).length = 8 * slots.length := by
  induction slots with
  | nil => rfl
  | cons p slots ih =>
    simp only [List.flatMap_cons, List.length_append, ih, List.length_cons]
    simp only [slotBytes, List.length_map, List.length_range]
    omega

section
variable {sizes : List Nat} {slots : List (Nat × Nat)} (fit : SlotsFit sizes slots)
include fit

theorem SlotsFit.nodup : (slots.flatMap slotBytes).Nodup := by
  rw [List.nodup_flatMap]
  constructor
  · intro p _
    rw [slotBytes]
    exact List.nodup_range.map fun k l same => by simpa using same
  · apply fit.apart.imp
    intro p q apart place first second
    rw [mem_slotBytes] at first second
    have separate := apart (first.1.symm.trans second.1)
    omega

theorem SlotsFit.subset : slots.flatMap slotBytes ⊆ segmentBytes sizes := by
  intro place member
  obtain ⟨p, slot, covered⟩ := List.mem_flatMap.1 member
  obtain ⟨size, found, inside⟩ := fit.inside p slot
  rw [mem_slotBytes] at covered
  rw [mem_segmentBytes, covered.1]
  exact ⟨size, found, by omega⟩

theorem SlotsFit.length_le : slots.length ≤ sizes.sum / 8 := by
  have bytes := fit.nodup.length_le_of_subset fit.subset
  rw [length_slotsBytes, length_segmentBytes] at bytes
  omega

end

namespace Image

def segmentSizes (i : Image) : List Nat := i.segments.map (·.vmSize)

theorem recordLimit_eq (i : Image) : i.recordLimit = i.segmentSizes.sum / 8 + 1 := by
  rw [recordLimit, segmentSizes, List.sum_eq_foldl, List.foldl_map]
  rfl

end Image

namespace Rebase

def slot (r : Rebase) : Nat × Nat := (r.segmentIndex, r.segmentOffset)

theorem ofStream_program (limit : Nat) {is : List Instruction} {tail : List UInt8} (base : Int)
    (program : ∀ x ∈ is, x ≠ .done ∧ x.Fits) (ends : EndsProgram tail) :
    HoldsUpTo limit (emitted start (is.flatMap Instruction.expand))
      (ofStream limit { bytes := (is.flatMap Instruction.encode ++ tail).toArray, base }) := by
  have capped : Capped limit State.view {} (is.flatMap Instruction.expand)
      (is.foldlM (State.step limit) {}) := Capped.run (step_capped limit) is {}
  rw [ofStream, (run_executes limit ends).program is program {} (Cursor.faces_start _ base)]
  exact capped.holdsUpTo rfl fun _ => rfl

end Rebase

namespace Binding

def slot (b : Binding) : Nat × Nat := (b.segmentIndex, b.segmentOffset)

theorem ofStream_program (limit : Nat) {isLazy : Bool} {is : List Instruction} {tail : List UInt8}
    (base : Int) (program : ∀ x ∈ is, (x = .done → isLazy = true) ∧ x.Fits)
    (ends : tail = [] ∨ isLazy = false ∧ EndsProgram tail) :
    HoldsUpTo limit (emitted start (is.flatMap Instruction.expand))
      (ofStream limit isLazy
        { bytes := (is.flatMap Instruction.encode ++ tail).toArray, base }) := by
  have capped : Capped limit State.view {} (is.flatMap Instruction.expand)
      (is.foldlM (State.step limit) {}) := Capped.run (step_capped limit) is {}
  rw [ofStream, (run_executes limit ends).program is program {} (Cursor.faces_start _ base)]
  exact capped.holdsUpTo rfl fun _ => rfl

end Binding

/-- A program whose records are slots that lie in their segments and do not overlap is never
refused: its stream holds all of them, so they pass no limit. No stream of any bytes holds more
records than there are places for slots, and one more. -/
theorem slots_within_limit (i : Image) :
    (∀ (is : List Rebase.Instruction) (tail : List UInt8) (base : Int),
      (∀ x ∈ is, x ≠ .done ∧ x.Fits) → EndsProgram tail →
      let records := emitted Rebase.start (is.flatMap Rebase.Instruction.expand)
      SlotsFit i.segmentSizes (records.map Rebase.slot) →
      Rebase.ofStream i.recordLimit
        { bytes := (is.flatMap Rebase.Instruction.encode ++ tail).toArray, base } = .ok records) ∧
    (∀ (is : List Binding.Instruction) (tail : List UInt8) (base : Int),
      (∀ x ∈ is, x.Fits) → EndsProgram tail →
      let records := emitted Binding.start (is.flatMap Binding.Instruction.expand)
      let written := is.flatMap Binding.Instruction.encode
      SlotsFit i.segmentSizes (records.map Binding.slot) →
      ((∀ x ∈ is, x ≠ .done) → Binding.ofStream i.recordLimit false
        { bytes := (written ++ tail).toArray, base } = .ok records) ∧
      Binding.ofStream i.recordLimit true { bytes := written.toArray, base } = .ok records) ∧
    ∀ r : Region,
      (∀ rs, Rebase.ofStream i.recordLimit r = .ok rs →
        rs.length ≤ i.segmentSizes.sum / 8 + 1) ∧
      ∀ isLazy bs, Binding.ofStream i.recordLimit isLazy r = .ok bs →
        bs.length ≤ i.segmentSizes.sum / 8 + 1 := by
  have room {slots : List (Nat × Nat)} (fit : SlotsFit i.segmentSizes slots) :
      slots.length ≤ i.recordLimit := by
    rw [i.recordLimit_eq]
    exact Nat.le_succ_of_le fit.length_le
  refine ⟨?_, ?_, fun r => ⟨?_, ?_⟩⟩
  · intro is tail base program ends records fit
    apply (Rebase.ofStream_program i.recordLimit base program ends).held
    simpa using room fit
  · intro is tail base fits ends records written fit
    have held := room fit
    rw [List.length_map] at held
    constructor
    · intro strict
      refine (Binding.ofStream_program i.recordLimit base ?_ (Or.inr ⟨rfl, ends⟩)).held held
      exact fun x member => ⟨fun ended => absurd ended (strict x member), fits x member⟩
    · have whole := (Binding.ofStream_program i.recordLimit base
        (fun x member => ⟨fun _ => rfl, fits x member⟩) (Or.inl rfl)).held held
      rwa [List.append_nil] at whole
  · intro rs listed
    have kept := Rebase.ofStream_kept i.recordLimit r
    rw [listed] at kept
    cases kept with
    | ok kept => exact i.recordLimit_eq ▸ kept.2
  · intro isLazy bs listed
    have kept := Binding.ofStream_kept i.recordLimit isLazy r
    rw [listed] at kept
    cases kept with
    | ok kept => exact i.recordLimit_eq ▸ kept.2

def Image.withSegments (sizes : List Nat) : Image :=
  let blank : SegmentCommand := Record.decode #[]
  { region := { bytes := #[] }, fileOffset := 0, header := ⟨Record.decode #[], 0⟩,
    commands := sizes.map fun n => .segment ⟨⟨{ blank with vmSize := n }, 0⟩, []⟩, symbols := [] }

def rebasedSlots : List Rebase.Instruction :=
  [.setSegment 0 1, .times 2, .setSegment 1 0, .onceAndSkip 5]

def boundSlots : List Binding.Instruction :=
  [.setSegment 0 1, .once, .done, .once, .setSegment 1 0, .once, .done]

theorem slots_within_limit_full :
    (∀ x ∈ rebasedSlots, x ≠ .done ∧ x.Fits) ∧ (∀ x ∈ boundSlots, x.Fits) ∧
    EndsProgram [0x00, 0xFF] ∧ SlotsFit (Image.withSegments [17, 8]).segmentSizes
      [(0, 1), (0, 9), (1, 0)] ∧
    Rebase.ofStream (Image.withSegments [17, 8]).recordLimit
      { bytes := (rebasedSlots.flatMap Rebase.Instruction.encode ++ [0x00, 0xFF]).toArray } =
        .ok [⟨0, 1, 1⟩, ⟨0, 9, 1⟩, ⟨1, 0, 1⟩] ∧
    Binding.ofStream (Image.withSegments [17, 8]).recordLimit true
      { bytes := (boundSlots.flatMap Binding.Instruction.encode).toArray } =
        .ok [⟨0, 1, 1, 0, 0, 0, ""⟩, ⟨0, 9, 1, 0, 0, 0, ""⟩, ⟨1, 0, 1, 0, 0, 0, ""⟩] ∧
    3 ≤ (Image.withSegments [17, 8]).segmentSizes.sum / 8 + 1 := by
  have rebased : ∀ x ∈ rebasedSlots, x ≠ .done ∧ x.Fits := by
    simp [rebasedSlots, Rebase.Instruction.Fits]
  have bound : ∀ x ∈ boundSlots, x.Fits := by simp [boundSlots, Binding.Instruction.Fits]
  have ends : EndsProgram [0x00, 0xFF] := Or.inr ⟨0, [0xFF], by decide, rfl⟩
  have fit : SlotsFit (Image.withSegments [17, 8]).segmentSizes [(0, 1), (0, 9), (1, 0)] := by
    constructor
    · simp [Image.withSegments, Image.segmentSizes, Image.segments_eq, LoadCommand.segment?, Segment.vmSize]
    · simp
  obtain ⟨rebases, bindings, bounds⟩ := slots_within_limit (Image.withSegments [17, 8])
  have read := rebases rebasedSlots [0x00, 0xFF] 0 rebased ends fit
  exact ⟨rebased, bound, ends, fit, read, (bindings boundSlots [0x00, 0xFF] 0 bound ends fit).2,
    (bounds _).1 _ read⟩

end MachImage
