import MachImage.Image.Memory
import MachImage.Proofs.Image.Bounds
/-!
Where addresses lead. A stretch of memory that lies in the file without a gap is a section, or what
the file holds of a segment. An address resolves through a stretch of the first segment around it,
and leads as far into the stretch as it lies behind its beginning. Nothing makes a stretch end with
the slice, so an offset may lie behind the slice; a read there is refused.
-/
namespace MachImage

structure IsFirst {α : Type} (p : α → Prop) (as : List α) (a : α) : Prop where
  meets : p a
  split : ∃ before after, as = before ++ a :: after ∧ ∀ b ∈ before, ¬ p b

theorem find?_eq_some_iff_isFirst {α : Type} {p : α → Prop} {q : α → Bool} {as : List α} {a : α}
    (same : ∀ b, q b = true ↔ p b) : as.find? q = some a ↔ IsFirst p as a := by
  simp only [List.find?_eq_some_iff_append, Bool.not_eq_true', ← Bool.not_eq_true, same]
  constructor
  · rintro ⟨meets, before, after, split, earlier⟩
    exact ⟨meets, before, after, split, earlier⟩
  · rintro ⟨meets, before, after, split, earlier⟩
    exact ⟨meets, before, after, split, earlier⟩

def Within (start size : Nat) (a : Int) : Prop := start ≤ a ∧ a < start + size

theorem Segment.covers_iff (s : Segment) (a : Int) :
    s.covers a = true ↔ Within s.address s.vmSize a := by
  rw [covers, Bool.and_eq_true, decide_eq_true_iff, decide_eq_true_iff, endAddress,
    Int.natCast_add, Within]

theorem Section.covers_iff (s : Section) (a : Int) :
    s.covers a = true ↔ Within s.address s.size a := by
  rw [covers, Bool.and_eq_true, decide_eq_true_iff, decide_eq_true_iff, endAddress,
    Int.natCast_add, Within]

theorem WordType.size_pos (type : WordType) : 0 < type.size := by
  cases type <;> decide

structure Stretch where
  address : Nat
  length : Nat
  fileOffset : Nat

namespace Image

/-- The stretch that leads an address to the file. A section without contents leads nowhere, also
where the segment or a later section would. -/
inductive Resolves (i : Image) (a : Int) : Stretch → Prop
  | bySection {s : Segment} {t : Section} (base : i.virtualBase ≤ a)
      (around : IsFirst (fun s => Within s.address s.vmSize a) i.segments s)
      (inside : IsFirst (fun t => Within t.address t.size a) s.sections t)
      (filled : t.isZeroFill = false) : Resolves i a ⟨t.address, t.size, t.fileOffset⟩
  | bySegment {s : Segment} (base : i.virtualBase ≤ a)
      (around : IsFirst (fun s => Within s.address s.vmSize a) i.segments s)
      (between : ∀ t ∈ s.sections, ¬ Within t.address t.size a)
      (held : a - s.address < s.fileSize) : Resolves i a ⟨s.address, s.fileSize, s.fileOffset⟩

section
variable {i : Image} {a : Int}

theorem offsetOf_of_around {s : Segment} (base : i.virtualBase ≤ a)
    (around : IsFirst (fun s => Within s.address s.vmSize a) i.segments s) :
    i.offsetOf a = offsetIn s a := by
  have found := (find?_eq_some_iff_isFirst (Segment.covers_iff · a)).2 around
  rw [offsetOf_eq, if_neg (by omega), found]

theorem offsetOf_of_resolves {t : Stretch} (h : Resolves i a t) :
    i.offsetOf a = .ok (t.fileOffset + (a - t.address)) := by
  cases h with
  | bySection base around inside filled =>
    have found := (find?_eq_some_iff_isFirst (Section.covers_iff · a)).2 inside
    rw [offsetOf_of_around base around, offsetIn, found]
    simp [filled]
  | @bySegment s base around between held =>
    have none : s.sections.find? (·.covers a) = Option.none := by
      rw [List.find?_eq_none]
      exact fun t member covered => between t member ((t.covers_iff a).1 covered)
    rw [offsetOf_of_around base around, offsetIn, none]
    simp [held]

theorem offsetIn_cases {s : Segment} (base : i.virtualBase ≤ a)
    (around : IsFirst (fun s => Within s.address s.vmSize a) i.segments s) :
    (∃ t, Resolves i a t) ∨ offsetIn s a = .error (.unmapped a) := by
  rw [offsetIn]
  split
  · next t found =>
    have inside := (find?_eq_some_iff_isFirst (Section.covers_iff · a)).1 found
    cases filled : t.isZeroFill with
    | true => exact .inr rfl
    | false => exact .inl ⟨_, .bySection base around inside filled⟩
  · next none =>
    have between : ∀ t ∈ s.sections, ¬ Within t.address t.size a := fun t member around =>
      List.find?_eq_none.1 none t member ((t.covers_iff a).2 around)
    by_cases held : a - s.address < s.fileSize
    · exact .inl ⟨_, .bySegment base around between held⟩
    · exact .inr (if_neg held)

theorem offsetOf_cases (i : Image) (a : Int) :
    (∃ t, Resolves i a t) ∨ i.offsetOf a = .error (.unmapped a) := by
  by_cases low : a < i.virtualBase
  · exact .inr (if_pos low)
  · have base : i.virtualBase ≤ a := by omega
    cases found : i.segments.find? (·.covers a) with
    | none =>
      rw [offsetOf_eq, if_neg low, found]
      exact .inr rfl
    | some s =>
      have around := (find?_eq_some_iff_isFirst (Segment.covers_iff · a)).1 found
      rw [offsetOf_of_around base around]
      exact offsetIn_cases base around

theorem offsetOf_eq_ok_iff {o : Int} :
    i.offsetOf a = .ok o ↔ ∃ t, Resolves i a t ∧ o = t.fileOffset + (a - t.address) := by
  constructor
  · intro found
    rcases offsetOf_cases i a with ⟨t, h⟩ | failed
    · rw [offsetOf_of_resolves h] at found
      cases found
      exact ⟨t, h, rfl⟩
    · rw [failed] at found
      cases found
  · rintro ⟨t, h, rfl⟩
    exact offsetOf_of_resolves h

theorem Resolves.within {t : Stretch} (h : Resolves i a t) : Within t.address t.length a := by
  cases h with
  | bySection _ _ inside _ => exact inside.meets
  | @bySegment s _ around _ held =>
    have inside := around.meets
    exact ⟨inside.1, by dsimp only; omega⟩

end

/-- An address has an offset exactly if it resolves through a stretch, and then the two lie equally
far behind the beginning of the stretch. Any other address is reported as the one without an
offset. Along a stretch, offsets differ as the addresses do. -/
theorem offsetOf_along_stretch (i : Image) (a : Int) :
    (∀ o, i.offsetOf a = .ok o ↔ ∃ t, Resolves i a t ∧ o = t.fileOffset + (a - t.address)) ∧
    (i.offsetOf a = .error (.unmapped a) ↔ ¬ ∃ t, Resolves i a t) ∧
    (∀ b t, Resolves i a t → Resolves i b t →
      ∃ o p, i.offsetOf a = .ok o ∧ i.offsetOf b = .ok p ∧ p - o = b - a) := by
  refine ⟨fun o => offsetOf_eq_ok_iff, ?_, ?_⟩
  · constructor
    · rintro failed ⟨t, h⟩
      rw [offsetOf_of_resolves h] at failed
      cases failed
    · intro none
      exact (offsetOf_cases i a).resolve_left none
  · intro b t first second
    exact ⟨_, _, offsetOf_of_resolves first, offsetOf_of_resolves second, by omega⟩

def overlaid (size : Nat) : Image :=
  let segment (fileOffset : Nat) : SegmentCommand := { (Record.decode #[] : SegmentCommand) with
    name := "__TEXT".toUTF8.toList, vmAddress := 0x1000, vmSize := 0x100, fileOffset,
    fileSize := 0x100 }
  let header (address fileOffset flags : Nat) : SectionHeader :=
    { (Record.decode #[] : SectionHeader) with address, size := 0x20, fileOffset, flags }
  let first : Placed SegmentCommand := ⟨segment 0, 32⟩
  { region := { bytes := Array.replicate size 0 }, fileOffset := 0,
    header := ⟨Record.decode #[], 0⟩,
    commands := [
      .segment ⟨first, [⟨⟨header 0x1000 0 1, 104⟩, first⟩, ⟨⟨header 0x1010 0x50 0, 184⟩, first⟩]⟩,
      .segment ⟨⟨segment 0x400, 264⟩, []⟩],
    symbols := [] }

theorem resolves_overlaid {size : Nat} {a : Int} (high : 0x1020 ≤ a) (low : a < 0x1030) :
    Resolves (overlaid size) a ⟨0x1010, 0x20, 0x50⟩ := by
  have start : (overlaid size).virtualBase = (overlaid 0).virtualBase := rfl
  have first : (overlaid 0).virtualBase = 0x1000 := by decide +kernel
  have base : ((overlaid size).virtualBase : Int) ≤ a := by
    rw [start, first]
    omega
  refine .bySection base ⟨?_, [], _, rfl, by simp⟩ ⟨?_, [_], [], rfl, ?_⟩ rfl
  · constructor <;> dsimp only [Segment.address, Segment.vmSize] <;> omega
  · constructor <;> dsimp only [Section.address, Section.size] <;> omega
  · intro t member around
    rw [List.mem_singleton.1 member, Within] at around
    dsimp only [Section.address, Section.size] at around
    omega

theorem offsetOf_along_stretch_overlaid :
    (overlaid 0).offsetOf 0x1018 = .error (.unmapped 0x1018) ∧
    ∃ o p, (overlaid 0).offsetOf 0x1020 = .ok o ∧ (overlaid 0).offsetOf 0x1028 = .ok p ∧
      p - o = 8 := by
  obtain ⟨-, failed, -⟩ := offsetOf_along_stretch (overlaid 0) 0x1018
  obtain ⟨-, -, along⟩ := offsetOf_along_stretch (overlaid 0) 0x1020
  have refused : ((overlaid 0).offsetOf 0x1018).toOption = none := by decide +kernel
  refine ⟨failed.2 ?_, along 0x1028 ⟨0x1010, 0x20, 0x50⟩ ?_ ?_⟩
  · rintro ⟨t, h⟩
    rw [offsetOf_of_resolves h] at refused
    cases refused
  · exact resolves_overlaid (by decide) (by decide)
  · exact resolves_overlaid (by decide) (by decide)

section
variable {i : Image} {a o : Int}

theorem offsetOf_nonneg (found : i.offsetOf a = .ok o) : 0 ≤ o := by
  obtain ⟨t, h, rfl⟩ := offsetOf_eq_ok_iff.1 found
  have behind := h.within.1
  omega

theorem read_of_outside (found : i.offsetOf a = .ok o) (outside : i.region.size ≤ o) {size : Nat}
    (some : 0 < size) : i.region.read o size = .error (.outOfBounds o size i.region.size) := by
  obtain ⟨n, rfl⟩ := Int.eq_ofNat_of_zero_le (offsetOf_nonneg found)
  exact read_of_lt (by omega)

theorem cstringBytes_of_outside (found : i.offsetOf a = .ok o) (outside : i.region.size ≤ o) :
    i.region.cstringBytes o = .error (.outOfBounds o 1 i.region.size) := by
  obtain ⟨n, rfl⟩ := Int.eq_ofNat_of_zero_le (offsetOf_nonneg found)
  rw [Region.cstringBytes, if_neg]
  rw [Region.contains_iff]
  omega

/-- Every stretch that an address can resolve through ends with the slice at the latest. -/
def HoldsStretches (i : Image) : Prop :=
  ∀ s ∈ i.segments, s.fileOffset + s.fileSize ≤ i.region.size ∧
    ∀ t ∈ s.sections, t.isZeroFill = false → t.fileOffset + t.size ≤ i.region.size

theorem Resolves.fileEnd_le {t : Stretch} (h : Resolves i a t) (holds : i.HoldsStretches) :
    t.fileOffset + t.length ≤ i.region.size := by
  cases h with
  | @bySection s t base around inside filled =>
    obtain ⟨before, after, segments, -⟩ := around.split
    obtain ⟨first, last, sections, -⟩ := inside.split
    refine (holds s ?_).2 t ?_ filled
    · simp [segments]
    · simp [sections]
  | @bySegment s base around between held =>
    obtain ⟨before, after, segments, -⟩ := around.split
    refine (holds s ?_).1
    simp [segments]

end

/-- Offsets keep to the part of the file that their stretch names, and none is negative. An offset
lies in the slice exactly if its address belongs to what the slice holds of the stretch; so all do
in an image whose slice holds every stretch. Through any other offset nothing can be read. -/
theorem offsetOf_inside_iff (i : Image) :
    (∀ a o t, i.offsetOf a = .ok o → Resolves i a t →
      0 ≤ o ∧ t.fileOffset ≤ o ∧ o < t.fileOffset + t.length ∧
      (o < i.region.size ↔ a < t.address + (i.region.size - t.fileOffset))) ∧
    (i.HoldsStretches → ∀ a o, i.offsetOf a = .ok o → 0 ≤ o ∧ o < i.region.size) ∧
    (∀ a o, i.offsetOf a = .ok o → i.region.size ≤ o →
      (∀ type : WordType,
        i.wordAt a type = .error (.outOfBounds o type.size i.region.size)) ∧
      (∀ (α : Type) [Record α], 0 < Record.size α →
        i.recordAt α a = .error (.outOfBounds o (Record.size α) i.region.size)) ∧
      i.stringAt a = .error (.outOfBounds o 1 i.region.size)) := by
  refine ⟨?_, ?_, ?_⟩
  · intro a o t found h
    have start := offsetOf_nonneg found
    rw [offsetOf_of_resolves h, Except.ok.injEq] at found
    have inside := h.within
    rw [Within] at inside
    omega
  · intro holds a o found
    have start := offsetOf_nonneg found
    obtain ⟨t, h, rfl⟩ := offsetOf_eq_ok_iff.1 found
    have inside := h.within.2
    have slice := h.fileEnd_le holds
    omega
  · intro a o found outside
    refine ⟨fun type => ?_, fun α _ some => ?_, ?_⟩
    · rw [wordAt, found, ok_bind, Region.word, read_of_outside found outside type.size_pos]
      rfl
    · rw [recordAt, found, ok_bind, Region.record, read_of_outside found outside some]
      rfl
    · rw [stringAt, found, ok_bind, Region.cstring, cstringBytes_of_outside found outside]
      rfl

theorem offsetOf_inside_iff_overlaid :
    ((overlaid 0x68).offsetOf 0x1020 = .ok 0x60 ∧
      (overlaid 0x68).offsetOf 0x1028 = .ok 0x68 ∧
      (overlaid 0x68).wordAt 0x1028 .u8 = .error (.outOfBounds 0x68 1 0x68)) ∧
    (overlaid 0x500).HoldsStretches ∧ (0x68 : Int) < (overlaid 0x500).region.size := by
  have found (size : Nat) : (overlaid size).offsetOf 0x1028 = .ok 0x68 :=
    offsetOf_of_resolves (resolves_overlaid (by decide) (by decide))
  obtain ⟨-, -, refused⟩ := offsetOf_inside_iff (overlaid 0x68)
  obtain ⟨-, inside, -⟩ := offsetOf_inside_iff (overlaid 0x500)
  have size (n : Nat) : (overlaid n).region.size = n := Array.size_replicate
  rw [size] at refused
  have holds : (overlaid 0x500).HoldsStretches := by
    rw [HoldsStretches, size]
    intro s member
    rcases List.mem_cons.1 member with rfl | later
    · refine ⟨by decide, fun t among filled => ?_⟩
      rcases List.mem_cons.1 among with rfl | last
      · cases filled
      · rw [List.mem_singleton.1 last]
        decide
    · rw [List.mem_singleton.1 later]
      exact ⟨by decide, fun t among => nomatch among⟩
  refine ⟨⟨?_, found 0x68, ?_⟩, holds, (inside holds 0x1028 0x68 (found 0x500)).2⟩
  · exact offsetOf_of_resolves (resolves_overlaid (by decide) (by decide))
  · exact (refused 0x1028 0x68 (found 0x68) (by decide)).1 .u8

def overlong : Region := { bytes :=
  #[0xCF, 0xFA, 0xED, 0xFE, 12, 0, 0, 1, 0, 0, 0, 0, 2, 0, 0, 0,
    1, 0, 0, 0, 72, 0, 0, 0, 0, 0, 0, 0, 0, 0, 0, 0,
    0x19, 0, 0, 0, 72, 0, 0, 0, 0x5F, 0x5F, 0x54, 0x45, 0x58, 0x54, 0, 0, 0, 0, 0, 0,
    0, 0, 0, 0, 0, 0, 0, 0, 1, 0, 0, 0, 0, 0x20, 0, 0, 0, 0, 0, 0,
    0, 0, 0, 0, 0, 0, 0, 0, 0, 0x20, 0, 0, 0, 0, 0, 0, 0, 0, 0, 0, 0, 0, 0, 0,
    0, 0, 0, 0, 0, 0, 0, 0] }

/-- An image is accepted although its addresses lead behind the slice. -/
theorem offset_behind_slice : ∃ i, parse overlong 0 = .ok i ∧ i.region.size = 104 ∧
    i.offsetOf 0x100001000 = .ok 0x1000 := by
  have answer : ((parse overlong 0).toOption.map fun i =>
      (i.region.size, (i.offsetOf 0x100001000).toOption)) = some (104, some 0x1000) := by
    decide +kernel
  obtain ⟨i, parsed, same⟩ := Option.map_eq_some_iff.1 answer
  obtain ⟨size, offset⟩ := Prod.mk.inj same
  exact ⟨i, of_toOption_some parsed, size, of_toOption_some offset⟩

end Image
end MachImage
