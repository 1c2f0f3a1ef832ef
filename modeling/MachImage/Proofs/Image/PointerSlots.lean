import MachImage.Proofs.Image.Stretches
/-!
Sections of pointers. Their slots are read from where the section lies in the file, whatever kind of
section it is; every other read goes through the address. Where one section and one segment cover a
slot, both give the same pointer if the section has contents. The slots of a section without
contents are read as well, but their addresses lead nowhere.
-/
namespace MachImage
open Record

structure IsOnly {α : Type} (p : α → Prop) (as : List α) (a : α) : Prop where
  member : a ∈ as
  meets : p a
  only : ∀ b ∈ as, p b → b = a

theorem IsOnly.isFirst {α : Type} {p : α → Prop} {as : List α} {a : α} (one : IsOnly p as a) :
    IsFirst p as a := by
  classical
  have same : ∀ b, decide (p b) = true ↔ p b := fun b => decide_eq_true_iff
  cases found : as.find? (fun b => decide (p b)) with
  | none => exact absurd (decide_eq_true one.meets) (List.find?_eq_none.1 found a one.member)
  | some b =>
    have first := (find?_eq_some_iff_isFirst same).1 found
    obtain rfl := one.only b (List.mem_of_find?_eq_some found) first.meets
    exact first

theorem IsOnly.mono {α : Type} {p : α → Prop} {as bs : List α} {a : α} (one : IsOnly p as a)
    (member : a ∈ bs) (subset : bs ⊆ as) : IsOnly p bs a :=
  ⟨member, one.meets, fun b among => one.only b (subset among)⟩

namespace Image

theorem pointers_extract {bs : Array UInt8} {start size : Nat} (inside : start + size ≤ bs.size) :
    pointers (bs.extract start (start + size)) =
      (List.range (size / 8)).map fun k => u64 bs (start + 8 * k) := by
  have length : (bs.extract start (start + size)).size = size := by
    simp only [Array.size_extract]
    omega
  rw [pointers, length]
  apply List.map_congr_left
  intro k member
  have below := List.mem_range.1 member
  exact u64_extract (by omega)

section
variable {i : Image} {name : String} {s : Segment} {t : Section} {a : Int} {o : Nat}

theorem pointerSection_of_le (found : i.dataSection? name = some t)
    (inside : t.fileOffset + t.size ≤ i.region.size) :
    i.pointerSection name = .ok ((List.range (t.size / 8)).map fun k =>
      (t.address + 8 * k, u64 i.region.bytes (t.fileOffset + 8 * k))) := by
  rw [pointerSection, found]
  dsimp only
  rw [read_of_le inside, ok_bind, pointers_extract inside]
  change Except.ok (List.mapIdx _ _) = _
  rw [Except.ok.injEq]
  apply List.ext_getElem
  · simp
  · intro k _ _
    simp

theorem pointerSection_of_lt (found : i.dataSection? name = some t)
    (outside : i.region.size < t.fileOffset + t.size) :
    i.pointerSection name = .error (.outOfBounds t.fileOffset t.size i.region.size) := by
  rw [pointerSection, found]
  dsimp only
  rw [read_of_lt outside]
  rfl

theorem pointerSection_of_none (missing : i.dataSection? name = none) :
    i.pointerSection name = .ok [] := by
  rw [pointerSection, missing]

theorem mem_of_dataSection? (found : i.dataSection? name = some t) : t ∈ i.sections := by
  obtain ⟨segment, -, named⟩ := List.exists_of_findSome?_eq_some found
  obtain ⟨s, among, member⟩ := Option.bind_eq_some_iff.1 named
  exact i.mem_sections_iff.2
    ⟨s, List.mem_of_find?_eq_some among, List.mem_of_find?_eq_some member⟩

theorem mem_pointerSection {slots : List (Nat × Nat)} (read : i.pointerSection name = .ok slots)
    {slot p : Nat} (held : (slot, p) ∈ slots) : ∃ t k, t ∈ i.sections ∧
      t.fileOffset + t.size ≤ i.region.size ∧ k < t.size / 8 ∧ slot = t.address + 8 * k ∧
      p = u64 i.region.bytes (t.fileOffset + 8 * k) := by
  cases found : i.dataSection? name with
  | none =>
    rw [pointerSection_of_none found] at read
    cases read
    cases held
  | some t =>
    by_cases inside : t.fileOffset + t.size ≤ i.region.size
    · rw [pointerSection_of_le found inside, Except.ok.injEq] at read
      subst read
      obtain ⟨k, below, same⟩ := List.mem_map.1 held
      obtain ⟨rfl, rfl⟩ := Prod.mk.inj same
      exact ⟨t, k, mem_of_dataSection? found, inside, List.mem_range.1 below, rfl, rfl⟩
    · rw [pointerSection_of_lt found (Nat.lt_of_not_le inside)] at read
      cases read

theorem pointerAt_of_le (found : i.offsetOf a = .ok o) (inside : o + 8 ≤ i.region.size) :
    i.pointerAt a = .ok (u64 i.region.bytes o) := by
  have word : i.region.word o .u64 = .ok (u64 i.region.bytes o : Int) := by
    have read := @read_of_le i.region o 8 inside
    rw [Region.word]
    exact congrArg (Except.map _) read
  rw [pointerAt, wordAt, found, ok_bind, word]
  rfl

theorem offsetOf_of_only (base : i.virtualBase ≤ a)
    (around : IsOnly (fun s => Within s.address s.vmSize a) i.segments s)
    (inside : IsOnly (fun t => Within t.address t.size a) i.sections t) (member : t ∈ s.sections) :
    i.offsetOf a = if t.isZeroFill then .error (.unmapped a)
      else .ok (t.fileOffset + (a - t.address)) := by
  have own : s.sections ⊆ i.sections := fun u among =>
    i.mem_sections_iff.2 ⟨s, around.member, among⟩
  have first := (inside.mono member own).isFirst
  have found := (find?_eq_some_iff_isFirst (Section.covers_iff · a)).2 first
  rw [offsetOf_of_around base around.isFirst, offsetIn, found]

end

/-- A slot of a section of pointers, read at its address. If one section and one segment cover the
slot, the section as part of the segment, the address gives the pointer of the slot exactly if the
section has contents; otherwise it is not mapped. -/
theorem pointerAt_of_slot {i : Image} {name : String} {slots : List (Nat × Nat)}
    (read : i.pointerSection name = .ok slots) {slot p : Nat} (held : (slot, p) ∈ slots)
    (base : i.virtualBase ≤ slot) {s : Segment} {t : Section}
    (around : IsOnly (fun s => Within s.address s.vmSize slot) i.segments s)
    (inside : IsOnly (fun t => Within t.address t.size slot) i.sections t)
    (member : t ∈ s.sections) :
    i.pointerAt slot = if t.isZeroFill then .error (.unmapped slot) else .ok p := by
  obtain ⟨u, k, among, fits, below, rfl, rfl⟩ := mem_pointerSection read held
  have covered : Within u.address u.size (u.address + 8 * k : Nat) := by
    rw [Within]
    omega
  obtain rfl := inside.only u among covered
  have found := offsetOf_of_only (Int.ofNat_le.2 base) around inside member
  cases filled : u.isZeroFill with
  | true =>
    rw [filled] at found
    rw [pointerAt, wordAt, found]
    rfl
  | false =>
    have place : i.offsetOf (u.address + 8 * k : Nat) = .ok (u.fileOffset + 8 * k : Nat) := by
      rw [found, filled, if_neg Bool.false_ne_true, Except.ok.injEq]
      omega
    rw [pointerAt_of_le place (by omega)]
    rfl

theorem isOnly_singleton {α : Type} {p : α → Prop} {a : α} (meets : p a) : IsOnly p [a] a :=
  ⟨List.mem_singleton_self a, meets, fun _ among _ => List.mem_singleton.1 among⟩

def slotSection (flags : Nat) : Section where
  header := ⟨{ (Record.decode #[] : SectionHeader) with
    name := "__objc_selrefs".toUTF8.toList, address := 0x100001000, size := 8, flags }, 104⟩
  owner := ⟨{ (Record.decode #[] : SegmentCommand) with
    name := "__DATA".toUTF8.toList, vmAddress := 0x100001000, vmSize := 0x1000 }, 32⟩

def slotSegment (flags : Nat) : Segment := ⟨(slotSection flags).owner, [slotSection flags]⟩

def oneSlot (flags : Nat) : Image where
  region := { bytes := #[7, 0, 0, 0, 0, 0, 0, 0] }
  fileOffset := 0
  header := ⟨Record.decode #[], 0⟩
  commands := [.segment (slotSegment flags)]
  symbols := []

theorem oneSlot_segments (flags : Nat) : (oneSlot flags).segments = [slotSegment flags] :=
  (oneSlot flags).segments_eq

theorem oneSlot_sections (flags : Nat) : (oneSlot flags).sections = [slotSection flags] := by
  rw [sections_eq, oneSlot_segments]
  rfl

theorem oneSlot_around (flags : Nat) :
    IsOnly (fun s => Within s.address s.vmSize 0x100001000) (oneSlot flags).segments
      (slotSegment flags) := by
  rw [oneSlot_segments]
  have range : (0x100001000 : Int) < (0x100001000 + 0x1000 : Nat) := by decide
  exact isOnly_singleton ⟨Int.le_refl _, range⟩

theorem oneSlot_inside (flags : Nat) :
    IsOnly (fun t => Within t.address t.size 0x100001000) (oneSlot flags).sections
      (slotSection flags) := by
  rw [oneSlot_sections]
  have range : (0x100001000 : Int) < (0x100001000 + 8 : Nat) := by decide
  exact isOnly_singleton ⟨Int.le_refl _, range⟩

theorem pointerAt_of_slot_single :
    ((oneSlot 0).pointerSection "__objc_selrefs" = .ok [(0x100001000, 7)] ∧
      (oneSlot 0).pointerAt 0x100001000 = .ok 7) ∧
    (oneSlot 1).pointerSection "__objc_selrefs" = .ok [(0x100001000, 7)] ∧
      (oneSlot 1).pointerAt 0x100001000 = .error (.unmapped 0x100001000) := by
  have slot (flags : Nat)
      (read : (oneSlot flags).pointerSection "__objc_selrefs" = .ok [(0x100001000, 7)])
      (base : (oneSlot flags).virtualBase ≤ 0x100001000) :=
    pointerAt_of_slot read List.mem_cons_self base (oneSlot_around flags) (oneSlot_inside flags)
      List.mem_cons_self
  have contents : (oneSlot 0).pointerSection "__objc_selrefs" = .ok [(0x100001000, 7)] :=
    of_toOption_some (by decide +kernel)
  have none : (oneSlot 1).pointerSection "__objc_selrefs" = .ok [(0x100001000, 7)] :=
    of_toOption_some (by decide +kernel)
  exact ⟨⟨contents, slot 0 contents (by decide +kernel)⟩, none, slot 1 none (by decide +kernel)⟩

def emptySlot : Region := { bytes :=
  #[0xCF, 0xFA, 0xED, 0xFE, 0xC, 0, 0, 1, 0, 0, 0, 0, 2, 0, 0, 0, 1, 0, 0, 0, 0x98, 0, 0, 0, 0,
    0, 0, 0, 0, 0, 0, 0, 0x19, 0, 0, 0, 0x98, 0, 0, 0, 0x5F, 0x5F, 0x44, 0x41, 0x54, 0x41, 0, 0,
    0, 0, 0, 0, 0, 0, 0, 0, 0, 0x10, 0, 0, 1, 0, 0, 0, 0, 0x10, 0, 0, 0, 0, 0, 0, 0, 0, 0, 0, 0,
    0, 0, 0, 0, 0, 0, 0, 0, 0, 0, 0, 0, 0, 0, 0, 0, 0, 0, 0, 1, 0, 0, 0, 0, 0, 0, 0, 0x5F, 0x5F,
    0x6F, 0x62, 0x6A, 0x63, 0x5F, 0x73, 0x65, 0x6C, 0x72, 0x65, 0x66, 0x73, 0, 0, 0x5F, 0x5F,
    0x44, 0x41, 0x54, 0x41, 0, 0, 0, 0, 0, 0, 0, 0, 0, 0, 0, 0x10, 0, 0, 1, 0, 0, 0, 8, 0, 0, 0,
    0, 0, 0, 0, 0, 0, 0, 0, 0, 0, 0, 0, 0, 0, 0, 0, 0, 0, 0, 0, 1, 0, 0, 0, 0, 0, 0, 0, 0, 0, 0,
    0, 0, 0, 0, 0] }

theorem slot_without_contents : ∃ i s t, parse emptySlot 0 = .ok i ∧
    i.pointerSection "__objc_selrefs" = .ok [(0x100001000, 0x0100000CFEEDFACF)] ∧
    i.virtualBase ≤ 0x100001000 ∧
    IsOnly (fun s => Within s.address s.vmSize 0x100001000) i.segments s ∧
    IsOnly (fun t => Within t.address t.size 0x100001000) i.sections t ∧ t ∈ s.sections ∧
    i.pointerAt 0x100001000 = .error (.unmapped 0x100001000) := by
  have answer : (parse emptySlot 0).toOption.any fun i => decide (
      (i.pointerSection "__objc_selrefs").toOption =
        some [(0x100001000, 0x0100000CFEEDFACF)] ∧
      i.virtualBase = 0x100000000 ∧
      (i.segments.map fun s => (s.address, s.vmSize)) = [(0x100001000, 0x1000)] ∧
      (i.sections.map fun t => (t.address, t.size, t.isZeroFill)) = [(0x100001000, 8, true)]) := by
    decide +kernel
  obtain ⟨i, parsed, answer⟩ := (Option.any_eq_true _ _).1 answer
  obtain ⟨read, base, segments, sections⟩ := of_decide_eq_true answer
  obtain ⟨s, alone, range⟩ := List.map_eq_singleton_iff.1 segments
  obtain ⟨t, single, place⟩ := List.map_eq_singleton_iff.1 sections
  obtain ⟨start, size⟩ := Prod.mk.inj range
  obtain ⟨first, rest⟩ := Prod.mk.inj place
  obtain ⟨length, empty⟩ := Prod.mk.inj rest
  have around : IsOnly (fun s => Within s.address s.vmSize 0x100001000) i.segments s := by
    rw [alone]
    exact isOnly_singleton (by rw [start, size, Within]; omega)
  have inside : IsOnly (fun t => Within t.address t.size 0x100001000) i.sections t := by
    rw [single]
    exact isOnly_singleton (by rw [first, length, Within]; omega)
  have member : t ∈ s.sections := by
    have among := inside.member
    rwa [Image.sections_eq, alone, List.flatMap_singleton] at among
  have found := offsetOf_of_only (by rw [base]; omega) around inside member
  rw [empty] at found
  refine ⟨i, s, t, of_toOption_some parsed, of_toOption_some read, by rw [base]; omega, around,
    inside, member, ?_⟩
  rw [pointerAt, wordAt, found]
  rfl

end Image
end MachImage
