import MachImage.Proofs.Container.Validity
import MachImage.Proofs.Shift.Agreement
/-!
A slice in an archive. Parsing the archive comes to the same as parsing a file that holds the slice
alone: either both are refused, and for the same kind of reason, or the images agree in all that can
be asked of them. Of the archive, only the table and the slice have a part in that.
-/
namespace MachImage
open Record

/-- How parsing ends for a slice on its own, and for the slice at `o` in an archive. -/
inductive SameOutcome (o : Nat) : Except Fault Image → Except Fault Image → Prop
  | parsed {i j : Image} : i.fileOffset = 0 → j.fileOffset = o → Agreement o i j →
      SameOutcome o (.ok i) (.ok j)
  | otherFormat (c d : FormatFault) :
      SameOutcome o (.error (.format c)) (.error (.format d))
  | corrupt (c : CorruptFault) : SameOutcome o (.error (.corrupt c)) (.error (.corrupt c))

theorem parse_sameOutcome (bs : Array UInt8) (o : Nat) :
    SameOutcome o (Image.parse { bytes := bs } 0)
      (Image.parse { bytes := bs, base := 0 + o } o) := by
  have moved := Image.parse_shift o { bytes := bs } 0
  rw [Nat.zero_add] at moved
  have classified := parse_classified { bytes := bs } 0
  rw [show ({ bytes := bs, base := 0 + o } : Region) = Region.shift o { bytes := bs } from rfl,
    moved]
  by_cases valid : ValidSlice bs
  · obtain ⟨i, run⟩ := classified.accepted valid
    rw [run]
    have start := (parse_parts run).2.1
    exact .parsed start ((congrArg (· + o) start).trans (Nat.zero_add o)) (agreement_shift o i)
  · by_cases foreign : WrongMagic bs
    · obtain ⟨c, run⟩ := classified.otherFormat foreign
      rw [run]
      exact .otherFormat c c
    · obtain ⟨c, run⟩ := classified.refused valid foreign
      rw [run]
      exact .corrupt c

def tableEnd (bs : Array UInt8) : Nat := 8 + 20 * archCount bs

section
variable {bs other : Array UInt8} {stop : Nat} (same : other.extract 0 stop = bs.extract 0 stop)
include same

theorem extract_of_same {start n : Nat} (inside : start + n ≤ stop) :
    other.extract start (start + n) = bs.extract start (start + n) := by
  have cut (xs : Array UInt8) :
      (xs.extract 0 stop).extract start (start + n) = xs.extract start (start + n) := by
    rw [Array.extract_extract, Nat.zero_add, Nat.zero_add, Nat.min_eq_left inside]
  rw [← cut other, same, cut bs]

theorem magic_of_same (long : 4 ≤ stop) : u32 other 0 = u32 bs 0 := by
  unfold u32 unsignedAt
  rw [extract_of_same same (by omega)]

theorem tableWord_of_same (long : 4 ≤ stop) {offset : Nat} (inside : offset + 4 ≤ stop) :
    tableWord other offset = tableWord bs offset := by
  rw [tableWord, magic_of_same same long, extract_of_same same inside]
  rfl

theorem le_size_of_same (inside : stop ≤ bs.size) : stop ≤ other.size := by
  have size := congrArg Array.size same
  rw [Array.size_extract, Array.size_extract] at size
  omega

end

section
variable {bs other : Array UInt8}
  (same : other.extract 0 (tableEnd bs) = bs.extract 0 (tableEnd bs))
include same

theorem archCount_of_same : archCount other = archCount bs :=
  tableWord_of_same same (by unfold tableEnd; omega) (by unfold tableEnd; omega)

theorem archWord_of_same {k field : Nat} (announced : k < archCount bs) (within : field + 4 ≤ 20) :
    tableWord other (8 + 20 * k + field) = tableWord bs (8 + 20 * k + field) := by
  apply tableWord_of_same same
  · unfold tableEnd
    omega
  · unfold tableEnd
    omega

theorem selected_of_same (cpuType : Int) : selected other cpuType = selected bs cpuType := by
  have matching : ∀ k ∈ List.range (archCount bs),
      decide ((tableWord other (8 + 20 * k) : Int) = cpuType) =
        decide ((tableWord bs (8 + 20 * k) : Int) = cpuType) := by
    intro k member
    have word := archWord_of_same same (List.mem_range.1 member) (by decide : 0 + 4 ≤ 20)
    rw [Nat.add_zero] at word
    rw [word]
  rw [selected, selected, archCount_of_same same, ← List.head?_filter, ← List.head?_filter,
    List.filter_congr matching]

variable (table : ValidTable bs)
include table

theorem isArchive_of_same (archive : IsArchive bs) : IsArchive other := by
  have long := le_size_of_same same table.inside
  unfold tableEnd at long
  constructor
  · omega
  · rw [magic_of_same same (by unfold tableEnd; omega)]
    exact archive.2

theorem validTable_of_same : ValidTable other := by
  have long := le_size_of_same same table.inside
  have count := archCount_of_same same
  have some := table.some
  unfold tableEnd at long
  constructor
  · omega
  · omega
  · omega

theorem sliceStart_of_same (cpuType : Int) : sliceStart other cpuType = sliceStart bs cpuType := by
  rw [sliceStart, selected_of_same same]
  exact archWord_of_same same (selected_lt cpuType table) (by decide)

theorem sliceEnd_of_same (cpuType : Int) : sliceEnd other cpuType = sliceEnd bs cpuType := by
  rw [sliceEnd, sliceStart_of_same same table, sliceSize, selected_of_same same,
    archWord_of_same same (selected_lt cpuType table) (by decide)]
  rfl

end

/-- The slice in an archive is parsed as it is on its own, and bytes of the archive that are neither
in its table nor in the slice have no part in the result. -/
theorem parse_archived (slice file : Array UInt8) (cpuType : Int) (single : ¬ IsArchive slice)
    (archive : IsArchive file) (table : ValidTable file)
    (inside : sliceEnd file cpuType ≤ file.size)
    (held : selectedSlice file cpuType = slice) :
    SameOutcome (sliceStart file cpuType) (Container.parse slice cpuType)
      (Container.parse file cpuType) ∧
    ∀ other : Array UInt8,
      other.extract 0 (tableEnd file) = file.extract 0 (tableEnd file) →
      sliceEnd file cpuType ≤ other.size →
      other.extract (sliceStart file cpuType) (sliceEnd file cpuType) = slice →
      Container.parse other cpuType = Container.parse file cpuType := by
  rw [parse_of_table archive table, if_pos inside, held]
  constructor
  · by_cases long : 4 ≤ slice.size
    · rw [parse_of_slice long single]
      exact parse_sameOutcome slice _
    · have short : slice.size < 4 := Nat.lt_of_not_le long
      obtain ⟨c, refused⟩ := (parse_classified
        { bytes := slice, base := 0 + sliceStart file cpuType } _).otherFormat (Or.inl short)
      rw [parse_of_short short, refused]
      exact .otherFormat _ c
  · intro other same within part
    have start := sliceStart_of_same same table cpuType
    have stop := sliceEnd_of_same same table cpuType
    rw [parse_of_table (isArchive_of_same same table archive) (validTable_of_same same table), stop,
      if_pos within, selectedSlice, start, stop, part]

def executable : Array UInt8 :=
  #[0xCF, 0xFA, 0xED, 0xFE, 12, 0, 0, 1, 0, 0, 0, 0, 2, 0, 0, 0,
    2, 0, 0, 0, 32, 0, 0, 0, 0, 0, 0, 0, 0, 0, 0, 0,
    0x1B, 0, 0, 0, 24, 0, 0, 0, 1, 2, 3, 4, 5, 6, 7, 8, 9, 10, 11, 12, 13, 14, 15, 16,
    0x99, 0, 0, 0, 8, 0, 0, 0]

def universal : Array UInt8 :=
  #[0xCA, 0xFE, 0xBA, 0xBE, 0, 0, 0, 2,
    1, 0, 0, 7, 0, 0, 0, 3, 0xFF, 0xFF, 0xFF, 0xFF, 0, 0, 0, 1, 0, 0, 0, 0,
    1, 0, 0, 12, 0, 0, 0, 0, 0, 0, 0, 56, 0, 0, 0, 64, 0, 0, 0, 0,
    1, 1, 2, 3, 5, 8, 13, 21] ++ executable ++ #[34, 55]

theorem parse_universal :
    ¬ IsArchive executable ∧ IsArchive universal ∧ ValidTable universal ∧
    sliceEnd universal Cpu.arm64Code ≤ universal.size ∧
    selectedSlice universal Cpu.arm64Code = executable ∧ sliceStart universal Cpu.arm64Code = 56 ∧
    (Container.parse executable Cpu.arm64Code).toOption.isSome = true ∧
    SameOutcome (sliceStart universal Cpu.arm64Code) (Container.parse executable Cpu.arm64Code)
      (Container.parse universal Cpu.arm64Code) := by
  have single : ¬ IsArchive executable := by
    unfold IsArchive
    decide
  have archive : IsArchive universal := by
    unfold IsArchive
    decide +kernel
  have table : ValidTable universal := ⟨by decide +kernel, by decide +kernel, by decide +kernel⟩
  have inside : sliceEnd universal Cpu.arm64Code ≤ universal.size := by decide +kernel
  have held : selectedSlice universal Cpu.arm64Code = executable := by decide +kernel
  exact ⟨single, archive, table, inside, held, by decide +kernel, by decide +kernel,
    (parse_archived executable universal _ single archive table inside held).1⟩

end MachImage
