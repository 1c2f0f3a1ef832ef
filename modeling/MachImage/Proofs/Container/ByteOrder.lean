import MachImage.Proofs.Container.Archived
/-!
The two byte orders of a table. A table that is written in the reader's own order and the same
table with the bytes of each of its words reversed announce the same slices, record by record, and
so lead to the same slice for every machine. A slice that begins behind the table has the same bytes
in both files, and is parsed to the same image or refused for the same fault.
-/
namespace MachImage
open Record

def reverseWords : Nat → List UInt8 → List UInt8
  | 0, bs => bs
  | words + 1, bs => (bs.take 4).reverse ++ reverseWords words (bs.drop 4)

def turned (words : Nat) (file : Array UInt8) : Array UInt8 :=
  (reverseWords words file.toList).toArray

section
variable {words k : Nat} {bs : List UInt8}

theorem length_reverseWords (words : Nat) (bs : List UInt8) :
    (reverseWords words bs).length = bs.length := by
  induction words generalizing bs with
  | zero => rfl
  | succ words ih =>
    simp only [reverseWords, List.length_append, List.length_reverse, List.length_take, ih,
      List.length_drop]
    omega

theorem reverseWords_word (below : k < words) (inside : 4 * words ≤ bs.length) :
    ((reverseWords words bs).drop (4 * k)).take 4 = ((bs.drop (4 * k)).take 4).reverse := by
  induction words generalizing bs k with
  | zero => omega
  | succ words ih =>
    have first : (bs.take 4).reverse.length = 4 := by
      rw [List.length_reverse, List.length_take]
      omega
    cases k with
    | zero => simp only [reverseWords, Nat.mul_zero, List.drop_zero, List.take_left' first]
    | succ k =>
      have later := @ih k (bs.drop 4) (by omega) (by rw [List.length_drop]; omega)
      have place : 4 * (k + 1) = 4 + 4 * k := by omega
      rw [reverseWords, place, ← List.drop_drop, List.drop_left' first, later, List.drop_drop]

theorem reverseWords_behind (inside : 4 * words ≤ bs.length) :
    (reverseWords words bs).drop (4 * words) = bs.drop (4 * words) := by
  induction words generalizing bs with
  | zero => rfl
  | succ words ih =>
    have first : (bs.take 4).reverse.length = 4 := by
      rw [List.length_reverse, List.length_take]
      omega
    have later := @ih (bs.drop 4) (by rw [List.length_drop]; omega)
    have place : 4 * (words + 1) = 4 + 4 * words := by omega
    rw [reverseWords, place, ← List.drop_drop, List.drop_left' first, later, List.drop_drop]

end

section
variable {words k : Nat} {file : Array UInt8}

theorem size_turned (words : Nat) (file : Array UInt8) : (turned words file).size = file.size := by
  rw [turned, List.size_toArray, length_reverseWords, Array.length_toList]

section
variable (inside : 4 * words ≤ file.size)
include inside

theorem word_turned (below : k < words) :
    ((turned words file).extract (4 * k) (4 * k + 4)).toList =
      (file.extract (4 * k) (4 * k + 4)).toList.reverse := by
  rw [toList_extract, toList_extract, turned]
  exact reverseWords_word below inside

theorem u32_turned (below : k < words) :
    u32 (turned words file) (4 * k) = swap32 (u32 file (4 * k)) := by
  have word : (file.extract (4 * k) (4 * k + 4)).toList.length = 4 := by
    rw [Array.length_toList, Array.size_extract]
    omega
  rw [u32, unsignedAt, word_turned inside below, littleEndian_reverse word]
  rfl

theorem swap32_turned (below : k < words) :
    swap32 (u32 (turned words file) (4 * k)) = u32 file (4 * k) := by
  have word : ((turned words file).extract (4 * k) (4 * k + 4)).toList.length = 4 := by
    rw [word_turned inside below, List.length_reverse, Array.length_toList, Array.size_extract]
    omega
  rw [u32, unsignedAt, ← littleEndian_reverse word, word_turned inside below, List.reverse_reverse]
  rfl

theorem slice_turned {start size : Nat} (apart : size = 0 ∨ 4 * words ≤ start) :
    Region.slice { bytes := turned words file } start size =
      Region.slice { bytes := file } start size := by
  have bytes : ((turned words file).extract start (start + size)) =
      file.extract start (start + size) := by
    rw [← Array.toList_inj, toList_extract, toList_extract, turned]
    rcases apart with rfl | behind
    · simp
    · obtain ⟨n, rfl⟩ := Nat.exists_eq_add_of_le behind
      rw [← List.drop_drop, reverseWords_behind inside, List.drop_drop]
  have length : Region.size { bytes := turned words file } = Region.size { bytes := file } :=
    size_turned words file
  by_cases fits : start + size ≤ Region.size { bytes := file }
  · rw [slice_of_le fits, slice_of_le (length ▸ fits), bytes]
  · rw [slice_of_lt (Nat.lt_of_not_le fits), slice_of_lt (length ▸ Nat.lt_of_not_le fits), length]

end
end

def otherOrder (file : Array UInt8) : Array UInt8 := turned (2 + 5 * u32 file 4) file

theorem size_otherOrder (file : Array UInt8) : (otherOrder file).size = file.size :=
  size_turned _ file

theorem archAt_eq {r : Region} {offset : Nat} (inside : offset + 20 ≤ r.size) :
    archAt r (u32 r.bytes 0 = 0xBEBAFECA) offset =
      { value :=
          { cpuType := tableWord r.bytes (offset + 0), cpuSubtype := tableWord r.bytes (offset + 4),
            offset := tableWord r.bytes (offset + 8), size := tableWord r.bytes (offset + 12),
            align := tableWord r.bytes (offset + 16) },
        offset := r.base + offset } := by
  rw [← arch_word 0 (by decide) inside, ← arch_word 4 (by decide) inside,
    ← arch_word 8 (by decide) inside, ← arch_word 12 (by decide) inside,
    ← arch_word 16 (by decide) inside, archAt]
  by_cases swapped : u32 r.bytes 0 = 0xBEBAFECA
  · simp only [swapped, decide_true, if_true]
    rfl
  · simp only [swapped, decide_false, if_false, Bool.false_eq_true]
    rfl

section
variable {file : Array UInt8}

theorem tableWord_native (native : u32 file 0 = 0xCAFEBABE) {offset : Nat}
    (inside : offset + 4 ≤ file.size) : tableWord file offset = u32 file offset := by
  rw [tableWord_eq inside, if_neg (by rw [native]; decide)]

section
variable (native : u32 file 0 = 0xCAFEBABE) (complete : 8 + 20 * u32 file 4 ≤ file.size)
include native complete

theorem magic_otherOrder : u32 (otherOrder file) 0 = 0xBEBAFECA := by
  have magic := @u32_turned (2 + 5 * u32 file 4) 0 file (by omega) (by omega)
  rw [otherOrder, magic, native]
  rfl

theorem tableWord_otherOrder {k : Nat} (below : k < 2 + 5 * u32 file 4) :
    tableWord (otherOrder file) (4 * k) = tableWord file (4 * k) := by
  have inOther : 4 * k + 4 ≤ (otherOrder file).size := by
    rw [size_otherOrder]
    omega
  rw [tableWord_native native (by omega), tableWord_eq inOther,
    if_pos (magic_otherOrder native complete)]
  exact swap32_turned (by omega) below

theorem archCount_native : archCount file = u32 file 4 :=
  tableWord_native native (by omega)

theorem archCount_otherOrder : archCount (otherOrder file) = u32 file 4 := by
  rw [← archCount_native native complete]
  exact @tableWord_otherOrder file native complete 1 (by omega)

theorem archAt_otherOrder {k : Nat} (announced : k < u32 file 4) :
    archAt { bytes := otherOrder file } (u32 (otherOrder file) 0 = 0xBEBAFECA) (8 + 20 * k) =
      archAt { bytes := file } (u32 file 0 = 0xBEBAFECA) (8 + 20 * k) := by
  have words : ∀ j, j < 5 →
      tableWord (otherOrder file) (8 + 20 * k + 4 * j) = tableWord file (8 + 20 * k + 4 * j) := by
    intro j field
    have place : 8 + 20 * k + 4 * j = 4 * (2 + 5 * k + j) := by omega
    rw [place]
    exact tableWord_otherOrder native complete (by omega)
  have here : 8 + 20 * k + 20 ≤ file.size := by omega
  have there : 8 + 20 * k + 20 ≤ (otherOrder file).size := by
    rw [size_otherOrder]
    exact here
  have left := @archAt_eq { bytes := otherOrder file } _ there
  have right := @archAt_eq { bytes := file } _ here
  dsimp only at left right
  rw [left, right, words 0 (by decide), words 1 (by decide), words 2 (by decide),
    words 3 (by decide), words 4 (by decide)]

theorem tableArchs_otherOrder : tableArchs (otherOrder file) = tableArchs file := by
  rw [tableArchs, tableArchs, archCount_native native complete,
    archCount_otherOrder native complete]
  apply List.map_congr_left
  intro k announced
  exact archAt_otherOrder native complete (List.mem_range.1 announced)

end
end

/-- Two containers announce the same slices, and lead to the same image of every machine, unless the
bytes of its slice are bytes of the table. -/
structure SameTable (count : Nat) (c d : Container) : Prop where
  announced : c.header.map (·.value.archCount) = some count ∧
    d.header.map (·.value.archCount) = some count
  records : c.archs.length = count ∧ d.archs = c.archs
  slices (cpuType : Int) : ∃ a, c.archFor? cpuType = some a ∧ d.archFor? cpuType = some a ∧
    (a.value.size = 0 ∨ 8 + 20 * count ≤ a.value.offset →
      d.imageFor cpuType = c.imageFor cpuType)

theorem validTable_of_count {bs : Array UInt8} {n : Nat} (count : archCount bs = n) (filled : n ≠ 0)
    (complete : 8 + 20 * n ≤ bs.size) : ValidTable bs := by
  subst count
  exact ⟨by omega, Nat.pos_of_ne_zero filled, complete⟩

theorem ofRegion_of_empty {bs : Array UInt8} (archive : IsArchive bs) (long : 8 ≤ bs.size)
    (empty : archCount bs = 0) :
    Container.ofRegion { bytes := bs } = .error (.format .noArchitectures) := by
  obtain ⟨h, -, read⟩ := @readFatHeader_of_le { bytes := bs } long
  rw [if_pos empty] at read
  rw [ofRegion_of_archive archive, read]
  rfl

section
variable {file : Array UInt8} (native : u32 file 0 = 0xCAFEBABE)
  (complete : 8 + 20 * u32 file 4 ≤ file.size)
include native complete

theorem archive_native : IsArchive file := ⟨by omega, Or.inl native⟩

theorem archive_otherOrder : IsArchive (otherOrder file) := by
  refine ⟨?_, Or.inr (magic_otherOrder native complete)⟩
  rw [size_otherOrder]
  omega

theorem sameTable_otherOrder (filled : u32 file 4 ≠ 0) :
    ∃ c d, Container.ofRegion { bytes := file } = .ok c ∧
      Container.ofRegion { bytes := otherOrder file } = .ok d ∧
      SameTable (u32 file 4) c d := by
  have announced := archCount_native native complete
  have announced' := archCount_otherOrder native complete
  have table := validTable_of_count announced filled complete
  have table' := validTable_of_count announced' filled (size_otherOrder file ▸ complete)
  obtain ⟨c, h, read, header, count, region, fat, archs⟩ :=
    container_of_table (archive_native native complete) table
  obtain ⟨d, h', read', header', count', region', fat', archs'⟩ :=
    container_of_table (archive_otherOrder native complete) table'
  rw [announced] at count
  rw [announced'] at count'
  have same : d.archs = c.archs := by
    rw [archs, archs', tableArchs_otherOrder native complete]
  refine ⟨c, d, read, read', ?_, ⟨?_, same⟩, ?_⟩
  · rw [header, header', Option.map, Option.map, count, count']
    exact ⟨rfl, rfl⟩
  · rw [archs, tableArchs, List.length_map, List.length_range, announced]
  · intro cpuType
    obtain ⟨a, found⟩ : ∃ a, c.archFor? cpuType = some a :=
      ⟨_, archFor?_of_table cpuType table archs⟩
    have found' : d.archFor? cpuType = some a := by
      rw [← found, Container.archFor?, Container.archFor?, same]
    refine ⟨a, found, found', ?_⟩
    intro apart
    have behind : a.value.size = 0 ∨ 4 * (2 + 5 * u32 file 4) ≤ a.value.offset :=
      apart.imp_right (by omega)
    have bytes := @slice_turned (2 + 5 * u32 file 4) file (by omega) _ _ behind
    have size : Region.size { bytes := otherOrder file } = Region.size { bytes := file } :=
      size_otherOrder file
    rw [← otherOrder] at bytes
    rw [Container.imageFor, Container.imageFor, if_pos fat, if_pos fat', found, found', region,
      region']
    dsimp only
    rw [bytes, size]

theorem refused_otherOrder (empty : u32 file 4 = 0) :
    Container.ofRegion { bytes := file } = .error (.format .noArchitectures) ∧
      Container.ofRegion { bytes := otherOrder file } = .error (.format .noArchitectures) := by
  constructor
  · apply ofRegion_of_empty (archive_native native complete) (by omega)
    rw [archCount_native native complete, empty]
  · apply ofRegion_of_empty (archive_otherOrder native complete)
    · rw [size_otherOrder]
      omega
    · rw [archCount_otherOrder native complete, empty]

end

/-- A table that fits its file and the same table in the other byte order are both refused for
having no slices, or announce the same slices. -/
theorem table_in_either_order {file : Array UInt8} (native : u32 file 0 = Container.nativeMagic)
    (complete : 8 + 20 * u32 file 4 ≤ file.size) :
    u32 (otherOrder file) 0 = Container.swappedMagic ∧
    (u32 file 4 = 0 →
      Container.ofRegion { bytes := file } = .error (.format .noArchitectures) ∧
      Container.ofRegion { bytes := otherOrder file } = .error (.format .noArchitectures)) ∧
    (u32 file 4 ≠ 0 → ∃ c d,
      Container.ofRegion { bytes := file } = .ok c ∧
      Container.ofRegion { bytes := otherOrder file } = .ok d ∧ SameTable (u32 file 4) c d) :=
  ⟨magic_otherOrder native complete, refused_otherOrder native complete,
    sameTable_otherOrder native complete⟩

def nativeUniversal : Array UInt8 := turned 12 universal

theorem table_in_either_order_universal :
    u32 nativeUniversal 0 = Container.nativeMagic ∧ u32 nativeUniversal 4 = 2 ∧
    8 + 20 * u32 nativeUniversal 4 ≤ nativeUniversal.size ∧
    otherOrder nativeUniversal = universal ∧ sliceStart nativeUniversal Cpu.arm64Code = 56 ∧
    (Container.parse nativeUniversal Cpu.arm64Code).toOption.isSome = true ∧
    ∃ c d, Container.ofRegion { bytes := nativeUniversal } = .ok c ∧
      Container.ofRegion { bytes := universal } = .ok d ∧ SameTable 2 c d := by
  have native : u32 nativeUniversal 0 = Container.nativeMagic := by decide +kernel
  have count : u32 nativeUniversal 4 = 2 := by decide +kernel
  have complete : 8 + 20 * u32 nativeUniversal 4 ≤ nativeUniversal.size := by decide +kernel
  have other : otherOrder nativeUniversal = universal := by decide +kernel
  obtain ⟨-, -, filled⟩ := table_in_either_order native complete
  rw [other, count] at filled
  exact ⟨native, count, complete, other, by decide +kernel, by decide +kernel, filled (by decide)⟩

end MachImage
