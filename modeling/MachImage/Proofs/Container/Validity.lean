import MachImage.Container
import MachImage.Proofs.Image.Validity
/-!
Which files can be parsed. A file is an archive or one slice. Of an archive the table has to fit
and the selected slice has to lie in the file; the other slices are not looked at.
-/
namespace MachImage
open Record

def IsArchive (bs : Array UInt8) : Prop :=
  4 ≤ bs.size ∧ (u32 bs 0 = 0xCAFEBABE ∨ u32 bs 0 = 0xBEBAFECA)

def tableWord (bs : Array UInt8) (offset : Nat) : Nat :=
  let word := (bs.extract offset (offset + 4)).toList
  if u32 bs 0 = 0xBEBAFECA then littleEndian word.reverse else littleEndian word

def archCount (bs : Array UInt8) : Nat := tableWord bs 4

/-- The first record of a machine, or else the first of all. -/
def selected (bs : Array UInt8) (cpuType : Int) : Nat :=
  ((List.range (archCount bs)).find? fun k => (tableWord bs (8 + 20 * k) : Int) = cpuType).getD 0

def sliceStart (bs : Array UInt8) (cpuType : Int) : Nat :=
  tableWord bs (8 + 20 * selected bs cpuType + 8)

def sliceSize (bs : Array UInt8) (cpuType : Int) : Nat :=
  tableWord bs (8 + 20 * selected bs cpuType + 12)

def sliceEnd (bs : Array UInt8) (cpuType : Int) : Nat :=
  sliceStart bs cpuType + sliceSize bs cpuType

def selectedSlice (bs : Array UInt8) (cpuType : Int) : Array UInt8 :=
  bs.extract (sliceStart bs cpuType) (sliceEnd bs cpuType)

structure ValidTable (bs : Array UInt8) : Prop where
  header : 8 ≤ bs.size
  some : 1 ≤ archCount bs
  inside : 8 + 20 * archCount bs ≤ bs.size

structure ValidArchive (bs : Array UInt8) (cpuType : Int) : Prop where
  table : ValidTable bs
  inside : sliceEnd bs cpuType ≤ bs.size
  slice : ValidSlice (selectedSlice bs cpuType)

def ValidFile (bs : Array UInt8) (cpuType : Int) : Prop :=
  (IsArchive bs → ValidArchive bs cpuType) ∧ (¬ IsArchive bs → ValidSlice bs)

def ForeignArchive (bs : Array UInt8) (cpuType : Int) : Prop :=
  (8 ≤ bs.size ∧ archCount bs = 0) ∨
  (ValidTable bs ∧ sliceEnd bs cpuType ≤ bs.size ∧ WrongMagic (selectedSlice bs cpuType))

def ForeignFile (bs : Array UInt8) (cpuType : Int) : Prop :=
  (IsArchive bs → ForeignArchive bs cpuType) ∧ (¬ IsArchive bs → WrongMagic bs)

theorem littleEndian_reverse {bs : List UInt8} (word : bs.length = 4) :
    littleEndian bs.reverse = swap32 (littleEndian bs) := by
  match bs, word with
  | [a, b, c, d], _ =>
    have ha := a.toNat_lt
    have hb := b.toNat_lt
    have hc := c.toNat_lt
    have hd := d.toNat_lt
    have second : littleEndian [a, b, c, d] / 256 = littleEndian [b, c, d] := by
      simp only [littleEndian]
      omega
    have third : littleEndian [a, b, c, d] / 0x10000 = littleEndian [c, d] := by
      simp only [littleEndian]
      omega
    have fourth : littleEndian [a, b, c, d] / 0x1000000 = littleEndian [d] := by
      simp only [littleEndian]
      omega
    rw [swap32, second, third, fourth]
    simp only [List.reverse_cons, List.reverse_nil, List.nil_append, List.cons_append, littleEndian]
    omega

theorem tableWord_eq {bs : Array UInt8} {offset : Nat} (inside : offset + 4 ≤ bs.size) :
    tableWord bs offset =
      if u32 bs 0 = 0xBEBAFECA then swap32 (u32 bs offset) else u32 bs offset := by
  have word : (bs.extract offset (offset + 4)).toList.length = 4 := by
    rw [Array.length_toList, Array.size_extract]
    omega
  unfold tableWord
  dsimp only
  rw [littleEndian_reverse word]
  rfl

/-- A record of the table, from any place of the file. -/
def archAt (r : Region) (swapped : Bool) (offset : Nat) : Placed FatArch :=
  let a : FatArch := Record.decode (r.bytes.extract offset (offset + 20))
  { value := if swapped then a.swap else a, offset := r.base + offset }

theorem arch_word {r : Region} {offset : Nat} (field : Nat) (within : field + 4 ≤ 20)
    (inside : offset + 20 ≤ r.size) :
    (if u32 r.bytes 0 = 0xBEBAFECA then swap32 (u32 (r.bytes.extract offset (offset + 20)) field)
      else u32 (r.bytes.extract offset (offset + 20)) field) =
      tableWord r.bytes (offset + field) := by
  have inFile : offset + field + 4 ≤ r.bytes.size := by
    unfold Region.size at inside
    omega
  rw [tableWord_eq inFile, u32_extract (by omega)]

theorem archAt_fields {r : Region} {offset : Nat} (inside : offset + 20 ≤ r.size) :
    let a := (archAt r (u32 r.bytes 0 = 0xBEBAFECA) offset).value
    a.cpuType = tableWord r.bytes offset ∧ a.offset = tableWord r.bytes (offset + 8) ∧
      a.size = tableWord r.bytes (offset + 12) := by
  have cpuType : _ = tableWord r.bytes offset := arch_word 0 (by decide) inside
  have start := arch_word 8 (by decide) inside
  have size := arch_word 12 (by decide) inside
  rw [← cpuType, ← start, ← size]
  unfold archAt
  by_cases swapped : u32 r.bytes 0 = 0xBEBAFECA
  · simp only [swapped, decide_true, if_true]
    exact ⟨rfl, rfl, rfl⟩
  · simp only [swapped, decide_false, if_false, Bool.false_eq_true]
    exact ⟨rfl, rfl, rfl⟩

theorem walkArchs_of_le {r : Region} (swapped : Bool) {offset count : Nat} (index : Nat)
    (inside : offset + 20 * count ≤ r.size) :
    Container.walkArchs r swapped offset index count =
      .ok ((List.range count).map fun k => archAt r swapped (offset + 20 * k)) := by
  have width : Record.size FatArch = 20 := rfl
  induction count generalizing offset index with
  | zero => rfl
  | succ count ih =>
    have first : r.record FatArch offset = .ok _ := @record_of_le FatArch _ r offset (by omega)
    have later := @ih (offset + 20) (index + 1) (by omega)
    rw [List.range_succ_eq_map, List.map_cons, List.map_map]
    unfold Container.walkArchs
    rw [first, width]
    dsimp only
    rw [later, ok_bind]
    have same : (fun k => archAt r swapped (offset + 20 + 20 * k)) =
        (fun k => archAt r swapped (offset + 20 * k)) ∘ Nat.succ := by
      funext k
      rw [Function.comp_apply, Nat.mul_succ, Nat.add_assoc, Nat.add_comm 20]
    rw [same]
    cases swapped <;> rfl

theorem walkArchs_of_lt {r : Region} (swapped : Bool) {offset count : Nat} (index : Nat)
    (outside : r.size < offset + 20 * count) (start : offset ≤ r.size) :
    ∃ c, Container.walkArchs r swapped offset index count = .error (.corrupt c) := by
  have width : Record.size FatArch = 20 := rfl
  induction count generalizing offset index with
  | zero => omega
  | succ count ih =>
    unfold Container.walkArchs
    by_cases fits : offset + 20 ≤ r.size
    · have first : r.record FatArch offset = .ok _ := @record_of_le FatArch _ r offset fits
      obtain ⟨c, later⟩ := @ih (offset + 20) (index + 1) (by omega) fits
      rw [first, width]
      dsimp only
      rw [later]
      exact ⟨c, rfl⟩
    · have first : r.record FatArch offset = .error _ :=
        @record_of_lt FatArch _ r offset (by omega)
      rw [first]
      exact ⟨_, rfl⟩

def containerOf (r : Region) : Container :=
  { region := r, magic := u32 r.bytes 0, header := none, archs := [] }

theorem isFat_iff {r : Region} (long : 4 ≤ r.size) :
    (containerOf r).isFat = true ↔ IsArchive r.bytes := by
  have here : 4 ≤ r.bytes.size := long
  simp only [Container.isFat, Bool.or_eq_true, decide_eq_true_eq]
  exact (and_iff_right here).symm

theorem fatMagic_of_le {r : Region} (long : 4 ≤ r.size) :
    Container.readMagic r = .ok (u32 r.bytes 0) := by
  rw [Container.readMagic, magic_of_le long]
  rfl

theorem fatMagic_of_lt {r : Region} (short : r.size < 4) :
    Container.readMagic r = .error (.format .fileTooSmall) := by
  rw [Container.readMagic, magic_of_lt short]

theorem readFatHeader_of_lt {r : Region} (swapped : Bool) (short : r.size < 8) :
    Container.readFatHeader r swapped = .error (.corrupt .archiveHeaderTruncated) := by
  have read : r.record FatHeader 0 = .error _ := @record_of_lt FatHeader _ r 0 (by omega)
  rw [Container.readFatHeader, read]

theorem readFatHeader_of_le {r : Region} (long : 8 ≤ r.size) :
    ∃ h : Placed FatHeader, h.value.archCount = archCount r.bytes ∧
      Container.readFatHeader r (containerOf r).isSwapped =
        if archCount r.bytes = 0 then .error (.format .noArchitectures) else .ok h := by
  have read : r.record FatHeader 0 = .ok _ := @record_of_le FatHeader _ r 0 (by omega)
  have word : u32 (r.bytes.extract 0 8) 4 = u32 r.bytes 4 := u32_extract (by decide)
  have count : archCount r.bytes = if (containerOf r).isSwapped
      then swap32 (u32 (r.bytes.extract 0 8) 4) else u32 (r.bytes.extract 0 8) 4 := by
    rw [archCount, tableWord_eq (Nat.le_of_lt_succ (by unfold Region.size at long; omega)), word]
    simp only [Container.isSwapped, decide_eq_true_eq]
    rfl
  refine ⟨⟨⟨u32 (r.bytes.extract 0 8) 0, archCount r.bytes⟩, r.base + 0⟩, rfl, ?_⟩
  rw [Container.readFatHeader, read, count]
  rfl

section
variable {bs : Array UInt8} {cpuType : Int}

theorem ofRegion_of_archive (archive : IsArchive bs) :
    Container.ofRegion { bytes := bs } = (do
      let header ← Container.readFatHeader { bytes := bs } (containerOf { bytes := bs }).isSwapped
      let archs ← Container.walkArchs { bytes := bs } (containerOf { bytes := bs }).isSwapped 8 0
        header.value.archCount
      return { containerOf { bytes := bs } with header := some header, archs }) := by
  rw [Container.ofRegion, @fatMagic_of_le { bytes := bs } archive.1, ok_bind]
  exact if_pos ((@isFat_iff { bytes := bs } archive.1).2 archive)

def tableArchs (bs : Array UInt8) : List (Placed FatArch) :=
  (List.range (archCount bs)).map fun k =>
    archAt { bytes := bs } (u32 bs 0 = 0xBEBAFECA) (8 + 20 * k)

theorem container_of_table (archive : IsArchive bs) (table : ValidTable bs) :
    ∃ c h, Container.ofRegion { bytes := bs } = .ok c ∧ c.header = some h ∧
      h.value.archCount = archCount bs ∧ c.region = { bytes := bs } ∧ c.isFat = true ∧
      c.archs = tableArchs bs := by
  obtain ⟨header, count, read⟩ := @readFatHeader_of_le { bytes := bs } table.header
  have announced : archCount bs ≠ 0 := Nat.ne_of_gt table.some
  rw [if_neg announced] at read
  rw [ofRegion_of_archive archive, read, ok_bind, count,
    @walkArchs_of_le { bytes := bs } _ 8 (archCount bs) 0 table.inside]
  exact ⟨_, header, rfl, rfl, count, rfl, (@isFat_iff { bytes := bs } archive.1).2 archive, rfl⟩

theorem ofRegion_of_table (archive : IsArchive bs) (table : ValidTable bs) :
    ∃ c, Container.ofRegion { bytes := bs } = .ok c ∧ c.region = { bytes := bs } ∧
      c.isFat = true ∧ c.archs = tableArchs bs := by
  obtain ⟨c, -, read, -, -, parts⟩ := container_of_table archive table
  exact ⟨c, read, parts⟩

theorem arch_inside (table : ValidTable bs) {k : Nat} (announced : k < archCount bs) :
    8 + 20 * k + 20 ≤ bs.size := by
  have inside := table.inside
  omega

theorem archFor?_of_table (cpuType : Int) (table : ValidTable bs) {c : Container}
    (archs : c.archs = tableArchs bs) :
    c.archFor? cpuType =
      some (archAt { bytes := bs } (u32 bs 0 = 0xBEBAFECA) (8 + 20 * selected bs cpuType)) := by
  have announced : archCount bs ≠ 0 := Nat.ne_of_gt table.some
  have matching : ∀ k ∈ List.range (archCount bs),
      decide (((archAt { bytes := bs } (u32 bs 0 = 0xBEBAFECA) (8 + 20 * k)).value.cpuType : Int) =
        cpuType) = decide ((tableWord bs (8 + 20 * k) : Int) = cpuType) := by
    intro k member
    have within := arch_inside table (List.mem_range.1 member)
    rw [(@archAt_fields { bytes := bs } _ within).1]
  rw [Container.archFor?, archs, tableArchs, ← List.head?_filter, List.filter_map, List.head?_map]
  simp only [Function.comp_def]
  rw [List.filter_congr matching, List.head?_filter, selected]
  cases (List.range (archCount bs)).find? fun k => (tableWord bs (8 + 20 * k) : Int) = cpuType with
  | some k => rfl
  | none =>
    dsimp only [Option.map]
    rw [List.head?_map, List.head?_range, if_neg announced]
    rfl

theorem selected_lt (cpuType : Int) (table : ValidTable bs) :
    selected bs cpuType < archCount bs := by
  unfold selected
  cases found : (List.range (archCount bs)).find?
      fun k => (tableWord bs (8 + 20 * k) : Int) = cpuType with
  | none => exact table.some
  | some k => exact List.mem_range.1 (List.mem_of_find?_eq_some found)

theorem parse_of_table (archive : IsArchive bs) (table : ValidTable bs) :
    Container.parse bs cpuType =
      if sliceEnd bs cpuType ≤ bs.size then
        Image.parse
          { bytes := selectedSlice bs cpuType, base := 0 + (sliceStart bs cpuType : Nat) }
          (sliceStart bs cpuType)
      else .error (.corrupt
        (.sliceOutside (sliceStart bs cpuType) (sliceEnd bs cpuType) bs.size)) := by
  obtain ⟨c, read, region, fat, archs⟩ := ofRegion_of_table archive table
  have within := arch_inside table (selected_lt cpuType table)
  obtain ⟨-, start, size⟩ := @archAt_fields { bytes := bs } _ within
  rw [Container.parse, read, ok_bind, Container.imageFor, if_pos fat,
    archFor?_of_table cpuType table archs, region]
  dsimp only at start size ⊢
  rw [start, size, ← sliceStart, ← sliceSize]
  by_cases inside : sliceEnd bs cpuType ≤ bs.size
  · rw [if_pos inside, @slice_of_le { bytes := bs } _ _ inside]
    rfl
  · rw [if_neg inside, @slice_of_lt { bytes := bs } _ _ (Nat.lt_of_not_le inside)]
    rfl

theorem classified_of_table (archive : IsArchive bs) (table : ValidTable bs) :
    Classified (Container.parse bs cpuType) (ValidArchive bs cpuType)
      (ForeignArchive bs cpuType) := by
  rw [parse_of_table archive table]
  by_cases inside : sliceEnd bs cpuType ≤ bs.size
  · rw [if_pos inside]
    have valid : ValidSlice (selectedSlice bs cpuType) ↔ ValidArchive bs cpuType :=
      ⟨fun slice => ⟨table, inside, slice⟩, fun valid => valid.slice⟩
    have foreign : WrongMagic (selectedSlice bs cpuType) ↔ ForeignArchive bs cpuType := by
      constructor
      · intro wrong
        exact Or.inr ⟨table, inside, wrong⟩
      · intro foreign
        rcases foreign with ⟨-, none⟩ | ⟨-, -, wrong⟩
        · have some := table.some
          omega
        · exact wrong
    rw [← valid, ← foreign]
    exact parse_classified _ _
  · rw [if_neg inside]
    apply (judged_corrupt _ _).classified
    · intro foreign
      rcases foreign with ⟨-, none⟩ | ⟨-, fits, -⟩
      · have some := table.some
        omega
      · exact inside fits
    · intro valid
      exact inside valid.inside

theorem parse_archive (archive : IsArchive bs) :
    Classified (Container.parse bs cpuType) (ValidArchive bs cpuType)
      (ForeignArchive bs cpuType) := by
  by_cases header : 8 ≤ bs.size
  · obtain ⟨h, count, read⟩ := @readFatHeader_of_le { bytes := bs } header
    by_cases none : archCount bs = 0
    · have foreign : ForeignArchive bs cpuType := Or.inl ⟨header, none⟩
      rw [if_pos none] at read
      rw [Container.parse, ofRegion_of_archive archive, read]
      apply classified_format _ _ foreign
      intro valid
      have some := valid.table.some
      omega
    · by_cases inside : 8 + 20 * archCount bs ≤ bs.size
      · have table : ValidTable bs := ⟨header, Nat.pos_of_ne_zero none, inside⟩
        exact classified_of_table archive table
      · obtain ⟨c, refused⟩ := @walkArchs_of_lt { bytes := bs }
          (containerOf { bytes := bs }).isSwapped 8 (archCount bs) 0 (Nat.lt_of_not_le inside) header
        rw [if_neg none] at read
        rw [Container.parse, ofRegion_of_archive archive, read, ok_bind, count, refused]
        apply (judged_corrupt c _).classified
        · intro foreign
          rcases foreign with ⟨-, zero⟩ | ⟨table, -⟩
          · exact none zero
          · exact inside table.inside
        · intro valid
          exact inside valid.table.inside
  · have refused := @readFatHeader_of_lt { bytes := bs }
      (containerOf { bytes := bs }).isSwapped (Nat.lt_of_not_le header)
    rw [Container.parse, ofRegion_of_archive archive, refused]
    apply (judged_corrupt _ _).classified
    · intro foreign
      rcases foreign with ⟨long, -⟩ | ⟨table, -⟩
      · exact header long
      · exact header table.header
    · intro valid
      exact header valid.table.header

end

theorem parse_of_slice {bs : Array UInt8} (long : 4 ≤ bs.size) (slice : ¬ IsArchive bs)
    (cpuType : Int) : Container.parse bs cpuType = Image.parse { bytes := bs } 0 := by
  have thin : ¬ (containerOf { bytes := bs }).isFat := by
    rw [@isFat_iff { bytes := bs } long]
    exact slice
  have whole : Container.ofRegion { bytes := bs } = .ok (containerOf { bytes := bs }) := by
    rw [Container.ofRegion, @fatMagic_of_le { bytes := bs } long, ok_bind]
    exact if_neg thin
  rw [Container.parse, whole, ok_bind, Container.imageFor, if_neg thin]
  rfl

theorem parse_of_short {bs : Array UInt8} (short : bs.size < 4) (cpuType : Int) :
    Container.parse bs cpuType = .error (.format .fileTooSmall) := by
  have read : Container.readMagic { bytes := bs } = .error (.format .fileTooSmall) :=
    fatMagic_of_lt short
  rw [Container.parse, Container.ofRegion, read]
  rfl

theorem parse_slice (bs : Array UInt8) (cpuType : Int) (slice : ¬ IsArchive bs) :
    Classified (Container.parse bs cpuType) (ValidSlice bs) (WrongMagic bs) := by
  by_cases long : 4 ≤ bs.size
  · rw [parse_of_slice long slice]
    exact parse_classified { bytes := bs } 0
  · have short : bs.size < 4 := Nat.lt_of_not_le long
    rw [parse_of_short short]
    exact classified_format _ (fun valid => valid.not_wrongMagic (Or.inl short)) (Or.inl short)

theorem parse_file (bs : Array UInt8) (cpuType : Int) :
    Classified (Container.parse bs cpuType) (ValidFile bs cpuType) (ForeignFile bs cpuType) := by
  by_cases archive : IsArchive bs
  · have valid : ValidFile bs cpuType ↔ ValidArchive bs cpuType := by
      simp [ValidFile, archive]
    have foreign : ForeignFile bs cpuType ↔ ForeignArchive bs cpuType := by
      simp [ForeignFile, archive]
    rw [valid, foreign]
    exact parse_archive archive
  · have valid : ValidFile bs cpuType ↔ ValidSlice bs := by
      simp [ValidFile, archive]
    have foreign : ForeignFile bs cpuType ↔ WrongMagic bs := by
      simp [ForeignFile, archive]
    rw [valid, foreign]
    exact parse_slice bs cpuType archive

theorem ValidFile.not_foreign {bs : Array UInt8} {cpuType : Int} (valid : ValidFile bs cpuType) :
    ¬ ForeignFile bs cpuType := by
  intro foreign
  by_cases archive : IsArchive bs
  · have accepted := valid.1 archive
    rcases foreign.1 archive with ⟨-, none⟩ | ⟨-, -, wrong⟩
    · have some := accepted.table.some
      omega
    · exact accepted.slice.not_wrongMagic wrong
  · exact (valid.2 archive).not_wrongMagic (foreign.2 archive)

/-- Parsing yields an image of the valid files, refuses the format of the foreign ones, and calls
every other file corrupt. -/
theorem parse_outcome (bs : Array UInt8) (cpuType : Int) :
    ((∃ i, Container.parse bs cpuType = .ok i) ↔ ValidFile bs cpuType) ∧
    ((∃ c, Container.parse bs cpuType = .error (.format c)) ↔ ForeignFile bs cpuType) ∧
    ((∃ c, Container.parse bs cpuType = .error (.corrupt c)) ↔
      ¬ ValidFile bs cpuType ∧ ¬ ForeignFile bs cpuType) := by
  have outcome := parse_file bs cpuType
  by_cases valid : ValidFile bs cpuType
  · obtain ⟨i, run⟩ := outcome.accepted valid
    simp [run, valid, valid.not_foreign]
  · by_cases foreign : ForeignFile bs cpuType
    · obtain ⟨c, run⟩ := outcome.otherFormat foreign
      simp [run, valid, foreign]
    · obtain ⟨c, run⟩ := outcome.refused valid foreign
      simp [run, valid, foreign]

end MachImage
