import MachImage.Proofs.Image.CutCommands
import MachImage.Proofs.Image.TameReads
/-!
Which bytes are an image. The bounds that a slice declares are stated on its bytes alone, and
parsing accepts exactly the slices that keep them: a slice with another magic has the wrong format,
and every other slice is corrupt. Names, symbols and strings never stop it.
-/
namespace MachImage
open Record

structure Judged {α : Type} (x : Except Fault α) (valid : Prop) : Prop where
  accepted : valid → Sure x
  refused : ¬ valid → ∃ c, x = .error (.corrupt c)

section
variable {α β : Type} {x : Except Fault α} {p q : Prop}

theorem Sure.judged (sure : Sure x) (valid : p) : Judged x p :=
  ⟨fun _ => sure, fun wrong => absurd valid wrong⟩

theorem judged_corrupt (c : CorruptFault) (wrong : ¬ p) :
    Judged (.error (.corrupt c) : Except Fault α) p :=
  ⟨fun valid => absurd valid wrong, fun _ => ⟨c, rfl⟩⟩

theorem Judged.of_iff (judged : Judged x p) (same : p ↔ q) : Judged x q :=
  ⟨fun valid => judged.accepted (same.2 valid), fun wrong => judged.refused (mt same.1 wrong)⟩

theorem Judged.map (judged : Judged x p) (f : α → β) : Judged (x.map f) p where
  accepted valid := by
    obtain ⟨a, rfl⟩ := judged.accepted valid
    exact sure_ok (f a)
  refused wrong := by
    obtain ⟨c, rfl⟩ := judged.refused wrong
    exact ⟨c, rfl⟩

theorem Judged.bind {f : α → Except Fault β} (first : Judged x p)
    (next : p → ∀ a, x = .ok a → Judged (f a) q) : Judged (x >>= f) (p ∧ q) := by
  by_cases valid : p
  · obtain ⟨a, rfl⟩ := first.accepted valid
    exact (next valid a rfl).of_iff (and_iff_right valid).symm
  · obtain ⟨c, rfl⟩ := first.refused valid
    exact judged_corrupt c fun both => valid both.1

end

/-- A load command that ends before `stop`, and whose sections or tools end before itself. -/
structure ValidCommand (bs : Array UInt8) (stop offset : Nat) : Prop where
  head : offset + 8 ≤ stop
  least : 8 ≤ u32 bs (offset + 4)
  inside : offset + u32 bs (offset + 4) ≤ stop
  sections : u32 bs offset = 0x19 → 72 ≤ u32 bs (offset + 4) →
    72 + 80 * u32 bs (offset + 64) ≤ u32 bs (offset + 4)
  tools : u32 bs offset = 0x32 → 24 ≤ u32 bs (offset + 4) →
    24 + 8 * u32 bs (offset + 20) ≤ u32 bs (offset + 4)

def ValidCommands (bs : Array UInt8) (stop : Nat) : (offset count : Nat) → Prop
  | _, 0 => True
  | offset, count + 1 =>
    ValidCommand bs stop offset ∧ ValidCommands bs stop (offset + u32 bs (offset + 4)) count

structure ValidSlice (bs : Array UInt8) : Prop where
  header : 32 ≤ bs.size
  magic : u32 bs 0 = 0xFEEDFACF
  inside : 32 + u32 bs 20 ≤ bs.size
  commands : ValidCommands bs (32 + u32 bs 20) 32 (u32 bs 16)

def WrongMagic (bs : Array UInt8) : Prop := bs.size < 4 ∨ u32 bs 0 ≠ 0xFEEDFACF

theorem ValidSlice.not_wrongMagic {bs : Array UInt8} (valid : ValidSlice bs) :
    ¬ WrongMagic bs := by
  intro wrong
  rcases wrong with short | other
  · have header := valid.header
    omega
  · exact other valid.magic

namespace LoadCommand

section
variable {α : Type} [Record α] {bytes : Region} {undecoded : LoadCommand}
  {make : Placed α → Except Fault LoadCommand}

theorem whole_sure (always : ∀ c, Sure (make c)) : Sure (whole α bytes undecoded make) := by
  unfold whole
  split
  · exact always _
  · exact sure_ok undecoded

theorem whole_judged {valid : Prop}
    (made : ∀ c : Placed α, c.value = Record.decode (bytes.bytes.extract 0 (Record.size α)) →
      Record.size α ≤ bytes.size → Judged (make c) valid) :
    Judged (whole α bytes undecoded make) (Record.size α ≤ bytes.size → valid) := by
  unfold whole
  by_cases enough : Record.size α ≤ bytes.size
  · have read : bytes.record α 0 = .ok _ := @record_of_le α _ bytes 0 (by omega)
    rw [read]
    refine (made _ ?_ enough).of_iff ⟨fun h _ => h, fun h => h enough⟩
    simp only [Nat.zero_add]
  · have read : bytes.record α 0 = .error _ := @record_of_lt α _ bytes 0 (by omega)
    rw [read]
    exact (sure_ok undecoded).judged fun h => absurd h enough

end

theorem decodeSegment_judged {bytes : Region} {c : Placed SegmentCommand}
    (inside : c.value.cmdSize ≤ bytes.size) (least : 72 ≤ c.value.cmdSize) :
    Judged (decodeSegment bytes c) (72 + 80 * c.value.sectionCount ≤ c.value.cmdSize) := by
  have start : Record.size SegmentCommand = 72 := rfl
  have width : Record.size SectionHeader = 80 := rfl
  unfold decodeSegment
  dsimp only
  rw [start, width]
  split
  case isTrue overrun => exact judged_corrupt _ (by omega)
  case isFalse fitting =>
    have held : 72 + 80 * c.value.sectionCount ≤ c.value.cmdSize := by omega
    refine Sure.judged ?_ held
    refine (records_sure ?_).bind fun headers _ => sure_ok _
    rw [width]
    omega

theorem decodeBuildVersion_judged {bytes : Region} {offset : Nat} {c : Placed BuildVersion}
    (inside : c.value.cmdSize ≤ bytes.size) :
    Judged (decodeBuildVersion bytes offset c)
      (24 + 8 * c.value.toolCount ≤ c.value.cmdSize) := by
  have start : Record.size BuildVersion = 24 := rfl
  have width : Record.size BuildTool = 8 := rfl
  unfold decodeBuildVersion
  dsimp only
  rw [start, width]
  split
  case isTrue overrun => exact judged_corrupt _ (by omega)
  case isFalse fitting =>
    have held : 24 + 8 * c.value.toolCount ≤ c.value.cmdSize := by omega
    refine Sure.judged ?_ held
    refine (records_sure ?_).bind fun tools _ => sure_ok _
    rw [width]
    omega

theorem kind_ite {p : Prop} [Decidable p] {a b kind : CommandKind} :
    (if p then a else b) = kind ↔ p ∧ a = kind ∨ ¬ p ∧ b = kind := by
  by_cases h : p
  · simp [h]
  · simp [h]

theorem kind_segment (code : Nat) : CommandKind.ofCode code = .segment ↔ code = 0x19 := by
  constructor
  · intro kind
    simp only [CommandKind.ofCode, kind_ite, reduceCtorEq, and_false, or_false,
      and_true] at kind
    exact kind
  · rintro rfl
    rfl

theorem kind_buildVersion (code : Nat) :
    CommandKind.ofCode code = .buildVersion ↔ code = 0x32 := by
  constructor
  · intro kind
    simp only [CommandKind.ofCode, kind_ite, reduceCtorEq, and_false, or_false, false_or,
      and_true] at kind
    omega
  · rintro rfl
    rfl

theorem decode_sure {bytes : Region} {offset : Nat} {head : CommandHeader}
    (segment : head.cmd ≠ 0x19) (buildVersion : head.cmd ≠ 0x32) :
    Sure (decode bytes offset head) := by
  unfold decode
  dsimp only
  cases kind : CommandKind.ofCode head.cmd with
  | segment => exact absurd ((kind_segment _).1 kind) segment
  | buildVersion => exact absurd ((kind_buildVersion _).1 kind) buildVersion
  | other => exact sure_ok _
  | _ => exact whole_sure fun c => sure_ok _

section
variable {bytes : Region} {offset : Nat} {head : CommandHeader}

theorem segment_judged (segment : head.cmd = 0x19) (complete : bytes.size = head.cmdSize)
    (size : u32 bytes.bytes 4 = head.cmdSize) :
    Judged (decode bytes offset head)
      (72 ≤ head.cmdSize → 72 + 80 * u32 bytes.bytes 64 ≤ head.cmdSize) := by
  unfold decode
  rw [(kind_segment _).2 segment, ← complete]
  refine whole_judged fun c read enough => ?_
  have declared : c.value.cmdSize = bytes.size := by
    rw [complete, ← size, read]
    exact u32_extract (by decide)
  have counted : c.value.sectionCount = u32 bytes.bytes 64 := by
    rw [read]
    exact u32_extract (by decide)
  have least : 72 ≤ c.value.cmdSize := by
    rw [declared]
    exact enough
  have judged := decodeSegment_judged (Nat.le_of_eq declared) least
  rw [declared, counted] at judged
  exact judged

theorem buildVersion_judged (buildVersion : head.cmd = 0x32)
    (complete : bytes.size = head.cmdSize) (size : u32 bytes.bytes 4 = head.cmdSize) :
    Judged (decode bytes offset head)
      (24 ≤ head.cmdSize → 24 + 8 * u32 bytes.bytes 20 ≤ head.cmdSize) := by
  unfold decode
  rw [(kind_buildVersion _).2 buildVersion, ← complete]
  refine whole_judged fun c read _ => ?_
  have declared : c.value.cmdSize = bytes.size := by
    rw [complete, ← size, read]
    exact u32_extract (by decide)
  have counted : c.value.toolCount = u32 bytes.bytes 20 := by
    rw [read]
    exact u32_extract (by decide)
  have judged := @decodeBuildVersion_judged bytes offset c (Nat.le_of_eq declared)
  rw [declared, counted] at judged
  exact judged

theorem decode_judged (complete : bytes.size = head.cmdSize)
    (size : u32 bytes.bytes 4 = head.cmdSize) :
    Judged (decode bytes offset head)
      ((head.cmd = 0x19 → 72 ≤ head.cmdSize → 72 + 80 * u32 bytes.bytes 64 ≤ head.cmdSize) ∧
      (head.cmd = 0x32 → 24 ≤ head.cmdSize → 24 + 8 * u32 bytes.bytes 20 ≤ head.cmdSize)) := by
  by_cases segment : head.cmd = 0x19
  · refine (segment_judged segment complete size).of_iff ?_
    simp [segment]
  · by_cases buildVersion : head.cmd = 0x32
    · refine (buildVersion_judged buildVersion complete size).of_iff ?_
      simp [buildVersion]
    · refine (decode_sure segment buildVersion).judged ?_
      exact ⟨fun h => absurd h segment, fun h => absurd h buildVersion⟩

end
end LoadCommand

theorem head_of_le {r : Region} {offset : Nat} (inside : offset + 8 ≤ r.size) :
    r.record CommandHeader offset = .ok
      ⟨⟨u32 r.bytes offset, u32 r.bytes (offset + 4)⟩, r.base + offset⟩ := by
  rw [@record_of_le CommandHeader _ r offset inside]
  have cmd : u32 (r.bytes.extract offset (offset + 8)) 0 = u32 r.bytes offset :=
    u32_extract (by omega)
  have cmdSize : u32 (r.bytes.extract offset (offset + 8)) 4 = u32 r.bytes (offset + 4) :=
    u32_extract (by omega)
  rw [← cmd, ← cmdSize]
  rfl

theorem command_judged {r : Region} {offset : Nat}
    (inside : offset + u32 r.bytes (offset + 4) ≤ r.size) (least : 8 ≤ u32 r.bytes (offset + 4)) :
    Judged
      (LoadCommand.decode
        { bytes := r.bytes.extract offset (offset + u32 r.bytes (offset + 4)),
          base := r.base + offset } offset ⟨u32 r.bytes offset, u32 r.bytes (offset + 4)⟩)
      ((u32 r.bytes offset = 0x19 → 72 ≤ u32 r.bytes (offset + 4) →
        72 + 80 * u32 r.bytes (offset + 64) ≤ u32 r.bytes (offset + 4)) ∧
      (u32 r.bytes offset = 0x32 → 24 ≤ u32 r.bytes (offset + 4) →
        24 + 8 * u32 r.bytes (offset + 20) ≤ u32 r.bytes (offset + 4))) := by
  refine (LoadCommand.decode_judged ?_ ?_).of_iff ?_
  · simp only [Region.size, Array.size_extract] at inside ⊢
    omega
  · exact u32_extract (by omega)
  · refine and_congr ?_ ?_
    · refine imp_congr_right fun _ => imp_congr_right fun enough => ?_
      rw [u32_extract (by dsimp only at enough; omega)]
    · refine imp_congr_right fun _ => imp_congr_right fun enough => ?_
      rw [u32_extract (by dsimp only at enough; omega)]

theorem cutCommands_judged (r : Region) {stop : Nat} (inside : stop ≤ r.size)
    (offset index count : Nat) :
    Judged (Image.cutCommands r stop offset index count)
      (ValidCommands r.bytes stop offset count) := by
  induction count generalizing offset index with
  | zero => exact (sure_ok []).judged trivial
  | succ count ih =>
    have width : Record.size CommandHeader = 8 := rfl
    unfold Image.cutCommands ValidCommands
    dsimp only
    rw [width]
    split
    case isTrue overrun =>
      refine judged_corrupt _ fun valid => ?_
      have head := valid.1.head
      omega
    case isFalse head =>
      rw [head_of_le (by omega), ok_bind]
      dsimp only
      split
      case isTrue small =>
        refine judged_corrupt _ fun valid => ?_
        have least := valid.1.least
        omega
      case isFalse least =>
        split
        case isTrue overrun =>
          refine judged_corrupt _ fun valid => ?_
          have inside := valid.1.inside
          omega
        case isFalse ends =>
          rw [slice_of_le (by omega), ok_bind]
          have decoded := @command_judged r offset (by omega) (by omega)
          have judged := decoded.bind fun _ command _ =>
            ((ih (offset + u32 r.bytes (offset + 4)) (index + 1)).bind fun _ rest _ =>
              (sure_ok (command :: rest)).judged trivial)
          apply judged.of_iff
          constructor
          · intro valid
            obtain ⟨⟨sections, tools⟩, rest, -⟩ := valid
            exact ⟨⟨by omega, by omega, by omega, sections, tools⟩, rest⟩
          · intro valid
            exact ⟨⟨valid.1.sections, valid.1.tools⟩, valid.2, trivial⟩

theorem nameIn_sure (strings : Region) (index : Nat) : Sure (nameIn strings index) := by
  unfold nameIn
  split
  · exact sure_ok ""
  · split
    · exact sure_ok _
    case isFalse before =>
      have inside : strings.contains index 1 = true := by
        rw [Region.contains_iff]
        omega
      simp only [Region.cstring, Region.cstringBytes, inside, if_true]
      cases Region.terminator? strings.bytes (index : Int).toNat 16 with
      | none => exact sure_ok _
      | some stop => exact sure_ok _

theorem symbols_sure (c : SymbolTableCommand) (r : Region) : Sure (c.symbols r) := by
  unfold SymbolTableCommand.symbols
  split
  case isTrue inside =>
    split
    · exact sure_ok []
    case h_2 strings _ =>
      rw [Region.contains_iff] at inside
      have entries : Sure (r.records SymbolEntry c.symbolOffset c.symbolCount) :=
        records_sure (by omega)
      apply entries.bind
      intro es _
      apply sure_mapM
      intro e _
      obtain ⟨name, named⟩ := nameIn_sure strings e.value.nameIndex
      rw [Symbol.ofEntry, named]
      exact sure_ok _
  case isFalse => exact sure_ok []

theorem readSymbols_sure (r : Region) (t : Tables) : Sure (Image.readSymbols r t) := by
  unfold Image.readSymbols
  split
  · exact symbols_sure _ r
  · exact sure_ok []

theorem readMagic_of_le {r : Region} (long : 4 ≤ r.size) :
    Image.readMagic r = .ok (u32 r.bytes 0) := by
  rw [Image.readMagic, magic_of_le long]
  rfl

theorem readMagic_of_lt {r : Region} (short : r.size < 4) :
    Image.readMagic r = .error (.format .sliceTooSmall) := by
  rw [Image.readMagic, magic_of_lt short]

theorem checkMagic_of_ne {magic : Nat} (other : magic ≠ 0xFEEDFACF) :
    ∃ c, Image.checkMagic magic = .error (.format c) := by
  unfold Image.checkMagic
  split
  · exact ⟨_, rfl⟩
  · exact ⟨_, if_pos other⟩

theorem readHeader_judged (r : Region) : Judged (Image.readHeader r) (32 ≤ r.size) := by
  have width : Record.size Header = 32 := rfl
  unfold Image.readHeader
  by_cases enough : 32 ≤ r.size
  · have read : r.record Header 0 = .ok _ := @record_of_le Header _ r 0 enough
    rw [read]
    exact (sure_ok _).judged enough
  · have read : r.record Header 0 = .error _ := @record_of_lt Header _ r 0 (by omega)
    rw [read]
    exact judged_corrupt _ enough

theorem size_of_header {r : Region} {h : Placed Header} (read : Image.readHeader r = .ok h) :
    32 ≤ r.size := by
  refine Decidable.byContradiction fun short => ?_
  obtain ⟨c, refused⟩ := (readHeader_judged r).refused short
  cases read.symm.trans refused

theorem header_of_read {r : Region} {h : Placed Header} (read : Image.readHeader r = .ok h)
    (enough : 32 ≤ r.size) :
    h.value.commandCount = u32 r.bytes 16 ∧ h.value.commandsSize = u32 r.bytes 20 := by
  have inside : r.record Header 0 = .ok _ := @record_of_le Header _ r 0 enough
  rw [Image.readHeader, inside] at read
  cases read
  constructor
  · exact u32_extract (by decide)
  · exact u32_extract (by decide)

theorem readCommands_judged (r : Region) (h : Header) :
    Judged (Image.readCommands r h)
      (32 + h.commandsSize ≤ r.size ∧
        ValidCommands r.bytes (32 + h.commandsSize) 32 h.commandCount) := by
  rw [Image.readCommands_eq]
  split
  case isTrue overrun => exact judged_corrupt _ fun valid => Nat.not_le_of_lt overrun valid.1
  case isFalse fits =>
    have inside : 32 + h.commandsSize ≤ r.size := by omega
    have judged := cutCommands_judged r inside 32 0 h.commandCount
    exact (judged.map _).of_iff (and_iff_right inside).symm

theorem parse_judged (r : Region) (fileOffset : Nat) (right : ¬ WrongMagic r.bytes) :
    Judged (Image.parse r fileOffset) (ValidSlice r.bytes) := by
  have long : 4 ≤ r.size := Nat.le_of_not_lt fun short => right (Or.inl short)
  have magic : u32 r.bytes 0 = 0xFEEDFACF :=
    Decidable.byContradiction fun other => right (Or.inr other)
  have checked : Image.checkMagic 0xFEEDFACF = .ok () := rfl
  unfold Image.parse
  rw [readMagic_of_le long, ok_bind, magic, checked, ok_bind]
  have judged := (readHeader_judged r).bind fun enough header read =>
    ((readCommands_judged r header.value).of_iff (by
      rw [(header_of_read read enough).1, (header_of_read read enough).2])).bind
      fun _ list _ => ((readSymbols_sure r list.tables).bind fun symbols _ =>
        sure_ok ({ toCommandList := list, region := r, fileOffset, header, symbols } :
          Image)).judged trivial
  apply judged.of_iff
  constructor
  · intro valid
    obtain ⟨header, ⟨inside, commands⟩, -⟩ := valid
    exact ⟨header, magic, inside, commands⟩
  · intro valid
    exact ⟨valid.header, ⟨valid.inside, valid.commands⟩, trivial⟩

theorem parse_parts {r : Region} {fileOffset : Nat} {i : Image}
    (run : Image.parse r fileOffset = .ok i) :
    i.region = r ∧ i.fileOffset = fileOffset ∧ Image.readHeader r = .ok i.header ∧
      Image.readCommands r i.header.value = .ok i.toCommandList ∧
      Image.readSymbols r i.tables = .ok i.symbols := by
  obtain ⟨magic, -, run⟩ := of_bind_ok run
  obtain ⟨checked, -, run⟩ := of_bind_ok run
  obtain ⟨header, head, run⟩ := of_bind_ok run
  obtain ⟨list, walked, run⟩ := of_bind_ok run
  obtain ⟨symbols, named, run⟩ := of_bind_ok run
  cases run
  exact ⟨rfl, rfl, head, walked, named⟩

/-- Bytes are valid, or of another format, or corrupt, and how a reading ends tells which. -/
structure Classified {α : Type} (x : Except Fault α) (valid foreign : Prop) : Prop where
  accepted : valid → Sure x
  otherFormat : foreign → ∃ c, x = .error (.format c)
  refused : ¬ valid → ¬ foreign → ∃ c, x = .error (.corrupt c)

theorem classified_format {α : Type} {valid foreign : Prop} (c : FormatFault)
    (invalid : ¬ valid) (isForeign : foreign) :
    Classified (.error (.format c) : Except Fault α) valid foreign :=
  ⟨fun h => absurd h invalid, fun _ => ⟨c, rfl⟩, fun _ h => absurd isForeign h⟩

theorem Judged.classified {α : Type} {x : Except Fault α} {valid foreign : Prop}
    (judged : Judged x valid) (native : ¬ foreign) : Classified x valid foreign :=
  ⟨judged.accepted, fun h => absurd h native, fun invalid _ => judged.refused invalid⟩

theorem parse_classified (r : Region) (fileOffset : Nat) :
    Classified (Image.parse r fileOffset) (ValidSlice r.bytes) (WrongMagic r.bytes) := by
  by_cases wrong : WrongMagic r.bytes
  · have invalid : ¬ ValidSlice r.bytes := fun valid => valid.not_wrongMagic wrong
    by_cases long : 4 ≤ r.size
    · have other : u32 r.bytes 0 ≠ 0xFEEDFACF := by
        rcases wrong with short | other
        · exact absurd short (Nat.not_lt_of_le long)
        · exact other
      obtain ⟨c, refused⟩ := checkMagic_of_ne other
      rw [Image.parse, readMagic_of_le long, ok_bind, refused]
      exact classified_format c invalid wrong
    · rw [Image.parse, readMagic_of_lt (Nat.lt_of_not_le long)]
      exact classified_format _ invalid wrong
  · exact (parse_judged r fileOffset wrong).classified wrong

end MachImage
