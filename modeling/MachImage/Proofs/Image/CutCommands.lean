import MachImage.Image.Basic
import MachImage.Proofs.Image.Bounds
/-!
Commands cut out before they are decoded. The parse reads the records of a command out of the whole
slice, at places that the command itself tells. Its guards keep all of them within the command, so
that nothing changes if the bytes of the command are cut out first and decoded on their own.
-/
namespace MachImage
open Record Halting Parse

theorem Parse.fst_outcome_map {ε β γ : Type} (step : Parse ε β) (f : β → γ) (t : Tables) :
    ((step >>= fun b => pure (f b)).outcome t).1 = (step.outcome t).1.map f := by
  rw [outcome_bind]
  rcases step.outcome t with ⟨e | b, s⟩
  · rfl
  · rfl

namespace LoadCommand

def decodeSegment (bytes : Region) (c : Placed SegmentCommand) : Except Fault LoadCommand := do
  let count := c.value.sectionCount
  let start := Record.size SegmentCommand
  if count ≠ 0 ∧ c.value.cmdSize < start + count * Record.size SectionHeader then
    throw (.corrupt (.sectionsOverrun (Utf8.decode c.value.name) count c.value.cmdSize))
  let headers ← bytes.records SectionHeader start count
  return .segment ⟨c, headers.map (⟨·, c⟩)⟩

def decodeBuildVersion (bytes : Region) (offset : Nat) (c : Placed BuildVersion) :
    Except Fault LoadCommand := do
  let count := c.value.toolCount
  let start := Record.size BuildVersion
  if c.value.cmdSize < start + count * Record.size BuildTool then
    throw (.corrupt (.toolsOverrun offset))
  return .buildVersion c (← bytes.records BuildTool start count)

def whole (α : Type) [Record α] (bytes : Region) (undecoded : LoadCommand)
    (make : Placed α → Except Fault LoadCommand) : Except Fault LoadCommand :=
  match bytes.record α 0 with
  | .ok c => make c
  | .error _ => .ok undecoded

def decode (bytes : Region) (offset : Nat) (head : CommandHeader) : Except Fault LoadCommand :=
  let undecoded : LoadCommand := .undecoded head.cmd head.cmdSize offset
  match CommandKind.ofCode head.cmd with
  | .segment => whole SegmentCommand bytes undecoded (decodeSegment bytes)
  | .encryption => whole EncryptionInfo bytes undecoded (.ok ∘ .encryption)
  | .symbolTable => whole SymbolTableCommand bytes undecoded (.ok ∘ .symbolTable)
  | .dynamicTable => whole DynamicTableCommand bytes undecoded (.ok ∘ .dynamicTable)
  | .linkInfo => whole LinkInfoCommand bytes undecoded (.ok ∘ .linkInfo)
  | .linkedit => whole LinkeditData bytes undecoded (.ok ∘ .linkedit)
  | .dylib => whole DylibCommand bytes undecoded fun c =>
      .ok (.dylib ⟨c, path bytes c.value.nameOffset⟩)
  | .dylinker => whole DylinkerCommand bytes undecoded fun c =>
      .ok (.dylinker ⟨c, path bytes c.value.nameOffset⟩)
  | .uuid => whole Uuid bytes undecoded (.ok ∘ .uuid)
  | .versionMinimum => whole VersionMinimum bytes undecoded (.ok ∘ .versionMinimum)
  | .sourceVersion => whole SourceVersion bytes undecoded (.ok ∘ .sourceVersion)
  | .entryPoint => whole EntryPoint bytes undecoded (.ok ∘ .entryPoint)
  | .buildVersion => whole BuildVersion bytes undecoded (decodeBuildVersion bytes offset)
  | .other => .ok undecoded

section
variable {α : Type} [Record α] {r own : Region} {o : Nat} {head : CommandHeader} {t : Tables}

/-- The guard before a row of records keeps the row within the command. -/
theorem records_of_cut (cut : r.slice o head.cmdSize = .ok own) {k count : Nat}
    (within : k + count * Record.size α ≤ head.cmdSize) :
    r.records α (o + k) count = own.records α k count := by
  induction count generalizing k with
  | zero => rfl
  | succ count ih =>
    rw [Nat.succ_mul] at within
    have first := (Region.Reads.record α).of_slice cut (o := k)
      ⟨Int.natCast_nonneg _, Int.natCast_nonneg _, by omega⟩
    rw [Region.records, Region.records, first, Nat.add_assoc, ih (by omega), Int.natCast_add]

theorem outcome_readEach (add : Placed α → Tables → Tables) (start count : Nat) (t : Tables) :
    ((readEach r α add start count).outcome t).1 = (r.records α start count).mapError .fault := by
  induction count generalizing start t with
  | zero => rfl
  | succ count ih =>
    rw [readEach, Region.records, outcome_bind, ofRead, outcome_ofResult]
    cases r.record α start with
    | error e => rfl
    | ok x =>
      change ((readEach r α add _ count >>= fun xs => pure (x :: xs)).outcome (add x t)).1 = _
      rw [fst_outcome_map, ih, ok_bind]
      cases r.records α (start + Record.size α) count with
      | error e => rfl
      | ok xs => rfl

theorem settle_readEach (cut : r.slice o head.cmdSize = .ok own) {k count : Nat}
    (within : k + count * Record.size α ≤ head.cmdSize) {add : Placed α → Tables → Tables}
    {next : List (Placed α) → Parse Halt LoadCommand} {built : List (Placed α) → LoadCommand}
    (made : ∀ xs t, ((next xs).outcome t).1 = .ok (built xs)) :
    settle o head ((readEach r α add (o + k) count >>= next).outcome t).1 =
      (own.records α k count >>= fun xs => .ok (built xs)) := by
  have read := outcome_readEach (r := r) add (o + k) count t
  rw [records_of_cut cut within] at read
  rw [outcome_bind]
  generalize (readEach r α add (o + k) count).outcome t = ending at read ⊢
  obtain ⟨ended, s⟩ := ending
  cases held : own.records α k count with
  | error e =>
    rw [held] at read
    cases read
    rfl
  | ok xs =>
    rw [held] at read
    cases read
    exact congrArg (settle o head) (made xs s)

theorem settle_readWhole (cut : r.slice o head.cmdSize = .ok own)
    {next : Placed α → Parse Halt LoadCommand} {make : Placed α → Except Fault LoadCommand}
    (made : ∀ c t, r.record α o = .ok c → Record.size α ≤ head.cmdSize →
      settle o head ((next c).outcome t).1 = make c) :
    settle o head ((readWhole r o head α >>= next).outcome t).1 =
      whole α own (undecodedAt o head) make := by
  have size := Region.size_of_slice cut
  rw [outcome_bind, outcome_readWhole]
  by_cases small : head.cmdSize < Record.size α
  · have short : own.size < 0 + Record.size α := by omega
    rw [if_pos small, whole, show (0 : Int) = (0 : Nat) from rfl, record_of_lt short]
    rfl
  · have same := (Region.Reads.record α).of_slice cut (o := 0)
      ⟨Int.le_refl 0, Int.natCast_nonneg _, by omega⟩
    have long : 0 + Record.size α ≤ own.size := by omega
    rw [Int.add_zero] at same
    have read : own.record α 0 = .ok _ := record_of_le long
    rw [if_neg small, ← same, read, whole, read]
    exact made _ t (same.symm.trans read) (Nat.le_of_not_lt small)

theorem settle_parseRecord (cut : r.slice o head.cmdSize = .ok own)
    {make : Placed α → LoadCommand} {add : Placed α → Tables → Tables} :
    settle o head ((parseRecord r o head α make add).outcome t).1 =
      whole α own (undecodedAt o head) (.ok ∘ make) :=
  settle_readWhole cut fun _ _ _ _ => rfl

end

section
variable {r own : Region} {o : Nat} {head : CommandHeader} {t : Tables}
  (cut : r.slice o head.cmdSize = .ok own) (declared : head.cmdSize = u32 r.bytes (o + 4))
include cut declared

theorem settle_parseSegment :
    settle o head ((parseSegment r o head).outcome t).1 =
      whole SegmentCommand own (undecodedAt o head) (decodeSegment own) := by
  refine settle_readWhole cut fun c t read long => ?_
  have size : c.value.cmdSize = head.cmdSize :=
    (word_of_record (·.cmdSize) 4 (fun _ => rfl) (by decide) read).trans declared.symm
  unfold decodeSegment
  dsimp only
  split
  case isTrue overrun => rfl
  case isFalse fitting =>
    have within : 72 + c.value.sectionCount * 80 ≤ head.cmdSize := by
      have start : Record.size SegmentCommand = 72 := rfl
      have width : Record.size SectionHeader = 80 := rfl
      rw [start] at long fitting
      rw [width, size] at fitting
      omega
    exact settle_readEach cut within fun _ _ => rfl

theorem settle_parseBuildVersion :
    settle o head ((parseBuildVersion r o head).outcome t).1 =
      whole BuildVersion own (undecodedAt o head) (decodeBuildVersion own o) := by
  refine settle_readWhole cut fun c t read long => ?_
  have size : c.value.cmdSize = head.cmdSize :=
    (word_of_record (·.cmdSize) 4 (fun _ => rfl) (by decide) read).trans declared.symm
  unfold decodeBuildVersion
  dsimp only
  split
  case isTrue overrun => rfl
  case isFalse fitting =>
    have within : 24 + c.value.toolCount * 8 ≤ head.cmdSize := by
      rw [← size]
      exact Nat.le_of_not_lt fitting
    exact settle_readEach cut within fun _ _ => rfl

theorem settle_parseDylib : settle o head ((parseDylib r o head).outcome t).1 =
    whole DylibCommand own (undecodedAt o head) fun c =>
      .ok (.dylib ⟨c, path own c.value.nameOffset⟩) := by
  refine settle_readWhole cut fun c t read long => ?_
  have size : c.value.cmdSize = head.cmdSize :=
    (word_of_record (·.cmdSize) 4 (fun _ => rfl) (by decide) read).trans declared.symm
  unfold readPath ofRead
  rw [size, cut]
  rfl

theorem settle_parseDylinker : settle o head ((parseDylinker r o head).outcome t).1 =
    whole DylinkerCommand own (undecodedAt o head) fun c =>
      .ok (.dylinker ⟨c, path own c.value.nameOffset⟩) := by
  refine settle_readWhole cut fun c t read long => ?_
  have size : c.value.cmdSize = head.cmdSize :=
    (word_of_record (·.cmdSize) 4 (fun _ => rfl) (by decide) read).trans declared.symm
  unfold readPath ofRead
  rw [size, cut]
  rfl

theorem fst_outcome_parse : ((parse r o head).outcome t).1 = decode own o head := by
  rw [outcome_parse]
  unfold parseKnown decode
  dsimp only
  cases CommandKind.ofCode head.cmd with
  | segment => exact settle_parseSegment cut declared
  | buildVersion => exact settle_parseBuildVersion cut declared
  | dylib => exact settle_parseDylib cut declared
  | dylinker => exact settle_parseDylinker cut declared
  | other => rfl
  | encryption | symbolTable | dynamicTable | linkInfo | linkedit | uuid | versionMinimum
  | sourceVersion | entryPoint => exact settle_parseRecord cut

end

end LoadCommand

namespace Image

def cutCommands (r : Region) (stop : Nat) :
    (offset index count : Nat) → Except Fault (List LoadCommand)
  | _, _, 0 => .ok []
  | offset, index, count + 1 => do
    if stop < offset + Record.size CommandHeader then
      throw (.corrupt (.commandOutside index offset))
    let head := (← r.record CommandHeader offset).value
    if head.cmdSize < Record.size CommandHeader then
      throw (.corrupt (.commandTooSmall index offset head.cmdSize))
    if stop < offset + head.cmdSize then
      throw (.corrupt (.commandOverrun index offset head.cmdSize))
    let command ← LoadCommand.decode (← r.slice offset head.cmdSize) offset head
    return command :: (← cutCommands r stop (offset + head.cmdSize) (index + 1) count)

theorem fst_outcome_walkCommands {r : Region} {stop : Nat} (inside : stop ≤ r.size)
    (offset index count : Nat) (t : Tables) :
    ((walkCommands r stop offset index count).outcome t).1 =
      cutCommands r stop offset index count := by
  induction count generalizing offset index t with
  | zero => rfl
  | succ count ih =>
    unfold walkCommands cutCommands
    split
    · rfl
    · rw [outcome_bind, outcome_ofResult]
      cases read : r.record CommandHeader offset with
      | error e => rfl
      | ok head =>
        have declared := word_of_record (·.cmdSize) 4 (fun _ => rfl) (by decide) read
        dsimp only
        rw [ok_bind]
        split
        · rfl
        · split
          · rfl
          case isFalse within =>
            have fits : offset + head.value.cmdSize ≤ r.size := by omega
            have parsed := @LoadCommand.fst_outcome_parse r _ offset head.value t
              (slice_of_le fits) declared
            rw [slice_of_le fits, ok_bind, ← parsed, outcome_bind]
            rcases (LoadCommand.parse r offset head.value).outcome t with ⟨e | command, s⟩
            · rfl
            · dsimp only
              rw [ok_bind, fst_outcome_map, ih]
              rfl

theorem readCommands_eq (r : Region) (h : Header) :
    readCommands r h =
      if r.size < 32 + h.commandsSize then
        .error (.corrupt (.commandsOutside (32 + h.commandsSize)))
      else (cutCommands r (32 + h.commandsSize) 32 0 h.commandCount).map .ofCommands := by
  unfold readCommands
  dsimp only
  rw [CommandList.ofOutcome_eq]
  change (if r.size < 32 + h.commandsSize then _ else _) = _
  split
  · rfl
  case isFalse inside =>
    exact congrArg _ (fst_outcome_walkCommands (Nat.le_of_not_lt inside) 32 0 h.commandCount {})

end Image
end MachImage
