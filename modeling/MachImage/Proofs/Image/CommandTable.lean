import MachImage.Proofs.Image.Validity
/-!
The list of commands, read straight from the bytes of the slice. Each command begins where the sizes
of those before it end, and is what its code and its size there make of it. That its bytes are cut
out before they are decoded changes nothing.
-/
namespace MachImage
open Record

def CommandKind.leastSize : CommandKind → Nat
  | .segment => Record.size SegmentCommand
  | .encryption => Record.size EncryptionInfo
  | .symbolTable => Record.size SymbolTableCommand
  | .dynamicTable => Record.size DynamicTableCommand
  | .linkInfo => Record.size LinkInfoCommand
  | .linkedit => Record.size LinkeditData
  | .dylib => Record.size DylibCommand
  | .dylinker => Record.size DylinkerCommand
  | .uuid => Record.size Uuid
  | .versionMinimum => Record.size VersionMinimum
  | .sourceVersion => Record.size SourceVersion
  | .entryPoint => Record.size EntryPoint
  | .buildVersion => Record.size BuildVersion
  | .other => 0

namespace LoadCommand

def kind : LoadCommand → CommandKind
  | .segment _ => .segment
  | .encryption _ => .encryption
  | .symbolTable _ => .symbolTable
  | .dynamicTable _ => .dynamicTable
  | .linkInfo _ => .linkInfo
  | .linkedit _ => .linkedit
  | .dylib _ => .dylib
  | .dylinker _ => .dylinker
  | .uuid _ => .uuid
  | .versionMinimum _ => .versionMinimum
  | .sourceVersion _ => .sourceVersion
  | .entryPoint _ => .entryPoint
  | .buildVersion .. => .buildVersion
  | .undecoded .. => .other

def code : LoadCommand → Nat
  | .segment s => s.command.value.cmd
  | .encryption c => c.value.cmd
  | .symbolTable c => c.value.cmd
  | .dynamicTable c => c.value.cmd
  | .linkInfo c => c.value.cmd
  | .linkedit c => c.value.cmd
  | .dylib d => d.command.value.cmd
  | .dylinker d => d.command.value.cmd
  | .uuid c => c.value.cmd
  | .versionMinimum c => c.value.cmd
  | .sourceVersion c => c.value.cmd
  | .entryPoint c => c.value.cmd
  | .buildVersion c _ => c.value.cmd
  | .undecoded code _ _ => code

/-- The records of a command lie at `o`: sections and tools directly behind it, and a name within
its size. -/
def LiesAt (r : Region) (o : Nat) : LoadCommand → Prop
  | .segment s => r.record SegmentCommand o = .ok s.command ∧
      ∃ headers, r.records SectionHeader (o + 72) s.command.value.sectionCount = .ok headers ∧
        s.sections = headers.map (⟨·, s.command⟩)
  | .encryption c => r.record EncryptionInfo o = .ok c
  | .symbolTable c => r.record SymbolTableCommand o = .ok c
  | .dynamicTable c => r.record DynamicTableCommand o = .ok c
  | .linkInfo c => r.record LinkInfoCommand o = .ok c
  | .linkedit c => r.record LinkeditData o = .ok c
  | .dylib d => r.record DylibCommand o = .ok d.command ∧
      ∃ own, r.slice o (u32 r.bytes (o + 4)) = .ok own ∧
        d.name = path own d.command.value.nameOffset
  | .dylinker d => r.record DylinkerCommand o = .ok d.command ∧
      ∃ own, r.slice o (u32 r.bytes (o + 4)) = .ok own ∧
        d.name = path own d.command.value.nameOffset
  | .uuid c => r.record Uuid o = .ok c
  | .versionMinimum c => r.record VersionMinimum o = .ok c
  | .sourceVersion c => r.record SourceVersion o = .ok c
  | .entryPoint c => r.record EntryPoint o = .ok c
  | .buildVersion c tools => r.record BuildVersion o = .ok c ∧
      r.records BuildTool (o + 24) c.value.toolCount = .ok tools
  | .undecoded _ size offset => size = u32 r.bytes (o + 4) ∧ offset = o

/-- The kind is that of the code at `o`, unless the size there is too small for it. -/
structure DecodedAt (r : Region) (o : Nat) (command : LoadCommand) : Prop where
  code : command.code = u32 r.bytes o
  kind : command.kind =
    if (CommandKind.ofCode (u32 r.bytes o)).leastSize ≤ u32 r.bytes (o + 4) then
      CommandKind.ofCode (u32 r.bytes o)
    else .other
  lies : command.LiesAt r o

section
variable {α : Type} [Record α] {r own : Region} {o : Nat} {command : LoadCommand}

theorem first_of_record (first : α → Nat)
    (decoded : ∀ bs, first (Record.decode bs) = u32 bs 0) (large : 4 ≤ Record.size α)
    {c : Placed α} (read : r.record α o = .ok c) : first c.value = u32 r.bytes o :=
  word_of_record first 0 decoded (by omega) read

theorem decodedAt_of_whole {make : Placed α → Except Fault LoadCommand}
    (cut : r.slice o (u32 r.bytes (o + 4)) = .ok own)
    (least : (CommandKind.ofCode (u32 r.bytes o)).leastSize = Record.size α)
    (made : ∀ c, r.record α o = .ok c → make c = .ok command →
      command.code = u32 r.bytes o ∧ command.kind = CommandKind.ofCode (u32 r.bytes o) ∧
        command.LiesAt r o)
    (run : whole α own (.undecoded (u32 r.bytes o) (u32 r.bytes (o + 4)) o) make = .ok command) :
    command.DecodedAt r o := by
  have size := Int.ofNat_inj.1 (Region.size_of_slice cut)
  unfold whole at run
  by_cases enough : Record.size α ≤ own.size
  · have read : own.record α (0 : Nat) = .ok _ := @record_of_le α _ own 0 (by omega)
    rw [show (0 : Int) = (0 : Nat) from rfl, read] at run
    obtain ⟨code, kind, lies⟩ := made _ (record_of_slice cut read) run
    exact ⟨code, by rw [kind, if_pos (by omega)], lies⟩
  · have read : own.record α 0 = .error _ := @record_of_lt α _ own 0 (by omega)
    rw [read] at run
    cases run
    exact ⟨rfl, by rw [if_neg (by omega)]; rfl, rfl, rfl⟩

theorem decodedAt_of_record {kind : CommandKind} {make : Placed α → Except Fault LoadCommand}
    {built : Placed α → LoadCommand} (cut : r.slice o (u32 r.bytes (o + 4)) = .ok own)
    (announced : CommandKind.ofCode (u32 r.bytes o) = kind) (first : α → Nat)
    (decoded : ∀ bs, first (Record.decode bs) = u32 bs 0) (large : 4 ≤ Record.size α)
    (least : kind.leastSize = Record.size α) (made : ∀ c, make c = .ok (built c))
    (shape : ∀ c, (built c).code = first c.value ∧ (built c).kind = kind)
    (lies : ∀ c, r.record α o = .ok c → (built c).LiesAt r o)
    (run : whole α own (.undecoded (u32 r.bytes o) (u32 r.bytes (o + 4)) o) make = .ok command) :
    command.DecodedAt r o := by
  subst announced
  refine decodedAt_of_whole cut least (fun c read held => ?_) run
  rw [made, Except.ok.injEq] at held
  subst held
  exact ⟨(shape c).1.trans (first_of_record first decoded large read), (shape c).2, lies c read⟩

theorem segment_at (cut : r.slice o (u32 r.bytes (o + 4)) = .ok own)
    (announced : CommandKind.ofCode (u32 r.bytes o) = .segment)
    (run : whole SegmentCommand own (.undecoded (u32 r.bytes o) (u32 r.bytes (o + 4)) o)
      (decodeSegment own) = .ok command) : command.DecodedAt r o := by
  refine decodedAt_of_whole cut (by rw [announced]; rfl) (fun c read made => ?_) run
  unfold decodeSegment at made
  dsimp only at made
  split at made
  · cases made
  · obtain ⟨headers, held, made⟩ := of_bind_ok made
    cases made
    have code := first_of_record (·.cmd) (fun _ => rfl) (by decide) read
    exact ⟨code, announced.symm, read, headers, records_of_slice cut held, rfl⟩

theorem buildVersion_at (cut : r.slice o (u32 r.bytes (o + 4)) = .ok own)
    (announced : CommandKind.ofCode (u32 r.bytes o) = .buildVersion)
    (run : whole BuildVersion own (.undecoded (u32 r.bytes o) (u32 r.bytes (o + 4)) o)
      (decodeBuildVersion own o) = .ok command) : command.DecodedAt r o := by
  refine decodedAt_of_whole cut (by rw [announced]; rfl) (fun c read made => ?_) run
  unfold decodeBuildVersion at made
  dsimp only at made
  split at made
  · cases made
  · obtain ⟨tools, held, made⟩ := of_bind_ok made
    cases made
    have code := first_of_record (·.cmd) (fun _ => rfl) (by decide) read
    exact ⟨code, announced.symm, read, records_of_slice cut held⟩

theorem decode_at (cut : r.slice o (u32 r.bytes (o + 4)) = .ok own)
    (run : decode own o ⟨u32 r.bytes o, u32 r.bytes (o + 4)⟩ = .ok command) :
    command.DecodedAt r o := by
  unfold decode at run
  dsimp only at run
  cases kind : CommandKind.ofCode (u32 r.bytes o) with
  | segment =>
    rw [kind] at run
    exact segment_at cut kind run
  | buildVersion =>
    rw [kind] at run
    exact buildVersion_at cut kind run
  | other =>
    rw [kind] at run
    cases run
    exact ⟨rfl, by simp [kind, LoadCommand.kind], rfl, rfl⟩
  | dylib | dylinker =>
    rw [kind] at run
    refine decodedAt_of_record cut kind (·.cmd) (fun _ => rfl) (by decide) rfl (fun _ => rfl)
      (fun _ => ⟨rfl, rfl⟩) ?_ run
    exact fun c read => ⟨read, own, cut, rfl⟩
  | _ =>
    rw [kind] at run
    refine decodedAt_of_record cut kind (·.cmd) (fun _ => rfl) (by decide) rfl (fun _ => rfl)
      (fun _ => ⟨rfl, rfl⟩) ?_ run
    exact fun c read => read

end

end LoadCommand

def commandOffset (bs : Array UInt8) : Nat → Nat
  | 0 => 32
  | k + 1 => commandOffset bs k + u32 bs (commandOffset bs k + 4)

/-- A command that is what its own bytes decode to, all of them before `stop`. -/
structure LoadCommand.CutFrom (r : Region) (stop o : Nat) (command : LoadCommand) : Prop where
  least : 8 ≤ u32 r.bytes (o + 4)
  within : o + u32 r.bytes (o + 4) ≤ stop
  decoded : LoadCommand.decode
    { bytes := r.bytes.extract o (o + u32 r.bytes (o + 4)), base := r.base + o } o
    ⟨u32 r.bytes o, u32 r.bytes (o + 4)⟩ = .ok command

theorem cutCommands_step {r : Region} {stop : Nat} (inside : stop ≤ r.size)
    {offset index count : Nat} {commands : List LoadCommand}
    (run : Image.cutCommands r stop offset index (count + 1) = .ok commands) :
    ∃ command rest, commands = command :: rest ∧ command.CutFrom r stop offset ∧
      Image.cutCommands r stop (offset + u32 r.bytes (offset + 4)) (index + 1) count =
        .ok rest := by
  have width : Record.size CommandHeader = 8 := rfl
  unfold Image.cutCommands at run
  dsimp only at run
  rw [width] at run
  split at run
  case isTrue => cases run
  case isFalse head =>
    rw [head_of_le (by omega), ok_bind] at run
    dsimp only at run
    split at run
    case isTrue => cases run
    case isFalse least =>
      split at run
      case isTrue => cases run
      case isFalse within =>
        rw [slice_of_le (by omega), ok_bind] at run
        obtain ⟨command, decoded, run⟩ := of_bind_ok run
        obtain ⟨rest, later, run⟩ := of_bind_ok run
        cases run
        exact ⟨command, rest, rfl, ⟨by omega, by omega, decoded⟩, later⟩

theorem cutCommands_cut {r : Region} {stop : Nat} (inside : stop ≤ r.size) {k index count : Nat}
    {commands : List LoadCommand}
    (run : Image.cutCommands r stop (commandOffset r.bytes k) index count = .ok commands) :
    commands.length = count ∧ ∀ (n : Nat) (command : LoadCommand), commands[n]? = some command →
      command.CutFrom r stop (commandOffset r.bytes (k + n)) := by
  induction count generalizing k index commands with
  | zero =>
    cases run
    simp
  | succ count ih =>
    obtain ⟨first, rest, rfl, cut, later⟩ := cutCommands_step inside run
    obtain ⟨length, others⟩ := @ih (k + 1) _ _ later
    refine ⟨congrArg (· + 1) length, ?_⟩
    intro n command held
    cases n with
    | zero =>
      cases held
      exact cut
    | succ n =>
      have held := others n command held
      rwa [Nat.add_right_comm, Nat.add_assoc] at held

theorem cutCommands_at {r : Region} {stop : Nat} (inside : stop ≤ r.size) {k index count : Nat}
    {commands : List LoadCommand}
    (run : Image.cutCommands r stop (commandOffset r.bytes k) index count = .ok commands) :
    commands.length = count ∧ ∀ (n : Nat) (command : LoadCommand), commands[n]? = some command →
      command.DecodedAt r (commandOffset r.bytes (k + n)) := by
  obtain ⟨length, cuts⟩ := cutCommands_cut inside run
  refine ⟨length, ?_⟩
  intro n command held
  have cut := cuts n command held
  exact LoadCommand.decode_at (slice_of_le (Nat.le_trans cut.within inside)) cut.decoded

theorem parse_cut_all {r : Region} {fileOffset : Nat} {i : Image}
    (run : Image.parse r fileOffset = .ok i) :
    i.header.value.commandCount = u32 r.bytes 16 ∧ 32 + u32 r.bytes 20 ≤ r.size ∧
      Image.cutCommands r (32 + u32 r.bytes 20) 32 0 (u32 r.bytes 16) = .ok i.commands := by
  obtain ⟨-, -, head, walked, -⟩ := parse_parts run
  obtain ⟨count, size⟩ := header_of_read head (size_of_header head)
  rw [Image.readCommands_eq, count, size] at walked
  split at walked
  case isTrue => cases walked
  case isFalse inside =>
    refine ⟨count, Nat.le_of_not_lt inside, ?_⟩
    cases cut : Image.cutCommands r (32 + u32 r.bytes 20) 32 0 (u32 r.bytes 16) with
    | error e =>
      rw [cut] at walked
      cases walked
    | ok commands =>
      rw [cut] at walked
      exact congrArg Except.ok (congrArg CommandList.commands (Except.ok.inj walked))

theorem commands_decoded {r : Region} {fileOffset : Nat} {i : Image}
    (run : Image.parse r fileOffset = .ok i) :
    i.commands.length = u32 r.bytes 16 ∧
      ∀ (k : Nat) (command : LoadCommand), i.commands[k]? = some command →
        command.DecodedAt r (commandOffset r.bytes k) := by
  obtain ⟨-, inside, walked⟩ := parse_cut_all run
  obtain ⟨length, decoded⟩ := @cutCommands_at r _ inside 0 _ _ _ walked
  simp only [Nat.zero_add] at decoded
  exact ⟨length, decoded⟩

end MachImage
