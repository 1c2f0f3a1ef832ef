import MachImage.Proofs.Image.CommandTable
import MachImage.Proofs.Image.Tables
import MachImage.Proofs.Index.Origins
/-!
What a list of commands determines. Each step of the parse adds its command to the tables, by the
rule of its kind, and a command that is too small for its kind leaves them as they were. After the
run every place of the tables holds all commands of one kind, the first or the last.
-/
namespace MachImage
open Record

section
variable {α : Type} {pick : LoadCommand → Option α} {build : α → LoadCommand}
  {chosen : LoadCommand → Bool}

theorem map_picked (picks : ∀ c, (pick c).map build = if chosen c then some c else none)
    (commands : List LoadCommand) :
    (commands.filterMap pick).map build = commands.filter chosen := by
  rw [List.map_filterMap, ← List.filterMap_eq_filter]
  congr 1
  funext c
  rw [picks]
  rfl

theorem last_picked (picks : ∀ c, (pick c).map build = if chosen c then some c else none)
    (commands : List LoadCommand) :
    (commands.filterMap pick).getLast?.map build = (commands.filter chosen).getLast? := by
  rw [← List.getLast?_map, map_picked picks]

end

namespace Image

/-- How the views of an image follow from its commands. -/
structure Viewed (i : Image) : Prop where
  segments : i.segments.map .segment = i.commands.filter (·.kind = .segment)
  sections : i.sections = i.segments.flatMap (·.sections)
  dylibs : i.dylibs.map .dylib = i.commands.filter fun c => c.kind = .dylib ∧ c.code ≠ 0xD
  dylibAt : ∀ n : Nat, i.dylibAt? (n + 1 : Nat) = i.dylibs[n]?
  noDylibAt : ∀ n : Int, n < 1 → i.dylibAt? n = none
  idDylib : i.idDylib?.map .dylib =
    (i.commands.filter fun c => c.kind = .dylib ∧ c.code = 0xD).getLast?
  dylinker : i.dylinker?.map .dylinker = (i.commands.filter (·.kind = .dylinker)).getLast?
  symbolTable : i.symbolTable?.map .symbolTable =
    (i.commands.filter (·.kind = .symbolTable)).getLast?
  dynamicTable : i.dynamicTable?.map .dynamicTable =
    (i.commands.filter (·.kind = .dynamicTable)).getLast?
  linkInfo : i.linkInfo?.map .linkInfo = (i.commands.filter (·.kind = .linkInfo)).getLast?
  uuid : i.uuid?.map .uuid = (i.commands.filter (·.kind = .uuid)).getLast?
  entryPoint : i.entryPoint?.map .entryPoint =
    (i.commands.filter (·.kind = .entryPoint)).getLast?
  sourceVersion : i.sourceVersion?.map .sourceVersion =
    (i.commands.filter (·.kind = .sourceVersion)).getLast?
  versionMinimum : i.versionMinimum?.map .versionMinimum =
    (i.commands.filter (·.kind = .versionMinimum)).getLast?
  buildVersion : i.buildVersion?.map (fun (c, tools) => .buildVersion c tools) =
    (i.commands.filter (·.kind = .buildVersion)).getLast?
  encryption : ∀ id range, i.encryption[id]? = some range ↔
    ∃ before c after, i.commands = before ++ .encryption c :: after ∧ c.value.cryptId = id ∧
      range = (c.value.cryptOffset, c.value.cryptSize) ∧
        ∀ d, .encryption d ∈ after → d.value.cryptId ≠ id
  linkedit : ∀ code c, i.linkedit[code]? = some c ↔
    ∃ before after, i.commands = before ++ .linkedit c :: after ∧ c.value.cmd = code ∧
      ∀ d, .linkedit d ∈ before → d.value.cmd ≠ code
  virtualBase : ∀ before s after, i.segments = before ++ s :: after → s.name = "__TEXT" →
    (∀ t ∈ before, t.name ≠ "__TEXT") → i.virtualBase = s.address
  defaultBase : (∀ s ∈ i.segments, s.name ≠ "__TEXT") → i.virtualBase = 0x100000000

theorem encryption_iff (i : Image) (id : Nat) (range : Nat × Nat) :
    i.encryption[id]? = some range ↔
      ∃ before c after, i.commands = before ++ .encryption c :: after ∧ c.value.cryptId = id ∧
        range = (c.value.cryptOffset, c.value.cryptSize) ∧
          ∀ d, .encryption d ∈ after → d.value.cryptId ≠ id := by
  rw [encryption_eq, Index.getElem?_last_iff]
  constructor
  · rintro ⟨before, c, after, whole, picked, later⟩
    cases c <;> cases picked
    exact ⟨before, _, after, whole, rfl, rfl, fun d member => later _ member _ rfl⟩
  · rintro ⟨before, c, after, whole, rfl, rfl, later⟩
    refine ⟨before, _, after, whole, rfl, ?_⟩
    intro d member p picked
    cases d <;> cases picked
    exact later _ member

theorem linkedit_iff (i : Image) (code : Nat) (c : Placed LinkeditData) :
    i.linkedit[code]? = some c ↔
      ∃ before after, i.commands = before ++ .linkedit c :: after ∧ c.value.cmd = code ∧
        ∀ d, .linkedit d ∈ before → d.value.cmd ≠ code := by
  rw [linkedit_eq, Index.getElem?_first_iff]
  constructor
  · rintro ⟨before, c, after, whole, picked, earlier⟩
    cases c <;> cases picked
    exact ⟨before, after, whole, rfl, fun d member => earlier _ member _ rfl⟩
  · rintro ⟨before, after, whole, rfl, earlier⟩
    refine ⟨before, _, after, whole, rfl, ?_⟩
    intro d member p picked
    cases d <;> cases picked
    exact earlier _ member

theorem map_namedDylibs (i : Image) :
    i.namedDylibs.map .dylib = i.commands.filter (·.kind = .dylib) :=
  map_picked (fun c => by cases c <;> rfl) i.commands

theorem map_dylibs_of (i : Image) (keep : Nat → Bool) :
    (i.namedDylibs.filter (keep ·.command.value.cmd)).map .dylib =
      i.commands.filter fun c => c.kind = .dylib ∧ keep c.code := by
  have same : i.namedDylibs.filter (keep ·.command.value.cmd) =
      i.namedDylibs.filter ((fun c : LoadCommand => keep c.code) ∘ .dylib) := rfl
  rw [same, ← List.filter_map, map_namedDylibs, List.filter_filter]
  congr 1
  funext c
  rw [Bool.and_comm, Bool.decide_and, Bool.decide_eq_true]

theorem dylibAt?_succ (i : Image) (n : Nat) : i.dylibAt? (n + 1 : Nat) = i.dylibs[n]? := by
  have low : ¬ ((n + 1 : Nat) : Int) < 1 := by omega
  have place : (((n + 1 : Nat) : Int) - 1).toNat = n := by omega
  rw [dylibAt?, if_neg low, place]

theorem virtualBase_of_split {i : Image} {before after : List Segment} {s : Segment}
    (split : i.segments = before ++ s :: after) (named : s.name = "__TEXT")
    (earlier : ∀ t ∈ before, t.name ≠ "__TEXT") : i.virtualBase = s.address := by
  have found : i.segments.find? (·.name = "__TEXT") = some s :=
    List.find?_eq_some_iff_append.2
      ⟨by simpa using named, before, after, split, by simpa using earlier⟩
  rw [virtualBase_eq, found]

theorem virtualBase_of_none {i : Image} (none : ∀ s ∈ i.segments, s.name ≠ "__TEXT") :
    i.virtualBase = 0x100000000 := by
  have missing : i.segments.find? (·.name = "__TEXT") = Option.none :=
    List.find?_eq_none.2 (by simpa using none)
  rw [virtualBase_eq, missing]
  rfl

theorem viewed (i : Image) : i.Viewed where
  segments := by
    rw [segments_eq]
    exact map_picked (fun c => by cases c <;> rfl) i.commands
  sections := i.sections_eq
  dylibs := by
    rw [dylibs_eq]
    exact (i.map_dylibs_of (· ≠ 0xD)).trans (by simp)
  dylibAt := i.dylibAt?_succ
  noDylibAt := fun n low => if_pos low
  idDylib := by
    rw [idDylib?_eq, ← List.getLast?_map]
    exact congrArg List.getLast? ((i.map_dylibs_of (· = 0xD)).trans (by simp))
  dylinker := i.dylinker?_eq ▸ last_picked (fun c => by cases c <;> rfl) i.commands
  symbolTable := i.symbolTable?_eq ▸ last_picked (fun c => by cases c <;> rfl) i.commands
  dynamicTable := i.dynamicTable?_eq ▸ last_picked (fun c => by cases c <;> rfl) i.commands
  linkInfo := i.linkInfo?_eq ▸ last_picked (fun c => by cases c <;> rfl) i.commands
  uuid := i.uuid?_eq ▸ last_picked (fun c => by cases c <;> rfl) i.commands
  entryPoint := i.entryPoint?_eq ▸ last_picked (fun c => by cases c <;> rfl) i.commands
  sourceVersion := i.sourceVersion?_eq ▸ last_picked (fun c => by cases c <;> rfl) i.commands
  versionMinimum := i.versionMinimum?_eq ▸ last_picked (fun c => by cases c <;> rfl) i.commands
  buildVersion := i.buildVersion?_eq ▸ last_picked (fun c => by cases c <;> rfl) i.commands
  encryption := i.encryption_iff
  linkedit := i.linkedit_iff
  virtualBase := fun _ _ _ split named earlier => virtualBase_of_split split named earlier
  defaultBase := virtualBase_of_none

end Image

/-- Undecoded commands can be left out. -/
theorem Tables.of_decoded (commands : List LoadCommand) :
    Tables.of (commands.filter (·.kind ≠ .other)) = .of commands := by
  unfold Tables.of
  rw [List.foldl_filter]
  congr 1
  funext t c
  cases c <;> rfl

theorem Tables.of_take_succ {commands : List LoadCommand} {k : Nat} {command : LoadCommand}
    (there : commands[k]? = some command) :
    Tables.of (commands.take (k + 1)) = (Tables.of (commands.take k)).note command := by
  rw [Tables.of, List.take_add_one, there, List.foldl_append]
  rfl

def headAt (bs : Array UInt8) (o : Nat) : CommandHeader := ⟨u32 bs o, u32 bs (o + 4)⟩

/-- The step of the parse that finds a command at `o`, and its effect on the tables. -/
structure LoadCommand.StepsAt (r : Region) (o : Nat) (command : LoadCommand)
    (before after : Tables) : Prop where
  decoded : command.DecodedAt r o
  step : (parse r o (headAt r.bytes o)).outcome before = (.ok command, after)
  small : u32 r.bytes (o + 4) < (CommandKind.ofCode (u32 r.bytes o)).leastSize →
    (parseKnown r o (headAt r.bytes o)).outcome before = (.error .tooSmall, before) ∧
      command = .undecoded (u32 r.bytes o) (u32 r.bytes (o + 4)) o ∧ after = before

namespace LoadCommand
variable {r : Region} {o : Nat} {head : CommandHeader} {command : LoadCommand}

theorem DecodedAt.undecoded (decoded : command.DecodedAt r o)
    (small : u32 r.bytes (o + 4) < (CommandKind.ofCode (u32 r.bytes o)).leastSize) :
    command = .undecoded (u32 r.bytes o) (u32 r.bytes (o + 4)) o := by
  have kind := decoded.kind
  rw [if_neg (Nat.not_le_of_lt small)] at kind
  cases command with
  | undecoded code size offset =>
    obtain ⟨declared, rfl⟩ := decoded.lies
    rw [← declared, ← show code = _ from decoded.code]
  | _ => cases kind

/-- The guard that finds a command too small comes before anything is noted down. -/
theorem outcome_of_small {α : Type} [Record α] {next : Placed α → Parse Halt LoadCommand}
    (t : Tables) (small : head.cmdSize < Record.size α) :
    (readWhole r o head α >>= next).outcome t = (.error .tooSmall, t) := by
  rw [Halting.outcome_bind, outcome_readWhole, if_pos small]

theorem parseKnown_of_small (t : Tables)
    (small : head.cmdSize < (CommandKind.ofCode head.cmd).leastSize) :
    (parseKnown r o head).outcome t = (.error .tooSmall, t) := by
  unfold parseKnown
  cases kind : CommandKind.ofCode head.cmd with
  | other =>
    rw [kind] at small
    exact absurd small (Nat.not_lt_zero _)
  | segment | encryption | symbolTable | dynamicTable | linkInfo | linkedit | dylib | dylinker | uuid
  | versionMinimum | sourceVersion | entryPoint | buildVersion =>
    rw [kind] at small
    exact outcome_of_small t small

theorem CutFrom.stepsAt {stop k : Nat} {commands : List LoadCommand}
    (cut : command.CutFrom r stop o) (inside : stop ≤ r.size)
    (there : commands[k]? = some command) :
    command.StepsAt r o (.of (commands.take k)) (.of (commands.take (k + 1))) := by
  have own := slice_of_le (Nat.le_trans cut.within inside)
  have decoded := decode_at own cut.decoded
  have parsed := @fst_outcome_parse r _ o (headAt r.bytes o) (.of (commands.take k)) own rfl
  rw [show decode _ o (headAt r.bytes o) = .ok command from cut.decoded] at parsed
  have noted := parse_noted rfl (Prod.ext parsed rfl)
  rw [Tables.of_take_succ there]
  refine ⟨decoded, Prod.ext parsed noted, fun small => ?_⟩
  have same := decoded.undecoded small
  refine ⟨parseKnown_of_small _ small, same, ?_⟩
  rw [same]
  rfl

end LoadCommand

namespace Image

theorem owner_of_decoded {r : Region} {i : Image} {offset : Nat → Nat}
    (decoded : ∀ (k : Nat) (command : LoadCommand), i.commands[k]? = some command →
      command.DecodedAt r (offset k)) :
    ∀ s ∈ i.segments, ∀ x ∈ s.sections, x.owner = s.command := by
  intro s member x among
  have command : .segment s ∈ i.commands := by
    have picked := List.mem_map_of_mem (f := LoadCommand.segment) member
    rw [i.viewed.segments] at picked
    exact (List.mem_filter.1 picked).1
  obtain ⟨k, place⟩ := List.mem_iff_getElem?.1 command
  obtain ⟨-, headers, -, sections⟩ := (decoded k _ place).lies
  rw [sections] at among
  obtain ⟨header, -, rfl⟩ := List.mem_map.1 among
  rfl

/-- The commands of a slice are as many as its header announces. Each is decoded where those before
it end, and that step adds to the tables what it says, or leaves them if it is too small. The tables
after the last step tell all views, and commands that stay undecoded have no part in any. -/
theorem commands_of_parse {r : Region} {fileOffset : Nat} {i : Image}
    (run : parse r fileOffset = .ok i) :
    i.commands.length = i.header.value.commandCount ∧
      i.header.value.commandCount = u32 r.bytes 16 ∧
      (∀ (k : Nat) (command : LoadCommand), i.commands[k]? = some command →
        command.StepsAt r (commandOffset r.bytes k)
          (.of (i.commands.take k)) (.of (i.commands.take (k + 1)))) ∧
      i.tables = .of i.commands ∧
      (∀ s ∈ i.segments, ∀ x ∈ s.sections, x.owner = s.command) ∧
      i.Viewed ∧
      ∀ j : Image, j.commands.filter (·.kind ≠ .other) = i.commands.filter (·.kind ≠ .other) →
        j.tables = i.tables := by
  obtain ⟨count, inside, walked⟩ := parse_cut_all run
  obtain ⟨length, cuts⟩ := @cutCommands_cut r _ inside 0 _ _ _ walked
  simp only [Nat.zero_add] at cuts
  have steps (k : Nat) (command : LoadCommand) (there : i.commands[k]? = some command) :=
    (cuts k command there).stepsAt inside there
  refine ⟨length.trans count.symm, count, steps, i.recorded,
    owner_of_decoded fun k command there => (steps k command there).decoded, i.viewed, ?_⟩
  intro j same
  rw [j.recorded, i.recorded, ← Tables.of_decoded, same, Tables.of_decoded]

def repeated : Array UInt8 :=
  #[0xCF, 0xFA, 0xED, 0xFE, 12, 0, 0, 1, 0, 0, 0, 0, 2, 0, 0, 0,
    3, 0, 0, 0, 40, 0, 0, 0, 0, 0, 0, 0, 0, 0, 0, 0,
    0x26, 0, 0, 0, 16, 0, 0, 0, 7, 0, 0, 0, 1, 0, 0, 0,
    0x26, 0, 0, 0, 8, 0, 0, 0,
    0x26, 0, 0, 0, 16, 0, 0, 0, 8, 0, 0, 0, 2, 0, 0, 0]

def ofRepeated : Image :=
  { region := { bytes := repeated }, fileOffset := 0,
    header := ⟨⟨0xFEEDFACF, 0x100000C, 0, 2, 3, 40, 0, 0⟩, 0⟩,
    commands :=
      [.linkedit ⟨⟨0x26, 16, 7, 1⟩, 32⟩, .undecoded 0x26 8 48, .linkedit ⟨⟨0x26, 16, 8, 2⟩, 56⟩],
    symbols := [] }

theorem commands_of_parse_repeated :
    parse { bytes := repeated } 0 = .ok ofRepeated ∧
      LoadCommand.DecodedAt { bytes := repeated } 48 (.undecoded 0x26 8 48) ∧
      Tables.of (ofRepeated.commands.take 2) = .of (ofRepeated.commands.take 1) ∧
      LoadCommand.DecodedAt { bytes := repeated } 56 (.linkedit ⟨⟨0x26, 16, 8, 2⟩, 56⟩) ∧
      ofRepeated.linkedit[0x26]? = some ⟨⟨0x26, 16, 7, 1⟩, 32⟩ ∧
      ofRepeated.virtualBase = 0x100000000 ∧
      { ofRepeated with toCommandList := .ofCommands (ofRepeated.commands.eraseIdx 1) }.tables =
        ofRepeated.tables := by
  have run : parse { bytes := repeated } 0 = .ok ofRepeated := by with_unfolding_all rfl
  obtain ⟨-, -, steps, -, -, viewed, same⟩ := commands_of_parse run
  have behind : commandOffset repeated 1 = 48 ∧ commandOffset repeated 2 = 56 := by
    decide +kernel
  have small := steps 1 _ rfl
  have last := steps 2 _ rfl
  rw [behind.1] at small
  rw [behind.2] at last
  have first := (viewed.linkedit 0x26 ⟨⟨0x26, 16, 7, 1⟩, 32⟩).2
    ⟨[], _, rfl, rfl, fun d member => by cases member⟩
  exact ⟨run, small.decoded, (small.small (by decide +kernel)).2.2, last.decoded, first,
    viewed.defaultBase (fun s member => by cases member), same _ rfl⟩

end Image
end MachImage
