import MachImage.Halting
import MachImage.Image.Tables
/-!
The load commands of a slice. They are parsed one after the other out of the whole slice, and what
is found is noted down at once, also where a step halts later. A step halts where its command is too
small for its kind, and the command stays undecoded then; any other halt ends the parse. The tables
that result hold what the commands say and nothing else.
-/
namespace MachImage

inductive Halt where
  | tooSmall
  | fault (e : Fault)

abbrev Parse (ε α : Type) := Halting Tables ε α

namespace Parse
open Halting

def ofRead {α : Type} (x : Except Fault α) : Parse Halt α := ofResult (x.mapError .fault)

section
variable {α β : Type}

def Ample (step : Parse Halt α) : Prop := ∀ t, (step.outcome t).1 ≠ .error .tooSmall

theorem ample_pure (a : α) : Ample (pure a) := fun _ small => by cases small

theorem ample_modify (f : Tables → Tables) : Ample (modify f) := fun _ small => by cases small

theorem ample_fault (e : Fault) : Ample (throw (.fault e) : Parse Halt α) :=
  fun _ small => by cases small

theorem ample_ofRead (x : Except Fault α) : Ample (ofRead x) := by
  intro t small
  cases x with
  | error e => cases small
  | ok a => cases small

theorem Ample.bind {step : Parse Halt α} {next : α → Parse Halt β} (first : Ample step)
    (later : ∀ a, Ample (next a)) : Ample (step >>= next) := by
  intro t small
  rcases of_bind_halts (Prod.ext small rfl) with halt | ⟨a, s, -, halt⟩
  · exact first t (congrArg Prod.fst halt)
  · exact later a s (congrArg Prod.fst halt)

end

end Parse

namespace LoadCommand
open Halting Parse

section
variable (r : Region) (offset : Nat) (head : CommandHeader)

def readWhole (α : Type) [Record α] : Parse Halt (Placed α) :=
  if head.cmdSize < Record.size α then throw .tooSmall else ofRead (r.record α offset)

def parseRecord (α : Type) [Record α] (make : Placed α → LoadCommand)
    (add : Placed α → Tables → Tables) : Parse Halt LoadCommand := do
  let c ← readWhole r offset head α
  modify (add c)
  return make c

def readEach (α : Type) [Record α] (add : Placed α → Tables → Tables) :
    (offset count : Nat) → Parse Halt (List (Placed α))
  | _, 0 => return []
  | offset, count + 1 => do
    let x ← ofRead (r.record α offset)
    modify (add x)
    return x :: (← readEach α add (offset + Record.size α) count)

def parseSegment : Parse Halt LoadCommand := do
  let c ← readWhole r offset head SegmentCommand
  let count := c.value.sectionCount
  let start := Record.size SegmentCommand
  if count ≠ 0 ∧ c.value.cmdSize < start + count * Record.size SectionHeader then
    throw (.fault (.corrupt
      (.sectionsOverrun (Utf8.decode c.value.name) count c.value.cmdSize)))
  let add (h : Placed SectionHeader) := Tables.addSection ⟨h, c⟩
  let headers ← readEach r SectionHeader add (offset + start) count
  let s : Segment := ⟨c, headers.map (⟨·, c⟩)⟩
  modify (Tables.addSegment s)
  return .segment s

def parseBuildVersion : Parse Halt LoadCommand := do
  let c ← readWhole r offset head BuildVersion
  let count := c.value.toolCount
  let start := Record.size BuildVersion
  if c.value.cmdSize < start + count * Record.size BuildTool then
    throw (.fault (.corrupt (.toolsOverrun offset)))
  modify fun t => { t with buildVersion? := some c, buildTools? := some #[] }
  return .buildVersion c (← readEach r BuildTool Tables.addTool (offset + start) count)

/-- The name of a command lies within its own bytes. -/
def readPath (size nameOffset : Nat) : Parse Halt String := do
  return path (← ofRead (r.slice offset size)) nameOffset

def parseDylib : Parse Halt LoadCommand := do
  let c ← readWhole r offset head DylibCommand
  let d : Dylib := ⟨c, ← readPath r offset c.value.cmdSize c.value.nameOffset⟩
  modify (Tables.addDylib head.cmd d)
  return .dylib d

def parseDylinker : Parse Halt LoadCommand := do
  let c ← readWhole r offset head DylinkerCommand
  let d : Dylinker := ⟨c, ← readPath r offset c.value.cmdSize c.value.nameOffset⟩
  modify fun t => { t with dylinker? := some d }
  return .dylinker d

def undecodedAt : LoadCommand := .undecoded head.cmd head.cmdSize offset

def parseKnown : Parse Halt LoadCommand :=
  match CommandKind.ofCode head.cmd with
  | .segment => parseSegment r offset head
  | .encryption => parseRecord r offset head EncryptionInfo .encryption Tables.addEncryption
  | .symbolTable => parseRecord r offset head SymbolTableCommand .symbolTable fun c t =>
      { t with symbolTable? := some c }
  | .dynamicTable => parseRecord r offset head DynamicTableCommand .dynamicTable fun c t =>
      { t with dynamicTable? := some c }
  | .linkInfo => parseRecord r offset head LinkInfoCommand .linkInfo fun c t =>
      { t with linkInfo? := some c }
  | .linkedit => parseRecord r offset head LinkeditData .linkedit (Tables.addLinkedit head.cmd)
  | .dylib => parseDylib r offset head
  | .dylinker => parseDylinker r offset head
  | .uuid => parseRecord r offset head Uuid .uuid fun c t => { t with uuid? := some c }
  | .versionMinimum => parseRecord r offset head VersionMinimum .versionMinimum fun c t =>
      { t with versionMinimum? := some c }
  | .sourceVersion => parseRecord r offset head SourceVersion .sourceVersion fun c t =>
      { t with sourceVersion? := some c }
  | .entryPoint => parseRecord r offset head EntryPoint .entryPoint fun c t =>
      { t with entryPoint? := some c }
  | .buildVersion => parseBuildVersion r offset head
  | .other => return undecodedAt offset head

/-- What becomes of a command by how its parse ends. -/
def settle : Except Halt LoadCommand → Except Fault LoadCommand
  | .ok command => .ok command
  | .error .tooSmall => .ok (undecodedAt offset head)
  | .error (.fault e) => .error e

/-- Also where a step halts, the tables stay as it leaves them. -/
def parse : Parse Fault LoadCommand := ExceptT.mk fun t =>
  let (ending, after) := (parseKnown r offset head).outcome t
  (settle offset head ending, after)

end

end LoadCommand

def Image.walkCommands (r : Region) (stop : Nat) :
    (offset index count : Nat) → Parse Fault (List LoadCommand)
  | _, _, 0 => return []
  | offset, index, count + 1 => do
    if stop < offset + Record.size CommandHeader then
      throw (.corrupt (.commandOutside index offset))
    let head := (← Halting.ofResult (r.record CommandHeader offset)).value
    if head.cmdSize < Record.size CommandHeader then
      throw (.corrupt (.commandTooSmall index offset head.cmdSize))
    if stop < offset + head.cmdSize then
      throw (.corrupt (.commandOverrun index offset head.cmdSize))
    let command ← LoadCommand.parse r offset head
    return command :: (← walkCommands r stop (offset + head.cmdSize) (index + 1) count)

namespace LoadCommand
open Halting Parse

/-- What a step adds to the tables is what its command says, and nothing if it is too small. -/
structure Notes (step : Parse Halt LoadCommand) : Prop where
  noted : ∀ {t after command}, step.outcome t = (.ok command, after) → after = t.note command
  untouched : ∀ {t after}, step.outcome t = (.error .tooSmall, after) → after = t

section
variable {r : Region} {offset : Nat} {head : CommandHeader}

theorem outcome_readWhole (α : Type) [Record α] (t : Tables) :
    (readWhole r offset head α).outcome t =
      (if head.cmdSize < Record.size α then .error .tooSmall
        else (r.record α offset).mapError .fault, t) := by
  unfold readWhole
  split
  · rfl
  · rfl

theorem record_of_readWhole {α : Type} [Record α] {t after : Tables} {c : Placed α}
    (run : (readWhole r offset head α).outcome t = (.ok c, after)) :
    after = t ∧ r.record α offset = .ok c := by
  rw [outcome_readWhole, Prod.mk.injEq] at run
  obtain ⟨read, rfl⟩ := run
  refine ⟨rfl, ?_⟩
  split at read
  · cases read
  · cases held : r.record α offset with
    | error e => rw [held] at read; cases read
    | ok c => rw [held] at read; exact congrArg Except.ok (Except.ok.inj read)

/-- A command is too small before anything is noted down, if at all. -/
theorem notes_of_readWhole {α : Type} [Record α] {next : Placed α → Parse Halt LoadCommand}
    (noted : ∀ {c t after command}, r.record α offset = .ok c →
      (next c).outcome t = (.ok command, after) → after = t.note command)
    (ample : ∀ c, Ample (next c)) : Notes (readWhole r offset head α >>= next) where
  noted run := by
    obtain ⟨c, s, first, later⟩ := of_bind_returns run
    obtain ⟨rfl, read⟩ := record_of_readWhole first
    exact noted read later
  untouched run := by
    rcases of_bind_halts run with halt | ⟨c, s, -, halt⟩
    · rw [outcome_readWhole] at halt
      exact (congrArg Prod.snd halt).symm
    · exact absurd (congrArg Prod.fst halt) (ample c s)

theorem parseRecord_notes {α : Type} [Record α] {make : Placed α → LoadCommand}
    {add : Placed α → Tables → Tables}
    (adds : ∀ c t, r.record α offset = .ok c → t.note (make c) = add c t) :
    Notes (parseRecord r offset head α make add) := by
  refine notes_of_readWhole (fun read run => ?_) fun c =>
    (ample_modify _).bind fun _ => ample_pure _
  cases of_modify run
  exact (adds _ _ read).symm

section
variable {α : Type} [Record α] {add : Placed α → Tables → Tables}

theorem ample_readEach (start count : Nat) : Ample (readEach r α add start count) := by
  induction count generalizing start with
  | zero => exact ample_pure []
  | succ count ih =>
    exact (ample_ofRead _).bind fun x => (ample_modify _).bind fun _ =>
      (ih _).bind fun xs => ample_pure _

theorem noted_of_readEach {start count : Nat} {xs : List (Placed α)} {t after : Tables}
    (run : (readEach r α add start count).outcome t = (.ok xs, after)) :
    after = xs.foldl (fun t x => add x t) t := by
  induction count generalizing start xs t after with
  | zero =>
    cases run
    rfl
  | succ count ih =>
    obtain ⟨x, s, read, run⟩ := of_bind_returns run
    rw [ofRead, outcome_ofResult, Prod.mk.injEq] at read
    obtain ⟨-, rfl⟩ := read
    obtain ⟨rest, s, others, run⟩ := of_bind_returns (of_modify run)
    cases run
    rw [List.foldl_cons]
    exact ih others

end

theorem parseSegment_notes : Notes (parseSegment r offset head) := by
  refine notes_of_readWhole (fun {c t _ _} read run => ?_) fun c => ?_
  · dsimp only at run
    split at run
    · cases run
    · obtain ⟨headers, s, sections, run⟩ := of_bind_returns run
      cases of_modify run
      have each := Tables.foldl_addSection (headers.map (⟨·, c⟩)) t
      rw [List.foldl_map] at each
      rw [noted_of_readEach sections, each, Tables.note]
      rfl
  · dsimp only
    split
    · exact ample_fault _
    · exact (ample_readEach _ _).bind fun headers =>
        (ample_modify _).bind fun _ => ample_pure _

theorem parseBuildVersion_notes : Notes (parseBuildVersion r offset head) := by
  refine notes_of_readWhole (fun read run => ?_) fun c => ?_
  · dsimp only at run
    split at run
    · cases run
    · obtain ⟨tools, s, listed, run⟩ := of_bind_returns (of_modify run)
      cases run
      rw [noted_of_readEach listed, Tables.foldl_addTool _ rfl, Tables.note, Array.empty_append]
  · dsimp only
    split
    · exact ample_fault _
    · exact (ample_modify _).bind fun _ => (ample_readEach _ _).bind fun tools => ample_pure _

theorem ample_readPath (size nameOffset : Nat) : Ample (readPath r offset size nameOffset) :=
  (ample_ofRead _).bind fun _ => ample_pure _

theorem untouched_of_readPath {size nameOffset : Nat} {name : String} {t after : Tables}
    (run : (readPath r offset size nameOffset).outcome t = (.ok name, after)) : after = t := by
  obtain ⟨own, s, cut, run⟩ := of_bind_returns run
  cases run
  exact (congrArg Prod.snd cut).symm

theorem parseDylib_notes (announced : head.cmd = Record.u32 r.bytes offset) :
    Notes (parseDylib r offset head) := by
  refine notes_of_readWhole (fun read run => ?_) fun c =>
    (ample_readPath _ _).bind fun name => (ample_modify _).bind fun _ => ample_pure _
  obtain ⟨name, s, named, run⟩ := of_bind_returns run
  cases untouched_of_readPath named
  cases of_modify run
  have code := Record.word_of_record (·.cmd) 0 (fun _ => rfl) (by decide) read
  rw [Tables.note, code, announced, Nat.add_zero]

theorem parseDylinker_notes : Notes (parseDylinker r offset head) := by
  refine notes_of_readWhole (fun read run => ?_) fun c =>
    (ample_readPath _ _).bind fun name => (ample_modify _).bind fun _ => ample_pure _
  obtain ⟨name, s, named, run⟩ := of_bind_returns run
  cases untouched_of_readPath named
  cases of_modify run
  rfl

theorem parseKnown_notes (announced : head.cmd = Record.u32 r.bytes offset) :
    Notes (parseKnown r offset head) := by
  unfold parseKnown
  cases CommandKind.ofCode head.cmd with
  | segment => exact parseSegment_notes
  | buildVersion => exact parseBuildVersion_notes
  | dylib => exact parseDylib_notes announced
  | dylinker => exact parseDylinker_notes
  | linkedit =>
    refine parseRecord_notes fun c t read => ?_
    have code := Record.word_of_record (·.cmd) 0 (fun _ => rfl) (by decide) read
    rw [Tables.note, code, announced, Nat.add_zero]
  | other =>
    refine ⟨fun run => ?_, fun run => ?_⟩
    · cases run
      rfl
    · cases run
  | encryption | symbolTable | dynamicTable | linkInfo | uuid | versionMinimum | sourceVersion
  | entryPoint => exact parseRecord_notes fun c t _ => rfl

theorem outcome_parse (t : Tables) :
    (parse r offset head).outcome t =
      (settle offset head ((parseKnown r offset head).outcome t).1,
        ((parseKnown r offset head).outcome t).2) := rfl

theorem parse_noted (announced : head.cmd = Record.u32 r.bytes offset) {t after : Tables}
    {command : LoadCommand} (run : (parse r offset head).outcome t = (.ok command, after)) :
    after = t.note command := by
  have notes := parseKnown_notes announced
  rw [outcome_parse] at run
  rcases known : (parseKnown r offset head).outcome t with ⟨(⟨⟩ | e) | command, s⟩
  · rw [known] at run
    cases run
    exact notes.untouched known
  · rw [known] at run
    cases run
  · rw [known] at run
    cases run
    exact notes.noted known

end
end LoadCommand

open Halting Parse in
theorem Image.walkCommands_noted {r : Region} {stop offset index count : Nat} {t after : Tables}
    {commands : List LoadCommand}
    (run : (walkCommands r stop offset index count).outcome t = (.ok commands, after)) :
    after = commands.foldl Tables.note t := by
  induction count generalizing offset index t commands with
  | zero =>
    cases run
    rfl
  | succ count ih =>
    unfold walkCommands at run
    split at run
    · cases run
    · obtain ⟨head, s, read, run⟩ := of_bind_returns run
      rw [outcome_ofResult, Prod.mk.injEq] at read
      obtain ⟨read, rfl⟩ := read
      dsimp only at run
      split at run
      · cases run
      · split at run
        · cases run
        · obtain ⟨command, s, parsed, run⟩ := of_bind_returns run
          obtain ⟨rest, s, others, run⟩ := of_bind_returns run
          cases run
          have announced := Record.word_of_record (·.cmd) 0 (fun _ => rfl) (by decide) read
          rw [List.foldl_cons, ← LoadCommand.parse_noted announced parsed]
          exact ih others

theorem Image.tables_of_walkCommands {r : Region} {stop offset index count : Nat}
    (commands : List LoadCommand)
    (run : ((walkCommands r stop offset index count).outcome {}).1 = .ok commands) :
    ((walkCommands r stop offset index count).outcome {}).2 = .of commands :=
  walkCommands_noted (Prod.ext run rfl)

structure CommandList where
  commands : List LoadCommand
  tables : Tables := .of commands
  recorded : tables = .of commands := by rfl

namespace CommandList

def ofCommands (commands : List LoadCommand) : CommandList := { commands }

theorem eq_ofCommands (list : CommandList) : list = ofCommands list.commands := by
  obtain ⟨commands, tables, rfl⟩ := list
  rfl

def ofOutcome (x : Except Fault (List LoadCommand) × Tables)
    (noted : ∀ commands, x.1 = .ok commands → x.2 = .of commands) : Except Fault CommandList :=
  match x, noted with
  | (.ok commands, tables), noted => .ok { commands, tables, recorded := noted commands rfl }
  | (.error e, _), _ => .error e

theorem ofOutcome_eq (x : Except Fault (List LoadCommand) × Tables)
    (noted : ∀ commands, x.1 = .ok commands → x.2 = .of commands) :
    ofOutcome x noted = x.1.map ofCommands := by
  obtain ⟨e | commands, tables⟩ := x
  · rfl
  · exact congrArg Except.ok (eq_ofCommands _)

end CommandList

def Image.readCommands (r : Region) (h : Header) : Except Fault CommandList :=
  let start := Record.size Header
  let stop := start + h.commandsSize
  if r.size < stop then .error (.corrupt (.commandsOutside stop))
  else
    CommandList.ofOutcome ((walkCommands r stop start 0 h.commandCount).outcome {})
      tables_of_walkCommands

end MachImage
