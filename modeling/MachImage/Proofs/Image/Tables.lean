import MachImage.Image.Basic
/-!
The tables after a run over all commands. What one command does to a place of the tables is a step,
and a run over the commands makes the steps of those that have something to say to that place. So
each place holds all commands of a kind, the last of them or the first.
-/
namespace MachImage

section
variable {α β : Type}

def LoadCommand.segment? : LoadCommand → Option Segment
  | .segment s => some s
  | _ => none

def LoadCommand.dylib? : LoadCommand → Option Dylib
  | .dylib d => some d
  | _ => none

def LoadCommand.symbolTable? : LoadCommand → Option (Placed SymbolTableCommand)
  | .symbolTable c => some c
  | _ => none

theorem Tables.place_foldl (place : Tables → β) (pick : LoadCommand → Option α) (put : β → α → β)
    (step : ∀ t c, place (t.note c) = (pick c).elim (place t) (put (place t)))
    (commands : List LoadCommand) (t : Tables) :
    place (commands.foldl note t) = (commands.filterMap pick).foldl put (place t) := by
  induction commands generalizing t with
  | nil => rfl
  | cons c commands ih =>
    rw [List.foldl_cons, ih, step, List.filterMap_cons]
    cases pick c with
    | none => rfl
    | some a => rfl

theorem foldl_push (xs : List α) (ys : Array α) :
    (xs.foldl Array.push ys).toList = ys.toList ++ xs := by
  induction xs generalizing ys with
  | nil => simp
  | cons x xs ih => rw [List.foldl_cons, ih]; simp

theorem foldl_last (xs : List α) (o : Option α) :
    xs.foldl (fun _ x => some x) o = xs.getLast?.or o := by
  induction xs generalizing o with
  | nil => rfl
  | cons x xs ih => rw [List.foldl_cons, ih, List.getLast?_cons]; cases xs.getLast? <;> rfl

theorem foldl_append_flatMap (f : α → List β) (xs : List α) (ys : Array β) :
    (xs.foldl (fun ys x => ys ++ (f x).toArray) ys).toList = ys.toList ++ xs.flatMap f := by
  induction xs generalizing ys with
  | nil => simp
  | cons x xs ih => simp [ih]

end

theorem CommandList.tables_eq (list : CommandList) :
    list.tables = list.commands.foldl Tables.note {} := list.recorded

theorem CommandList.last_of_tables (list : CommandList) {α : Type} (place : Tables → Option α)
    (pick : LoadCommand → Option α)
    (step : ∀ t c, place (t.note c) = (pick c).elim (place t) some)
    (empty : place {} = none) : place list.tables = (list.commands.filterMap pick).getLast? := by
  rw [tables_eq, Tables.place_foldl place pick (fun _ x => some x) step, foldl_last, empty,
    Option.or_none]

namespace Image
open CommandList
variable (i : Image)

theorem segments_eq : i.segments = i.commands.filterMap LoadCommand.segment? := by
  have run := Tables.place_foldl Tables.segments LoadCommand.segment? Array.push
    (fun t c => by cases c <;> rfl) i.commands {}
  rw [segments, tables_eq, run, foldl_push]
  rfl

theorem sections_eq : i.sections = i.segments.flatMap (·.sections) := by
  have run := Tables.place_foldl Tables.sections LoadCommand.segment?
    (fun xs s => xs ++ s.sections.toArray) (fun t c => by cases c <;> rfl) i.commands {}
  rw [sections, tables_eq, run, foldl_append_flatMap, segments_eq]
  rfl

theorem mem_sections_iff {t : Section} :
    t ∈ i.sections ↔ ∃ s ∈ i.segments, t ∈ s.sections := by
  rw [sections_eq, List.mem_flatMap]

def namedDylibs : List Dylib := i.commands.filterMap LoadCommand.dylib?

theorem dylibs_eq : i.dylibs = i.namedDylibs.filter (·.command.value.cmd ≠ idDylibCode) := by
  have run := Tables.place_foldl Tables.dylibs LoadCommand.dylib?
    (fun ds d => if d.command.value.cmd = idDylibCode then ds else ds.push d)
    (fun t c => by cases c <;> rfl) i.commands {}
  have kept := foldl_push (i.namedDylibs.filter (·.command.value.cmd ≠ idDylibCode)) #[]
  rw [List.foldl_filter] at kept
  rw [dylibs, tables_eq, run]
  simpa [namedDylibs] using kept

theorem idDylib?_eq :
    i.idDylib? = (i.namedDylibs.filter (·.command.value.cmd = idDylibCode)).getLast? := by
  have run := Tables.place_foldl Tables.idDylib? LoadCommand.dylib?
    (fun o d => if d.command.value.cmd = idDylibCode then some d else o)
    (fun t c => by cases c <;> rfl) i.commands {}
  have kept := foldl_last (i.namedDylibs.filter (·.command.value.cmd = idDylibCode)) none
  rw [List.foldl_filter, Option.or_none] at kept
  rw [idDylib?, tables_eq, run, ← kept]
  simp [namedDylibs]

theorem dylinker?_eq :
    i.dylinker? = (i.commands.filterMap fun | .dylinker d => some d | _ => none).getLast? :=
  i.last_of_tables _ _ (fun t c => by cases c <;> rfl) rfl

theorem symbolTable?_eq :
    i.symbolTable? = (i.commands.filterMap fun | .symbolTable c => some c | _ => none).getLast? :=
  i.last_of_tables _ _ (fun t c => by cases c <;> rfl) rfl

theorem dynamicTable?_eq :
    i.dynamicTable? = (i.commands.filterMap fun | .dynamicTable c => some c | _ => none).getLast? :=
  i.last_of_tables _ _ (fun t c => by cases c <;> rfl) rfl

theorem linkInfo?_eq :
    i.linkInfo? = (i.commands.filterMap fun | .linkInfo c => some c | _ => none).getLast? :=
  i.last_of_tables _ _ (fun t c => by cases c <;> rfl) rfl

theorem uuid?_eq :
    i.uuid? = (i.commands.filterMap fun | .uuid c => some c | _ => none).getLast? :=
  i.last_of_tables _ _ (fun t c => by cases c <;> rfl) rfl

theorem entryPoint?_eq :
    i.entryPoint? = (i.commands.filterMap fun | .entryPoint c => some c | _ => none).getLast? :=
  i.last_of_tables _ _ (fun t c => by cases c <;> rfl) rfl

theorem sourceVersion?_eq :
    i.sourceVersion? =
      (i.commands.filterMap fun | .sourceVersion c => some c | _ => none).getLast? :=
  i.last_of_tables _ _ (fun t c => by cases c <;> rfl) rfl

theorem versionMinimum?_eq :
    i.versionMinimum? =
      (i.commands.filterMap fun | .versionMinimum c => some c | _ => none).getLast? :=
  i.last_of_tables _ _ (fun t c => by cases c <;> rfl) rfl

theorem buildVersion?_eq :
    i.buildVersion? =
      (i.commands.filterMap fun | .buildVersion c tools => some (c, tools) | _ => none).getLast? :=
  i.last_of_tables (fun t => do return (← t.buildVersion?, (← t.buildTools?).toList)) _
    (fun t c => by cases c <;> rfl) rfl

theorem encryption_eq : i.encryption = .ofList (i.commands.filterMap fun
    | .encryption c => some (c.value.cryptId, c.value.cryptOffset, c.value.cryptSize)
    | _ => none) := by
  rw [encryption, tables_eq]
  exact Tables.place_foldl _ _ _ (fun t c => by cases c <;> rfl) i.commands {}

theorem linkedit_eq : i.linkedit = .ofListFirst (i.commands.filterMap fun
    | .linkedit c => some (c.value.cmd, c)
    | _ => none) := by
  rw [linkedit, tables_eq]
  exact Tables.place_foldl _ _ _ (fun t c => by cases c <;> rfl) i.commands {}

theorem foldl_virtualBase (ss : List Segment) (o : Option Nat) :
    ss.foldl (fun o s => if s.name = "__TEXT" ∧ o.isNone then some s.address else o) o =
      o.or ((ss.find? (·.name = "__TEXT")).map (·.address)) := by
  induction ss generalizing o with
  | nil => simp
  | cons s ss ih =>
    rw [List.foldl_cons, ih, List.find?_cons]
    by_cases named : s.name = "__TEXT"
    · cases o <;> simp [named]
    · simp [named]

theorem virtualBase_eq : i.virtualBase =
    match i.segments.find? (·.name = "__TEXT") with
    | some s => s.address
    | none => defaultVirtualBase := by
  have run := Tables.place_foldl Tables.virtualBase? LoadCommand.segment?
    (fun o s => if s.name = "__TEXT" ∧ o.isNone then some s.address else o)
    (fun t c => by cases c <;> rfl) i.commands {}
  rw [virtualBase, tables_eq, run, foldl_virtualBase, ← segments_eq]
  cases i.segments.find? (·.name = "__TEXT") <;> rfl

end Image
end MachImage
