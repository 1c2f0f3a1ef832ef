import MachImage.Proofs.Objc.EntryBounds
import MachImage.Proofs.Objc.ProtocolNames
/-!
What one entry of a list tells has no part in what its neighbours tell. Lists of methods, properties
and instance variables, lists of protocols and the slots of selectors are all collected in the same
way: place after place, each at its own distance from the beginning. A place tells what could be
read of it alone, and one that tells nothing is left out.
-/
namespace MachImage.Objc
open Image

/-- What `count` places tell, from the place `start` on. A place that tells nothing is left out, and
the next place is the same in both cases. -/
inductive Collected {α : Type} (tells : Nat → α → Prop) : (start count : Nat) → List α → Prop
  | done (start : Nat) : Collected tells start 0 []
  | read {start count : Nat} {x : α} {xs : List α} (found : tells start x)
      (rest : Collected tells (start + 1) count xs) : Collected tells start (count + 1) (x :: xs)
  | leftOut {start count : Nat} {xs : List α} (silent : ∀ x, ¬ tells start x)
      (rest : Collected tells (start + 1) count xs) : Collected tells start (count + 1) xs

section
variable {α : Type} {tells : Nat → α → Prop} {f : Nat → Option α}

theorem collected_filterMap (same : ∀ k x, f k = some x ↔ tells k x) (start count : Nat) :
    Collected tells start count ((List.range' start count).filterMap f) := by
  induction count generalizing start with
  | zero => exact .done start
  | succ count ih =>
    rw [List.range'_succ]
    cases found : f start with
    | none =>
      rw [List.filterMap_cons_none found]
      refine .leftOut (fun x told => ?_) (ih (start + 1))
      rw [(same start x).2 told] at found
      cases found
    | some x =>
      rw [List.filterMap_cons_some found]
      exact .read ((same start x).1 found) (ih (start + 1))

theorem Collected.eq_filterMap (same : ∀ k x, f k = some x ↔ tells k x) {start count : Nat}
    {xs : List α} (collected : Collected tells start count xs) :
    xs = (List.range' start count).filterMap f := by
  induction collected with
  | done => rfl
  | read found _ ih =>
    rw [List.range'_succ, List.filterMap_cons_some ((same _ _).2 found), ← ih]
  | @leftOut start count xs silent _ ih =>
    have none : f start = none := Option.eq_none_iff_forall_ne_some.2 fun x found =>
      silent x ((same start x).1 found)
    rw [List.range'_succ, List.filterMap_cons_none none, ih]

theorem collected_iff (same : ∀ k x, f k = some x ↔ tells k x) {count : Nat} {xs : List α} :
    Collected tells 0 count xs ↔ (List.range count).filterMap f = xs := by
  rw [List.range_eq_range']
  constructor
  · intro collected
    exact (collected.eq_filterMap same).symm
  · rintro rfl
    exact collected_filterMap same 0 count

end

inductive Method.At (i : Image) (isClassMethod : Bool) :
    (relative : Bool) → (address : Nat) → Method → Prop
  | byAddress {address : Nat} {e : Placed MethodEntry} {name typeEncoding : String}
      (entry : i.recordAt MethodEntry address = .ok e)
      (named : stringOr i e.value.name (unknownSelector e.value.name) = .ok name)
      (typed : stringOr i e.value.signature "" = .ok typeEncoding) :
      At i isClassMethod false address
        { name, typeEncoding, implementation := e.value.implementation, isClassMethod }
  | byOffset {address : Nat} {e : Placed RelativeMethodEntry} {literal : Nat}
      {name typeEncoding : String} (entry : i.recordAt RelativeMethodEntry address = .ok e)
      (slot : i.pointerAt (address + e.value.name) = .ok literal)
      (named : stringOr i literal (unknownSelector (address + e.value.name)) = .ok name)
      (typed : stringOr i (address + 4 + e.value.signature) "" = .ok typeEncoding) :
      At i isClassMethod true address
        { name, typeEncoding, isClassMethod, implementation :=
            if e.value.implementation = 0 then 0 else address + 8 + e.value.implementation }

inductive Property.At (i : Image) (address : Nat) : Property → Prop
  | intro {e : Placed PropertyEntry} {name attributes : String}
      (entry : i.recordAt PropertyEntry address = .ok e)
      (named : stringOr i e.value.name "?PROP?" = .ok name)
      (typed : stringOr i e.value.attributes "" = .ok attributes) :
      At i address { name, attributes }

/-- The offset of an instance variable is 0 where the pointer to it cannot be followed. -/
inductive Ivar.At (i : Image) (address : Nat) : Ivar → Prop
  | intro {e : Placed IvarEntry} {name typeEncoding : String} {offset : Nat}
      (entry : i.recordAt IvarEntry address = .ok e)
      (named : stringOr i e.value.name "?IVAR?" = .ok name)
      (typed : stringOr i e.value.type "?" = .ok typeEncoding)
      (placed : offset = if e.value.offsetPointer = 0 then 0
        else (i.pointerAt e.value.offsetPointer).toOption.getD 0) :
      At i address { name, typeEncoding, offset, size := e.value.size,
                     alignment := alignmentOf e.value.alignment }

inductive ProtocolNamed (i : Image) (slot : Nat) : String → Prop
  | intro {p : Nat} {r : Placed ProtocolRecord} {name : String}
      (held : i.pointerAt slot = .ok p) (notNull : p ≠ 0)
      (record : i.recordAt ProtocolRecord p = .ok r)
      (named : i.stringAt r.value.name = .ok name) : ProtocolNamed i slot name

section
variable {i : Image} {address : Nat}

theorem byAddress_read_iff {isClassMethod : Bool} {m : Method} :
    (Method.byAddress isClassMethod).read i address = .ok m ↔
      Method.At i isClassMethod false address m := by
  constructor
  · intro read
    obtain ⟨e, entry, read⟩ := of_bind_ok read
    obtain ⟨name, named, read⟩ := of_bind_ok read
    obtain ⟨typeEncoding, typed, read⟩ := of_bind_ok read
    cases read
    exact .byAddress entry named typed
  · intro told
    cases told with
    | byAddress entry named typed =>
      simp only [Method.byAddress, entry, ok_bind, named, typed]
      rfl

theorem byOffset_read_iff {isClassMethod : Bool} {m : Method} :
    (Method.byOffset isClassMethod).read i address = .ok m ↔
      Method.At i isClassMethod true address m := by
  constructor
  · intro read
    obtain ⟨e, entry, read⟩ := of_bind_ok read
    obtain ⟨literal, slot, read⟩ := of_bind_ok read
    obtain ⟨name, named, read⟩ := of_bind_ok read
    obtain ⟨typeEncoding, typed, read⟩ := of_bind_ok read
    cases read
    exact .byOffset entry slot named typed
  · intro told
    cases told with
    | byOffset entry slot named typed =>
      simp only [Method.byOffset, entry, ok_bind, slot, named, typed]
      rfl

theorem method_read_iff {isClassMethod : Bool} {h : EntryListHeader} {m : Method} :
    (Method.form isClassMethod h).read i address = .ok m ↔
      Method.At i isClassMethod (isRelative h) address m := by
  unfold Method.form
  cases isRelative h with
  | true => exact byOffset_read_iff
  | false => exact byAddress_read_iff

theorem property_read_iff {p : Property} :
    Property.form.read i address = .ok p ↔ Property.At i address p := by
  constructor
  · intro read
    obtain ⟨e, entry, read⟩ := of_bind_ok read
    obtain ⟨name, named, read⟩ := of_bind_ok read
    obtain ⟨attributes, typed, read⟩ := of_bind_ok read
    cases read
    exact .intro entry named typed
  · intro told
    cases told with
    | intro entry named typed =>
      simp only [Property.form, entry, ok_bind, named, typed]
      rfl

theorem offsetAt_eq (i : Image) (pointer : Nat) : Ivar.offsetAt i pointer =
    .ok (if pointer = 0 then 0 else (i.pointerAt pointer).toOption.getD 0) := by
  rw [Ivar.offsetAt]
  split
  · rfl
  · rw [attempt_of_tame (i.pointerAt_tame _)]
    rfl

theorem ivar_read_iff {v : Ivar} : Ivar.form.read i address = .ok v ↔ Ivar.At i address v := by
  constructor
  · intro read
    obtain ⟨e, entry, read⟩ := of_bind_ok read
    obtain ⟨name, named, read⟩ := of_bind_ok read
    obtain ⟨offset, placed, read⟩ := of_bind_ok read
    obtain ⟨typeEncoding, typed, read⟩ := of_bind_ok read
    cases read
    rw [offsetAt_eq, Except.ok.injEq] at placed
    exact .intro entry named typed placed.symm
  · intro told
    cases told with
    | intro entry named typed placed =>
      simp only [Ivar.form, entry, ok_bind, named, offsetAt_eq, typed, placed]
      rfl

theorem protocolName_iff {name : String} :
    protocolNameAt i address = .ok (some name) ↔ ProtocolNamed i address name := by
  constructor
  · intro read
    obtain ⟨p, held, read⟩ := of_bind_ok read
    split at read
    · cases read
    · next notNull =>
      obtain ⟨r, record, read⟩ := of_bind_ok read
      obtain ⟨name, named, read⟩ := of_bind_ok read
      cases read
      exact .intro held notNull record named
  · intro told
    cases told with
    | intro held notNull record named =>
      rw [protocolNameAt, held, ok_bind, if_neg notNull, record, ok_bind]
      dsimp only
      rw [named]
      rfl

end

theorem entrySize_eq_and (h : EntryListHeader) :
    entrySize h = h.entrySizeAndFlags &&& 0xFFFC := by
  have mask : 0xFFFC = (2 ^ 14 - 1) * 2 ^ 2 := rfl
  rw [entrySize, mask, show 0x10000 = 2 ^ 16 from rfl, show 4 = 2 ^ 2 from rfl]
  apply Nat.eq_of_testBit_eq
  intro k
  simp only [Nat.testBit_and, Nat.testBit_mul_two_pow, Nat.testBit_div_two_pow,
    Nat.testBit_mod_two_pow, Nat.testBit_two_pow_sub_one]
  by_cases low : 2 ≤ k
  · have back : k - 2 + 2 = k := Nat.sub_add_cancel low
    have same : (k < 16) = (k - 2 < 14) := by
      rw [eq_iff_iff]
      omega
    simp [low, back, same, Bool.and_comm]
  · simp [low]

inductive Entries : {α : Type} → (read : Image → Nat → Except Fault (List α)) →
    (needs : EntryListHeader → Nat) →
    (tells : Image → EntryListHeader → Nat → α → Prop) → Prop
  | methods (isClassMethod : Bool) :
      Entries (Method.list isClassMethod) (fun h => if isRelative h then 12 else 24)
        fun i h => Method.At i isClassMethod (isRelative h)
  | properties : Entries Property.list (fun _ => 16) fun i _ => Property.At i
  | ivars : Entries Ivar.list (fun _ => 32) fun i _ => Ivar.At i

theorem Entries.form {α : Type} {read : Image → Nat → Except Fault (List α)}
    {needs : EntryListHeader → Nat} {tells : Image → EntryListHeader → Nat → α → Prop}
    (kind : Entries read needs tells) : ∃ form, Lists read form ∧ ∀ h,
      needs h = (form h).size ∧
        ∀ i address x, (form h).read i address = .ok x ↔ tells i h address x := by
  cases kind with
  | methods isClassMethod =>
    refine ⟨_, .methods isClassMethod, fun h => ⟨?_, fun i address x => method_read_iff⟩⟩
    dsimp only [Method.form]
    cases isRelative h <;> rfl
  | properties => exact ⟨_, .properties, fun h => ⟨rfl, fun i address x => property_read_iff⟩⟩
  | ivars => exact ⟨_, .ivars, fun h => ⟨rfl, fun i address x => ivar_read_iff⟩⟩

section
variable {i : Image} {list : Nat}

theorem list_collected {α : Type} {read : Image → Nat → Except Fault (List α)}
    {needs : EntryListHeader → Nat} {tells : Image → EntryListHeader → Nat → α → Prop}
    (kind : Entries read needs tells) {h : EntryListHeader} (notNull : list ≠ 0)
    (header : (i.recordAt EntryListHeader list).map (·.value) = .ok h)
    (large : needs h ≤ entrySize h) (fit : fits i list (entrySize h) h.count = .ok true) :
    ∃ xs, read i list = .ok xs ∧ ∀ ys,
      Collected (fun k => tells i h (list + 8 + entrySize h * k)) 0 h.count ys ↔ xs = ys := by
  obtain ⟨form, lists, each⟩ := kind.form
  obtain ⟨needed, told⟩ := each h
  rw [needed] at large
  have run := list_of_accepts (lists.tame h) ⟨notNull, header, large, fit⟩
  rw [lists.eq]
  exact ⟨_, run, fun ys => collected_iff fun k x => toOption_eq_some_iff.trans (told i _ x)⟩

theorem protocolNames_collected {h : Placed ProtocolListHeader} (notNull : list ≠ 0)
    (header : i.recordAt ProtocolListHeader list = .ok h) (few : h.value.count < 500) :
    ∃ names, protocolNames i list = .ok names ∧ ∀ ys,
      Collected (fun k => ProtocolNamed i (list + 8 + 8 * k)) 0 h.value.count ys ↔
        names = ys := by
  refine ⟨_, protocolNames_of_header notNull header few, fun ys => collected_iff fun k x => ?_⟩
  rw [contributed, Option.join_eq_some_iff, toOption_eq_some_iff]
  exact protocolName_iff

end

/-- What the slot `k` of a section tells of a selector: its own address, the pointer that it holds
and the string that this leads to. -/
structure SelectorOf (i : Image) (t : Section) (k : Nat) (s : SelectorReference) : Prop where
  slot : s.slot = t.address + 8 * k
  literal : s.literal = Record.u64 i.region.bytes (t.fileOffset + 8 * k)
  notNull : s.literal ≠ 0
  selector : i.stringAt s.literal = .ok s.selector

section
variable {i : Image} {t : Section}

theorem selectorAt_iff {k : Nat} {s : SelectorReference} :
    selectorAt i (t.address + 8 * k, Record.u64 i.region.bytes (t.fileOffset + 8 * k)) =
      .ok (some s) ↔ SelectorOf i t k s := by
  rw [selectorAt]
  constructor
  · intro read
    split at read
    · cases read
    · next notNull =>
      cases named : i.stringAt (Record.u64 i.region.bytes (t.fileOffset + 8 * k)) with
      | error e =>
        rw [named] at read
        cases read
      | ok selector =>
        rw [named] at read
        cases read
        exact ⟨rfl, rfl, notNull, named⟩
  · intro told
    cases s with
    | mk selector slot literal =>
      obtain ⟨rfl, rfl, notNull, named⟩ := told
      rw [if_neg notNull, named]
      rfl

theorem listedSelectors_collected (found : i.dataSection? "__objc_selrefs" = some t)
    (inside : t.fileOffset + t.size ≤ i.region.size) {ys : List SelectorReference} :
    Collected (SelectorOf i t) 0 (t.size / 8) ys ↔ listedSelectors i = ys := by
  have held : slots i selectorSection = _ :=
    congrArg (·.toOption.getD []) (pointerSection_of_le found inside)
  rw [listedSelectors, held]
  change _ ↔ List.filterMap _ (List.map _ _) = ys
  rw [List.filterMap_map]
  refine collected_iff fun k s => ?_
  rw [Function.comp_apply, Option.join_eq_some_iff, toOption_eq_some_iff]
  exact selectorAt_iff

theorem ofImage_of_selectors (demangler : Demangler)
    (found : i.dataSection? "__objc_selrefs" = some t)
    (data : (i.dataSection? "__objc_classlist").isSome → (i.dataSection? "__objc_const").isSome) :
    ∃ m, Metadata.ofImage i demangler = .ok m := by
  have listed : selectorSection ∈ sectionNames := by decide
  have classes : classSection ∈ sectionNames := by decide
  have constants : constantSection ∈ sectionNames := by decide
  have here : selectorSection ∈ present i := (mem_present listed).2 (Option.isSome_of_eq_some found)
  refine ofImage_sure demangler (List.ne_nil_of_mem here) fun missing => missing.2 ?_
  exact (mem_present constants).2 (data ((mem_present classes).1 missing.1))

end

/-- Lists of methods, properties and instance variables, lists of protocols and the slots of
selectors give what their places tell, in order and one by one, and leave out the places that tell
nothing. Null stands for no list. -/
theorem entries_apart (i : Image) :
    (∀ (α : Type) (read : Image → Nat → Except Fault (List α)) (needs : EntryListHeader → Nat)
      (tells : Image → EntryListHeader → Nat → α → Prop), Entries read needs tells →
      read i 0 = .ok [] ∧ ∀ (list : Nat) h, list ≠ 0 →
        (i.recordAt EntryListHeader list).map (·.value) = .ok h →
        let size := h.entrySizeAndFlags &&& 0xFFFC
        needs h ≤ size → fits i list size h.count = .ok true →
        ∃ xs, read i list = .ok xs ∧ ∀ ys,
          Collected (fun k => tells i h (list + 8 + size * k)) 0 h.count ys ↔ xs = ys) ∧
    (protocolNames i 0 = .ok [] ∧ ∀ (list : Nat) h, list ≠ 0 →
      i.recordAt ProtocolListHeader list = .ok h → h.value.count < 500 →
      ∃ names, protocolNames i list = .ok names ∧ ∀ ys,
        Collected (fun k => ProtocolNamed i (list + 8 + 8 * k)) 0 h.value.count ys ↔ names = ys) ∧
    ∀ demangler t, i.dataSection? "__objc_selrefs" = some t →
      t.fileOffset + t.size ≤ i.region.size →
      (((i.dataSection? "__objc_classlist").isSome → (i.dataSection? "__objc_const").isSome) →
        ∃ m, Metadata.ofImage i demangler = .ok m) ∧
      ∀ m, Metadata.ofImage i demangler = .ok m → ∀ ys,
        Collected (SelectorOf i t) 0 (t.size / 8) ys ↔ m.selectorReferences = ys := by
  refine ⟨?_, ?_, ?_⟩
  · intro α read needs tells kind
    refine ⟨?_, fun list h notNull header => ?_⟩
    · obtain ⟨form, lists, -⟩ := kind.form
      rw [lists.eq]
      rfl
    · dsimp only
      rw [← entrySize_eq_and]
      exact list_collected kind notNull header
  · exact ⟨rfl, fun list h => protocolNames_collected⟩
  · intro demangler t found inside
    refine ⟨ofImage_of_selectors demangler found, fun m run ys => ?_⟩
    rw [ofImage_described run]
    exact listedSelectors_collected found inside

def damaged : Image := imageOf
  ([0x1000000B8, 7, 0x1000000BA,
    0x300000010, 0x1000000B8, 0, 7, 0, 0x1000000BA, 0,
    3, 0, 7, 0x100000070,
    0, 0x1000000BC, 0, 0, 0, 0, 0, 0, 0].flatMap wordBytes ++ [0x41, 0, 0x42, 0, 0x50, 0])
  [("__objc_selrefs", 0, 24)]

theorem entries_apart_damaged :
    (∃ xs, Property.list damaged 0x100000018 = .ok xs ∧ xs.map (·.name) = ["A", "B"] ∧
      Collected (fun k => Property.At damaged (0x100000018 + 8 + 16 * k)) 0 3 xs) ∧
    (protocolNames damaged 0x100000050 = .ok ["P"] ∧
      Collected (fun k => ProtocolNamed damaged (0x100000050 + 8 + 8 * k)) 0 3 ["P"]) ∧
    ∃ m t, Metadata.ofImage damaged none = .ok m ∧
      m.selectorReferences.map (fun s => (s.selector, s.slot)) =
        [("A", 0x100000000), ("B", 0x100000010)] ∧
      Collected (SelectorOf damaged t) 0 3 m.selectorReferences := by
  obtain ⟨lists, ⟨-, protocols⟩, selectors⟩ := entries_apart damaged
  refine ⟨?_, ?_, ?_⟩
  · obtain ⟨xs, run, collected⟩ := (lists _ _ _ _ .properties).2 0x100000018 ⟨0x10, 3⟩
      (by decide) (of_toOption_some (by decide +kernel)) (by decide)
      (of_toOption_some (by decide +kernel))
    have names : (Property.list damaged 0x100000018).toOption.map (·.map (·.name)) =
        some ["A", "B"] := by decide +kernel
    rw [run] at names
    exact ⟨xs, run, Option.some.inj names, (collected xs).2 rfl⟩
  · have told : (damaged.recordAt ProtocolListHeader 0x100000050).toOption.map (·.value.count) =
        some 3 := by decide +kernel
    obtain ⟨h, header, count⟩ := Option.map_eq_some_iff.1 told
    obtain ⟨names, run, collected⟩ := protocols 0x100000050 h (by decide)
      (of_toOption_some header) (by omega)
    have given : (protocolNames damaged 0x100000050).toOption = some ["P"] := by decide +kernel
    rw [run] at given
    obtain rfl := Option.some.inj given
    rw [count] at collected
    exact ⟨run, (collected _).2 rfl⟩
  · have place : (damaged.dataSection? "__objc_selrefs").map (fun t => (t.fileOffset, t.size)) =
        some (0, 24) := by decide +kernel
    have missing : (damaged.dataSection? "__objc_classlist").isSome = false := by decide +kernel
    have long : damaged.region.size = 190 := by decide +kernel
    obtain ⟨t, found, range⟩ := Option.map_eq_some_iff.1 place
    obtain ⟨start, size⟩ := Prod.mk.inj range
    obtain ⟨sure, collected⟩ := selectors none t found (by omega)
    obtain ⟨m, run⟩ := sure fun listed => absurd listed (by rw [missing]; decide)
    have told : (Metadata.ofImage damaged none).toOption.map (fun m =>
        m.selectorReferences.map fun s => (s.selector, s.slot)) =
        some [("A", 0x100000000), ("B", 0x100000010)] := by decide +kernel
    rw [run] at told
    have all := (collected m run _).2 rfl
    rw [size] at all
    exact ⟨m, t, run, Option.some.inj told, all⟩

end MachImage.Objc
