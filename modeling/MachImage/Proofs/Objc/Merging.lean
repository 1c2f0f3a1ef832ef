import MachImage.Proofs.Objc.ClassList
/-!
Classes and their categories. A class is recorded with the lists that it and its metaclass hold, and
each category that names its address adds to them, in the order of the category list. A category
that names no recorded class is kept as it is. None is in both places, and none is left out.
-/
namespace MachImage.Objc

theorem adopt_eq (names more : List String) :
    adopt names more = names ++ firsts id (more.filter (· ∉ names)) := by
  unfold adopt
  induction more generalizing names with
  | nil => simp [firsts]
  | cons name more ih =>
    rw [List.foldl_cons]
    by_cases known : name ∈ names
    · rw [if_pos known, ih, List.filter_cons_of_neg (by simpa using known)]
    · have others : more.filter (· ∉ names ++ [name]) =
          (more.filter (· ∉ names)).filter fun b => id b ≠ name := by
        simp [List.filter_filter, not_or, and_comm]
      have later := firsts_filter id (· ≠ name) (more.filter (· ∉ names))
      rw [if_neg known, ih, List.filter_cons_of_pos (by simpa using known), firsts, others, later]
      simp

/-- A body with what some categories add to it, in their order and behind what is there. -/
structure Extends (own : Body) (cs : List Category) (b : Body) : Prop where
  instanceMethods : b.instanceMethods = own.instanceMethods ++ cs.flatMap (·.instanceMethods)
  classMethods : b.classMethods = own.classMethods ++ cs.flatMap (·.classMethods)
  properties : b.properties = own.properties ++ cs.flatMap (·.properties)
  classProperties : b.classProperties = own.classProperties
  protocols : b.protocols = own.protocols ++
    firsts id ((cs.flatMap (·.protocols)).filter (· ∉ own.protocols))
  ivars : b.ivars = own.ivars
  metaclass : b.metaclass = own.metaclass

theorem extend_protocols (b : Body) (cs : List Category) :
    (cs.foldl Body.extend b).protocols = adopt b.protocols (cs.flatMap (·.protocols)) := by
  unfold adopt
  induction cs generalizing b with
  | nil => rfl
  | cons c cs ih =>
    rw [List.foldl_cons, ih, List.flatMap_cons, List.foldl_append]
    rfl

theorem extend_classProperties (b : Body) {cs : List Category}
    (none : ∀ c ∈ cs, c.classProperties = []) :
    (cs.foldl Body.extend b).classProperties = b.classProperties := by
  induction cs generalizing b with
  | nil => rfl
  | cons c cs ih =>
    rw [List.foldl_cons, ih (b.extend c) fun d member => none d (List.mem_cons_of_mem c member)]
    simp [Body.extend, none c List.mem_cons_self]

theorem extend_others (b : Body) (cs : List Category) :
    (cs.foldl Body.extend b).ivars = b.ivars ∧
      (cs.foldl Body.extend b).metaclass = b.metaclass := by
  induction cs generalizing b with
  | nil => exact ⟨rfl, rfl⟩
  | cons c cs ih => exact ih (b.extend c)

theorem foldl_extends (b : Body) {cs : List Category} (none : ∀ c ∈ cs, c.classProperties = []) :
    Extends b cs (cs.foldl Body.extend b) where
  instanceMethods := extend_instanceMethods b cs
  classMethods := extend_classMethods b cs
  properties := extend_properties b cs
  classProperties := extend_classProperties b none
  protocols := (extend_protocols b cs).trans (adopt_eq b.protocols _)
  ivars := (extend_others b cs).1
  metaclass := (extend_others b cs).2

/-- What stands for a list: the list that was read, or nothing if it cannot be read or a reading
before it cannot be done. -/
inductive Found {α : Type} (before : Prop) (read : Except Fault (List α)) : List α → Prop
  | given {xs : List α} (through : before) (found : read = .ok xs) : Found before read xs
  | missing (failed : before → ¬ Sure read) : Found before read []

structure HoldsOwn (i : Image) (d : Declaration) (b : Body) : Prop where
  instanceMethods : Found True (Method.list false i d.data.methods) b.instanceMethods
  properties : Found (Sure (Method.list false i d.data.methods))
    (Property.list i d.data.properties) b.properties
  protocols : Found (Sure (Method.list false i d.data.methods) ∧
    Sure (Property.list i d.data.properties)) (protocolNames i d.data.protocols) b.protocols
  ivars : Found (Sure (Method.list false i d.data.methods) ∧
    Sure (Property.list i d.data.properties) ∧ Sure (protocolNames i d.data.protocols))
    (Ivar.list i d.data.ivars) b.ivars

/-- Whether all lists of a class itself can be read, and it has a metaclass. -/
structure LeadsOn (i : Image) (d : Declaration) : Prop where
  methods : Sure (Method.list false i d.data.methods)
  properties : Sure (Property.list i d.data.properties)
  protocols : Sure (protocolNames i d.data.protocols)
  ivars : Sure (Ivar.list i d.data.ivars)
  metaclass : d.record.metaclass ≠ 0

def Declaration.metaclassMethods (i : Image) (d : Declaration) : Except Fault (List Method) := do
  Method.list true i (← classRecordAt i d.record.metaclass).2.methods

def Declaration.metaclassProperties (i : Image) (d : Declaration) :
    Except Fault (List Property) := do
  Property.list i (← classRecordAt i d.record.metaclass).2.properties

/-- The lists of a class and behind them those of its metaclass, each as it was read. -/
structure Holds (i : Image) (d : Declaration) (b : Body) : Prop extends HoldsOwn i d b where
  metaclass : ∀ p, b.metaclass = some p ↔ LeadsOn i d ∧ p = d.record.metaclass
  classMethods : Found (LeadsOn i d) (d.metaclassMethods i) b.classMethods
  classProperties : Found (LeadsOn i d ∧ Sure (d.metaclassMethods i)) (d.metaclassProperties i)
    b.classProperties

theorem not_sure_error {α : Type} (e : Fault) : ¬ Sure (.error e : Except Fault α) := by
  rintro ⟨a, read⟩
  cases read

theorem fill_list {α : Type} {read : Except Fault (List α)} {set : List α → Body → Body}
    {rest : List (Body → Except Fault Body)} {b c : Body}
    (run : fill ((fun b => do return set (← read) b) :: rest) b = .ok c) :
    (∃ xs, read = .ok xs ∧ fill rest (set xs b) = .ok c) ∨ ¬ Sure read ∧ c = b := by
  cases read with
  | ok xs => exact .inl ⟨xs, rfl, run⟩
  | error e =>
    obtain ⟨found, held, run⟩ := of_bind_ok run
    cases found with
    | some d => cases of_attempt_ok held
    | none =>
      cases run
      exact .inr ⟨not_sure_error e, rfl⟩

theorem HoldsOwn.alone {i : Image} {d : Declaration} {b : Body} (own : HoldsOwn i d b)
    (ends : ¬ LeadsOn i d) (fresh : b.metaclass = none ∧ b.classMethods = [] ∧
      b.classProperties = []) : Holds i d b where
  toHoldsOwn := own
  metaclass p := by simp [fresh.1, ends]
  classMethods := by
    rw [fresh.2.1]
    exact .missing fun on => absurd on ends
  classProperties := by
    rw [fresh.2.2]
    exact .missing fun on => absurd on.1 ends

theorem fill_classStages {i : Image} {d : Declaration} (notNull : d.record.metaclass ≠ 0)
    (b : Body) : fill (classStages i d.record.metaclass) b =
      fill [fun b => do return { b with classMethods := ← d.metaclassMethods i },
        fun b => do return { b with classProperties := ← d.metaclassProperties i }]
        { b with metaclass := some d.record.metaclass } := by
  unfold Declaration.metaclassMethods Declaration.metaclassProperties
  rw [classStages, if_neg notNull]
  cases classRecordAt i d.record.metaclass with
  | error e => rfl
  | ok found => rfl

theorem HoldsOwn.led {i : Image} {d : Declaration} {b c : Body} (own : HoldsOwn i d b)
    (on : LeadsOn i d) (fresh : b.classMethods = [] ∧ b.classProperties = [])
    (run : fill (classStages i d.record.metaclass) b = .ok c) : Holds i d c := by
  have named (p : Nat) : some d.record.metaclass = some p ↔
      LeadsOn i d ∧ p = d.record.metaclass := by
    rw [Option.some.injEq, eq_comm]
    exact ⟨fun same => ⟨on, same⟩, fun both => both.2⟩
  obtain ⟨noMethods, noProperties⟩ := fresh
  rw [fill_classStages on.metaclass] at run
  obtain ⟨methods, first, run⟩ | ⟨failed, rfl⟩ := fill_list run
  · obtain ⟨properties, second, run⟩ | ⟨failed, rfl⟩ := fill_list run
    · cases run
      exact ⟨{ own with }, named, .given on first, .given ⟨on, methods, first⟩ second⟩
    · refine ⟨{ own with }, named, .given on first, ?_⟩
      rw [noProperties]
      exact .missing fun _ => failed
  · refine ⟨{ own with }, named, ?_, ?_⟩
    · rw [noMethods]
      exact .missing fun _ => failed
    · rw [noProperties]
      exact .missing fun both => absurd both.2 failed

theorem body_holds {i : Image} {d : Declaration} {b : Body} (run : d.body i = .ok b) :
    Holds i d b := by
  unfold Declaration.body instanceStages at run
  obtain ⟨methods, first, run⟩ | ⟨failed, rfl⟩ := fill_list run
  · have one : Sure (Method.list false i d.data.methods) := ⟨methods, first⟩
    obtain ⟨properties, second, run⟩ | ⟨failed, rfl⟩ := fill_list run
    · have two : Sure (Property.list i d.data.properties) := ⟨properties, second⟩
      obtain ⟨protocols, third, run⟩ | ⟨failed, rfl⟩ := fill_list run
      · have three : Sure (protocolNames i d.data.protocols) := ⟨protocols, third⟩
        obtain ⟨ivars, fourth, run⟩ | ⟨failed, rfl⟩ := fill_list run
        · have four : Sure (Ivar.list i d.data.ivars) := ⟨ivars, fourth⟩
          have own : HoldsOwn i d ⟨none, methods, [], properties, [], ivars, protocols⟩ :=
            ⟨.given trivial first, .given one second, .given ⟨one, two⟩ third,
              .given ⟨one, two, three⟩ fourth⟩
          by_cases null : d.record.metaclass = 0
          · rw [classStages, if_pos null] at run
            cases run
            exact own.alone (fun on => on.metaclass null) ⟨rfl, rfl, rfl⟩
          · exact own.led ⟨one, two, three, four, null⟩ ⟨rfl, rfl⟩ run
        · exact HoldsOwn.alone ⟨.given trivial first, .given one second, .given ⟨one, two⟩ third,
            .missing fun _ => failed⟩ (fun on => failed on.ivars) ⟨rfl, rfl, rfl⟩
      · exact HoldsOwn.alone ⟨.given trivial first, .given one second, .missing fun _ => failed,
          .missing fun on => absurd on.2.2 failed⟩ (fun on => failed on.protocols) ⟨rfl, rfl, rfl⟩
    · exact HoldsOwn.alone ⟨.given trivial first, .missing fun _ => failed,
        .missing fun on => absurd on.2 failed, .missing fun on => absurd on.2.1 failed⟩
        (fun on => failed on.properties) ⟨rfl, rfl, rfl⟩
  · exact HoldsOwn.alone ⟨.missing fun _ => failed, .missing fun on => absurd on failed,
      .missing fun on => absurd on.1 failed, .missing fun on => absurd on.1 failed⟩
      (fun on => failed on.methods) ⟨rfl, rfl, rfl⟩

theorem categoryAt_record {i : Image} {address : Nat} {c : Category}
    (read : categoryAt i address = .ok (some c)) :
    ∃ r, i.recordAt CategoryRecord address = .ok r ∧
      c.target = (if r.value.baseClass = 0 then none else some r.value.baseClass) ∧
        c.classProperties = [] := by
  obtain ⟨r, held, read⟩ := of_bind_ok read
  dsimp only at read
  split at read
  · cases read
  · obtain ⟨name, -, read⟩ := of_bind_ok read
    obtain ⟨instanceMethods, -, read⟩ := of_bind_ok read
    obtain ⟨classMethods, -, read⟩ := of_bind_ok read
    obtain ⟨protocols, -, read⟩ := of_bind_ok read
    obtain ⟨properties, -, read⟩ := of_bind_ok read
    cases read
    exact ⟨r, held, rfl, rfl⟩

theorem listedCategories_eq (i : Image) : listedCategories i =
    (listed i "__objc_catlist").filterMap fun p => (categoryAt i p).toOption.join := by
  rw [listedCategories, targets_slots]
  rfl

theorem classProperties_of_listed {i : Image} {c : Category} (member : c ∈ listedCategories i) :
    c.classProperties = [] := by
  obtain ⟨p, -, read⟩ := List.mem_filterMap.1 member
  cases found : categoryAt i p with
  | error e => simp [found, Except.toOption] at read
  | ok o =>
    simp only [found, Except.toOption, Option.join_some] at read
    subst read
    obtain ⟨r, -, -, none⟩ := categoryAt_record found
    exact none

theorem isForeign_iff (ds : Table Nat Declaration) (target : Option Nat) :
    isForeign ds target = true ↔ ∀ p ∈ ds.keys, target ≠ some p := by
  cases target with
  | none => simp [isForeign]
  | some p =>
    simp only [isForeign, Option.bind_some, Option.isNone_iff_eq_none, Table.get?_eq_none_iff,
      ne_eq, Option.some.injEq]
    exact ⟨fun absent q member same => absent (same ▸ member),
      fun others member => others p member rfl⟩

section
variable {i : Image} {demangler : Demangler}

theorem records_addresses :
    (records i demangler).map (·.address) = (declarations i).keys := by
  rw [records, List.map_map, declarations_keys]
  rfl

theorem record_of_member {c : Class} (member : c ∈ records i demangler) :
    ∃ d, Declaration.at? i c.address = some d ∧
      c = record i demangler (listedCategories i) d := by
  obtain ⟨d, among, rfl⟩ := List.mem_map.1 member
  rw [declarations_values] at among
  obtain ⟨p, -, found⟩ := List.mem_filterMap.1 (firsts_subset _ _ among)
  refine ⟨d, ?_, rfl⟩
  rw [← at?_address found] at found
  exact found

theorem record_merged {c : Class} (member : c ∈ records i demangler) :
    ∃ d own, Declaration.at? i c.address = some d ∧ d.body i = .ok own ∧ Holds i d own ∧
      Extends own ((listedCategories i).filter (·.target = some c.address)) c.body := by
  obtain ⟨d, place, same⟩ := record_of_member member
  have body := body_eq i d
  refine ⟨d, d.ownBody i, place, body, body_holds body, ?_⟩
  rw [same]
  apply foldl_extends
  intro c member
  exact classProperties_of_listed (List.mem_filter.1 member).1

/-- A category is kept apart exactly if it names no class that is recorded. -/
theorem unmerged_iff (c : Category) : isForeign (declarations i) c.target =
    decide (∀ r ∈ records i demangler, c.target ≠ some r.address) := by
  have addresses := @records_addresses i demangler
  rw [Bool.eq_iff_iff, isForeign_iff, decide_eq_true_iff, ← addresses]
  simp

theorem foreign_categories {m : Metadata} (run : Metadata.ofImage i demangler = .ok m) :
    m.categories.map (·.category) =
      ((listedCategories i).filter fun c =>
        ∀ r ∈ records i demangler, c.target ≠ some r.address).map
        fun c => { c with target := none } := by
  rw [ofImage_described run, described, List.map_map,
    List.filter_congr fun c _ => @unmerged_iff i demangler c]
  rfl

theorem mem_declarations_keys (p : Nat) : p ∈ (declarations i).keys ↔
    p ∈ listed i "__objc_classlist" ∧ (Declaration.at? i p).isSome := by
  rw [declarations_keys, declarations_values, List.mem_map]
  constructor
  · rintro ⟨d, first, rfl⟩
    obtain ⟨q, member, found⟩ := List.mem_filterMap.1 (firsts_subset _ _ first)
    rw [at?_address found, found]
    exact ⟨member, rfl⟩
  · rintro ⟨member, readable⟩
    obtain ⟨d, found⟩ := Option.isSome_iff_exists.1 readable
    obtain ⟨e, first, same⟩ := mem_firsts (·.address) (List.mem_filterMap.2 ⟨p, member, found⟩)
    exact ⟨e, first, same.trans (at?_address found)⟩

/-- When an extraction ends, each class that it has recorded holds the lists that were read of it
and of its metaclass, and behind them those of the categories that name its address, in their order.
The other categories are kept with all that they hold. -/
theorem categories_merged {m : Metadata} {t : Registry}
    (run : (Pass.extract i demangler).outcome {} = (.ok m, t)) :
    Metadata.ofImage i demangler = .ok m ∧ ∃ cs : List Category, readCategories i = .ok cs ∧
      cs = ((listed i "__objc_catlist").filterMap fun p => (categoryAt i p).toOption.join) ∧
      (∀ p c, categoryAt i p = .ok (some c) → ∃ r, i.recordAt CategoryRecord p = .ok r ∧
        c.target = if r.value.baseClass = 0 then none else some r.value.baseClass) ∧
      t.classes.keys.Nodup ∧
      (∀ p, p ∈ t.classes.keys ↔
        p ∈ listed i "__objc_classlist" ∧ (Declaration.at? i p).isSome) ∧
      (∀ p c, t.classes.get? p = some c → c.address = p ∧
        ∃ d own, Declaration.at? i p = some d ∧ Holds i d own ∧
          Extends own (cs.filter (·.target = some p)) c.body) ∧
      m.classes.values = firsts (·.name) t.classes.values ∧
      m.categories.map (·.category) =
        (cs.filter fun c => (c.target.bind t.classes.get?).isNone).map
          fun c => { c with target := none } := by
  have ends : Metadata.ofImage i demangler = .ok m := congrArg Prod.fst run
  have classes := classes_of_extract run
  have keys : t.classes.keys = (declarations i).keys := by
    rw [classes, Table.keys_mapValues]
  have look (p : Nat) : t.classes.get? p =
      ((declarations i).get? p).map (record i demangler (listedCategories i)) := by
    rw [classes, Table.get?_mapValues]
  refine ⟨ends, listedCategories i, readCategories_eq i, listedCategories_eq i, ?_, ?_, ?_, ?_, ?_,
    ?_⟩
  · intro p c read
    obtain ⟨r, held, target, -⟩ := categoryAt_record read
    exact ⟨r, held, target⟩
  · rw [keys]
    exact declarations_nodup i
  · intro p
    rw [keys, mem_declarations_keys]
  · intro p c found
    rw [look, Option.map_eq_some_iff] at found
    obtain ⟨d, declared, same⟩ := found
    have entered := Table.mem_of_get? declared
    have address : c.address = p := by
      rw [← same]
      exact at?_address (at?_of_mem_declarations entered)
    have member : c ∈ records i demangler := by
      rw [← same]
      exact List.mem_map_of_mem (List.mem_map.2 ⟨_, entered, rfl⟩)
    obtain ⟨e, own, place, -, holds, merged⟩ := record_merged member
    rw [address] at place merged
    exact ⟨address, e, own, place, holds, merged⟩
  · rw [classes_values ends, classes, Table.values_mapValues]
    rfl
  · rw [ofImage_described ends, described, List.map_map]
    have foreign (c : Category) : isForeign (declarations i) c.target =
        (c.target.bind t.classes.get?).isNone := by
      cases target : c.target with
      | none => rfl
      | some p => simp [isForeign, look]
    simp only [foreign]
    rfl

end

theorem sure_of_told {α β : Type} {read : Except Fault α} {f : α → β} {b : β}
    (told : read.toOption.map f = some b) : Sure read := by
  obtain ⟨a, found, -⟩ := Option.map_eq_some_iff.1 told
  exact ⟨a, of_toOption_some found⟩

theorem Found.told {α β : Type} {before : Prop} {read : Except Fault (List α)} {xs : List α}
    {f : List α → β} {b : β} (found : Found before read xs) (through : before)
    (told : read.toOption.map f = some b) : f xs = b := by
  cases found with
  | missing failed => exact absurd (sure_of_told told) (failed through)
  | given _ read => simpa [read, Except.toOption] using told

def filledClass : Image := imageOf
  ([0x100000018,
    0x1000000F8, 0x100000128,
    0x100000040, 0, 0, 0, 0x100000068,
    0, 0, 0, 0, 0x1000000B0,
    0, 0, 0, 0x100000220, 0x100000158, 0, 0, 0, 0x1000001D8,
    0, 0, 0, 0, 0x100000178, 0, 0, 0, 0x1000001F0,
    0x100000222, 0x100000018, 0x100000198, 0x1000001B8, 0, 0x100000208,
    0x100000224, 0x100000018, 0x100000198, 0, 0, 0,
    24 + 1 <<< 32, 0x100000226, 0, 0,
    24 + 1 <<< 32, 0x100000228, 0, 0,
    24 + 1 <<< 32, 0x10000022A, 0, 0,
    24 + 1 <<< 32, 0x10000022C, 0, 0,
    16 + 1 <<< 32, 0x10000022E, 0,
    16 + 1 <<< 32, 0x100000230, 0,
    16 + 1 <<< 32, 0x100000232, 0].flatMap wordBytes ++
    [0x41, 0, 0x43, 0, 0x44, 0, 0x61, 0, 0x62, 0, 0x63, 0, 0x64, 0, 0x70, 0, 0x71, 0, 0x72, 0])
  [("__objc_classlist", 0, 8), ("__objc_catlist", 8, 16), ("__objc_const", 24, 540)]

theorem categories_merged_methods : ∃ m t c,
    (Pass.extract filledClass none).outcome {} = (.ok m, t) ∧
    t.classes.get? 0x100000018 = some c ∧
    c.body.instanceMethods.map (·.name) = ["a", "c", "c"] ∧
    c.body.classMethods.map (·.name) = ["b", "d"] ∧
    c.body.properties.map (·.name) = ["p", "r"] ∧
    c.body.classProperties.map (·.name) = ["q"] ∧ m.categories = [] := by
  have some_present : present filledClass ≠ [] := by decide +kernel
  have data : constantSection ∈ present filledClass := by decide +kernel
  obtain ⟨t, run, -⟩ := extract_through none some_present fun missing => missing.2 data
  obtain ⟨-, cs, categories, -, -, once, listed, merged, -, kept⟩ := categories_merged run
  rw [readCategories_eq, Except.ok.injEq] at categories
  subst categories
  have recorded : 0x100000018 ∈ t.classes.keys := (listed _).2 (by decide +kernel)
  obtain ⟨⟨_, c⟩, member, rfl⟩ := List.mem_map.1 recorded
  have found := Table.get?_of_mem once member
  obtain ⟨-, d, own, place, holds, extended⟩ := merged _ c found
  have told : (Declaration.at? filledClass 0x100000018).map (fun d =>
      ([(Method.list false filledClass d.data.methods).toOption.map (·.map (·.name)),
        (Property.list filledClass d.data.properties).toOption.map (·.map (·.name)),
        (protocolNames filledClass d.data.protocols).toOption,
        (Ivar.list filledClass d.data.ivars).toOption.map (·.map (·.name)),
        (d.metaclassMethods filledClass).toOption.map (·.map (·.name)),
        (d.metaclassProperties filledClass).toOption.map (·.map (·.name))],
        d.record.metaclass)) =
      some ([some ["a"], some ["p"], some [], some [], some ["b"], some ["q"]], 0x100000040) := by
    decide +kernel
  rw [place] at told
  simp only [Option.map_some, Option.some.injEq, Prod.mk.injEq, List.cons.injEq] at told
  obtain ⟨⟨methods, properties, protocols, ivars, classMethods, classProperties, -⟩, metaclass⟩ :=
    told
  have on : LeadsOn filledClass d := ⟨sure_of_told methods, sure_of_told properties,
    ⟨_, of_toOption_some protocols⟩, sure_of_told ivars, by rw [metaclass]; decide⟩
  have added : (listedCategories filledClass).map (fun k => (k.target,
      k.instanceMethods.map (·.name), k.classMethods.map (·.name), k.properties.map (·.name))) =
      [(some 0x100000018, ["c"], ["d"], ["r"]), (some 0x100000018, ["c"], [], [])] := by
    decide +kernel
  obtain ⟨k, rest, whole, one, others⟩ := List.map_eq_cons_iff.1 added
  obtain ⟨l, rest, rfl, two, nothing⟩ := List.map_eq_cons_iff.1 others
  obtain rfl := List.map_eq_nil_iff.1 nothing
  simp only [Prod.mk.injEq] at one two
  simp only [whole, List.filter_cons, one.1, two.1, decide_true, if_true] at extended
  simp only [whole, List.filter_cons, one.1, two.1, Option.bind_some, found] at kept
  refine ⟨_, t, c, run, found, ?_, ?_, ?_, ?_, List.map_eq_nil_iff.1 kept⟩
  · have own := holds.instanceMethods.told trivial methods
    simp [extended.instanceMethods, own, one, two]
  · have own := holds.classMethods.told on classMethods
    simp [extended.classMethods, own, one, two]
  · have own := holds.properties.told on.methods properties
    simp [extended.properties, own, one, two]
  · rw [extended.classProperties]
    exact holds.classProperties.told ⟨on, sure_of_told classMethods⟩ classProperties

end MachImage.Objc
