import MachImage.Proofs.Objc.Description
import MachImage.Proofs.Table.Firsts
/-!
The passes over the classes of an image. Each pass leaves the table with one entry for each class
that was entered, and what it says of a class depends on the class alone: the walk over the class
list enters the declarations, the second pass names superclasses and fills in bodies, and merging
one category after the other gives each class those that name it.
-/
namespace MachImage.Objc
open Halting Registry Pass

/-- What the next pointer of the class list adds to what is remembered. -/
def remember (i : Image) (known : Table Nat Declaration) (p : Nat) : Table Nat Declaration :=
  if p ∈ known.keys then known
  else match Declaration.at? i p with
    | some d => known ++ [(p, d)]
    | none => known

section
variable (i : Image)

theorem foldl_remember (known : Table Nat Declaration) (ps : List Nat) :
    ps.foldl (remember i) known = known ++ (firsts (·.1) (ps.filterMap fun p =>
      (Declaration.at? i p).map fun d => (p, d))).filter (·.1 ∉ known.keys) := by
  induction ps generalizing known with
  | nil => simp [firsts]
  | cons p ps ih =>
    rw [List.foldl_cons, ih, remember]
    cases read : Declaration.at? i p with
    | none => simp [read]
    | some d =>
      rw [List.filterMap_cons, read, Option.map_some, firsts]
      by_cases seen : p ∈ known.keys
      · rw [if_pos seen, List.filter_cons_of_neg (by simpa using seen), List.filter_filter]
        congr 1
        apply List.filter_congr
        intro q _
        by_cases same : q.1 = p
        · simp [same, seen]
        · simp [same]
      · have keys : Table.keys (known ++ [(p, d)]) = known.keys ++ [p] := List.map_append
        rw [if_neg seen, List.filter_cons_of_pos (by simpa using seen), List.filter_filter]
        dsimp only
        rw [keys, List.append_assoc, List.singleton_append]
        congr 2
        apply List.filter_congr
        intro q _
        simp

theorem declarations_remembered :
    declarations i = (targets (slots i classSection)).foldl (remember i) [] := by
  rw [foldl_remember, declarations, Table.ofListFirst, Table.distinct_eq]
  simp [Table.keys]

theorem declarations_nodup : (declarations i).keys.Nodup := by
  rw [declarations, Table.ofListFirst, Table.distinct_eq]
  exact (firsts_nodup _ _).sublist (List.filter_sublist.map _)

end

section
variable (i : Image) (demangler : Demangler)

structure Entered (ds : Table Nat Declaration) (t : Registry) : Prop where
  classes : t.classes = ds.mapValues fun _ d => d.entered demangler
  pending : ∀ p, t.pending.get? p = (ds.get? p).bind (·.superclass?)
  metaclasses : t.metaclasses = []

theorem entered_enterClass {known : Table Nat Declaration} {t : Registry}
    (held : Entered demangler known t) (p : Nat) :
    ∃ after, (enterClass i demangler p).outcome t = (.ok (), after) ∧
      Entered demangler (remember i known p) after := by
  have look : t.classes.get? p = (known.get? p).map (·.entered demangler) := by
    rw [held.classes, Table.get?_mapValues]
  rw [enterClass, bind_of_ok (outcome_get t), look, Option.isNone_map, remember]
  by_cases seen : p ∈ known.keys
  · have present : ¬ (known.get? p).isNone := by
      simpa [Table.get?_eq_none_iff] using seen
    rw [if_neg present, if_pos seen]
    exact ⟨t, rfl, held⟩
  · have absent : known.get? p = none := (Table.get?_eq_none_iff known p).2 seen
    rw [if_pos (by rw [absent]; rfl), if_neg seen, attempt_of_tame (declaration_tame i p),
      bind_of_ok (outcome_ofResult _ t), ← Declaration.at?]
    cases found : Declaration.at? i p with
    | none => exact ⟨t, rfl, held⟩
    | some d =>
      refine ⟨enter demangler d t, rfl, ?_, fun q => ?_, held.metaclasses⟩
      · rw [enter, held.classes, at?_address found]
        change _ = Table.mapValues _ (known ++ [(p, d)])
        simp [Table.mapValues]
      · rw [enter, at?_address found]
        dsimp only
        rw [Table.get?_append, Table.get?_append, held.pending q]
        by_cases same : p = q
        · subst same
          cases above : d.superclass? <;> simp [absent, above, Table.get?]
        · cases d.superclass? <;> cases known.get? q <;> simp [same, Table.get?]

theorem outcome_enterClasses :
    ∃ t, (enterClasses i demangler).outcome {} = (.ok (), t) ∧
      Entered demangler (declarations i) t := by
  have start : Entered demangler [] {} := ⟨rfl, fun _ => rfl, rfl⟩
  obtain ⟨t, walk, held⟩ := outcome_forM
    (fun done _ t => Entered demangler (done.foldl (remember i) []) t)
    (fun done p rest t held => by
      rw [List.foldl_append]
      exact entered_enterClass i demangler held p) start
  refine ⟨t, ?_, by rw [declarations_remembered]; exact held⟩
  rw [enterClasses, readSlots_eq, bind_of_ok (outcome_ofResult _ _)]
  exact walk

def Declaration.named (d : Declaration) : Class :=
  { d.entered demangler with superclass := d.superclass?.map (nameAt i demangler) }

/-- However far the classes are filled in, they tell their names. -/
theorem outcome_className {t : Registry} {f : Nat → Declaration → Class}
    (held : t.classes = (declarations i).mapValues f)
    (called : ∀ p d, (f p d).name = d.name demangler) (p : Nat) :
    (className i demangler p).outcome t = (.ok (nameAt i demangler p), t) := by
  rw [className, bind_of_ok (outcome_get t), held, Table.get?_mapValues, nameAt]
  cases found : (declarations i).get? p with
  | none =>
    rw [Option.map_none, outcome_ofResult, classNameAt_eq, nameAt]
  | some d =>
    rw [at?_of_mem_declarations (Table.mem_of_get? found), Option.map_some]
    dsimp only
    rw [called]
    rfl

/-- The classes at some places are named, and the superclasses of the others are pending. -/
structure Naming (done : List Nat) (t : Registry) : Prop where
  classes : t.classes = (declarations i).mapValues fun p d =>
    if p ∈ done then d.named i demangler else d.entered demangler
  pending : ∀ p ∉ done, t.pending.get? p = ((declarations i).get? p).bind (·.superclass?)
  metaclasses : t.metaclasses = []

theorem naming_nameSuperclass {done : List Nat} {t : Registry} (held : Naming i demangler done t)
    {p : Nat} {d : Declaration} (entered : (p, d) ∈ declarations i) (fresh : p ∉ done) :
    ∃ after, (nameSuperclass i demangler p).outcome t = (.ok (), after) ∧
      Naming i demangler (done ++ [p]) after := by
  have waiting : t.pending.get? p = d.superclass? := by
    rw [held.pending p fresh, Table.get?_of_mem (declarations_nodup i) entered]
    rfl
  have others : ∀ q ∉ done ++ [p], q ∉ done ∧ q ≠ p := by simp
  rw [nameSuperclass, bind_of_ok (outcome_get t), waiting]
  cases above : d.superclass? with
  | none =>
    refine ⟨t, rfl, ?_, fun q later => held.pending q (others q later).1, held.metaclasses⟩
    rw [held.classes]
    apply Table.mapValues_congr_at (declarations_nodup i) entered
    · simp [fresh, Declaration.named, Declaration.entered, above]
    · intro q e other
      simp [other]
  | some q =>
    dsimp only
    let popped : Registry := { t with pending := t.pending.erase p }
    have name := outcome_className i demangler (t := popped) held.classes
      (fun p d => by split <;> rfl) q
    refine ⟨updateClass p (fun c => { c with superclass := some (nameAt i demangler q) }) popped,
      ?_, ?_, fun r later => ?_, held.metaclasses⟩
    · rw [bind_of_ok (outcome_modify _ t), bind_of_ok name]
      rfl
    · rw [updateClass]
      dsimp only
      rw [held.classes, Table.update_mapValues]
      apply Table.mapValues_congr_at (declarations_nodup i) entered
      · simp [fresh, Declaration.named, above]
      · intro r e other
        simp [other]
    · have apart := others r later
      rw [updateClass]
      dsimp only
      rw [Table.get?_erase, if_neg apart.2]
      exact held.pending r apart.1

theorem outcome_forM_keys {step : Nat → Pass Unit} {holds : List Nat → Registry → Prop}
    (each : ∀ done p d t, holds done t → (p, d) ∈ declarations i → p ∉ done →
      ∃ after, (step p).outcome t = (.ok (), after) ∧ holds (done ++ [p]) after)
    {t : Registry} (start : holds [] t) :
    ∃ after, (forM (declarations i).keys step).outcome t = (.ok (), after) ∧
      holds (declarations i).keys after := by
  obtain ⟨after, walk, -, held⟩ := outcome_forM
    (fun done rest t => done ++ rest = (declarations i).keys ∧ holds done t)
    (fun done p rest t ⟨whole, held⟩ => by
      have listed : p ∈ (declarations i).keys := by simp [← whole]
      have fresh : p ∉ done := by
        have once := declarations_nodup i
        rw [← whole, List.nodup_append] at once
        exact fun early => once.2.2 p early p List.mem_cons_self rfl
      obtain ⟨⟨_, d⟩, member, rfl⟩ := List.mem_map.1 listed
      obtain ⟨after, run, held⟩ := each done _ d t held member fresh
      exact ⟨after, run, by simpa using whole, held⟩) ⟨rfl, start⟩
  exact ⟨after, walk, held⟩

theorem outcome_nameSuperclasses {t : Registry} (held : Entered demangler (declarations i) t) :
    ∃ after, (nameSuperclasses i demangler).outcome t = (.ok (), after) ∧
      after.classes = ((declarations i).mapValues fun _ d => d.named i demangler) ∧
      after.metaclasses = [] := by
  have start : Naming i demangler [] t :=
    ⟨by simpa using held.classes, fun p _ => held.pending p, held.metaclasses⟩
  obtain ⟨after, walk, named⟩ := outcome_forM_keys i (fun done p d t held member fresh =>
    naming_nameSuperclass i demangler held member fresh) start
  refine ⟨after, ?_, ?_, named.metaclasses⟩
  · rw [nameSuperclasses, bind_of_ok (outcome_get t), held.classes, Table.keys_mapValues]
    exact walk
  · rw [named.classes]
    apply Table.mapValues_congr
    intro p d member
    rw [if_pos (Table.mem_keys member)]

end

/-- The metaclasses that are remembered are as they are read. -/
def Faithful (i : Image) (known : Table Nat ClassData) : Prop :=
  ∀ p d, known.get? p = some d → ∃ r, classRecordAt i p = .ok (r, d)

/-- How a step that changes a body as `f` does compares with stages. Either all of them are run, and
the step goes on, or one of them fails, and the step halts. -/
inductive Matches (stages : List (Body → Except Fault Body)) (f : Body → Body) :
    Except Fault Unit → Prop
  | through (run : ∀ b more, fill (stages ++ more) b = fill more (f b)) : Matches stages f (.ok ())
  | halted (e : Fault) (expected : e.isExpected = true)
      (run : ∀ b more, fill (stages ++ more) b = .ok (f b)) : Matches stages f (.error e)

theorem Matches.whole {stages : List (Body → Except Fault Body)} {f : Body → Body}
    {ending : Except Fault Unit} (same : Matches stages f ending) (b : Body) :
    fill stages b = .ok (f b) := by
  rw [← List.append_nil stages]
  cases same with
  | through run => exact run b []
  | halted e expected run => exact run b []

theorem Matches.caught {stages : List (Body → Except Fault Body)} {f : Body → Body}
    {ending : Except Fault Unit} (same : Matches stages f ending) :
    ∃ found, attempt ending = .ok found := by
  cases same with
  | through run => exact ⟨some (), rfl⟩
  | halted e expected run => exact ⟨none, by rw [attempt, if_pos expected]⟩

def Fills (i : Image) (p : Nat) (step : Pass Unit)
    (stages : List (Body → Except Fault Body)) : Prop :=
  ∀ t, Faithful i t.metaclasses → ∃ ending f known, Faithful i known ∧
    step.outcome t = (ending, { t.updateBody p f with metaclasses := known }) ∧
    Matches stages f ending

section
variable {i : Image} {p : Nat}

theorem fill_failed {stage : Body → Except Fault Body} {rest : List (Body → Except Fault Body)}
    {e : Fault} (expected : e.isExpected = true) {b : Body} (failed : stage b = .error e) :
    fill (stage :: rest) b = .ok b := by
  rw [fill, failed, attempt, if_pos expected]
  rfl

theorem updateBody_id (t : Registry) : t.updateBody p id = t := by
  have same : t.classes.update p (fun c => c) = t.classes := by
    rw [Table.update, Table.mapValues]
    simp
  rw [updateBody, updateClass]
  simp only [id_eq, same]

theorem updateBody_updateBody (t : Registry) (f g : Body → Body) :
    (t.updateBody p f).updateBody p g = t.updateBody p fun b => g (f b) := by
  rw [updateBody, updateBody, updateClass, updateClass]
  dsimp only
  rw [Table.update_update]
  rfl

theorem fills_pure : Fills i p (pure ()) [] := fun t faithful =>
  ⟨.ok (), id, t.metaclasses, faithful, by rw [updateBody_id]; rfl, .through fun _ _ => rfl⟩

theorem fills_modify (f : Body → Body) : Fills i p (modify (updateBody p f)) [fun b => .ok (f b)] :=
  fun t faithful => ⟨.ok (), f, t.metaclasses, faithful, rfl, .through fun _ _ => rfl⟩

theorem fills_list {α : Type} {read : Except Fault (List α)} (tame : Tame read)
    (set : List α → Body → Body) :
    Fills i p (fillList p read set) [fun b => do return set (← read) b] := by
  intro t faithful
  cases read with
  | error e =>
    refine ⟨.error e, id, t.metaclasses, faithful, by rw [updateBody_id]; rfl,
      .halted e (tame.expected e rfl) fun b more => ?_⟩
    exact fill_failed (tame.expected e rfl) rfl
  | ok entries =>
    exact ⟨.ok (), set entries, t.metaclasses, faithful, rfl, .through fun _ _ => rfl⟩

theorem Fills.append {first next : Pass Unit} {stages later : List (Body → Except Fault Body)}
    (one : Fills i p first stages) (two : Fills i p next later) :
    Fills i p (first >>= fun _ => next) (stages ++ later) := by
  intro t faithful
  obtain ⟨ending, f, known, faithful, run, same⟩ := one t faithful
  cases same with
  | halted e expected stop =>
    refine ⟨.error e, f, known, faithful, ?_, .halted e expected fun b more => ?_⟩
    · rw [outcome_bind, run]
    · rw [List.append_assoc, stop]
  | through onward =>
    obtain ⟨ending, g, later, faithful, after, same⟩ :=
      two { t.updateBody p f with metaclasses := known } faithful
    refine ⟨ending, fun b => g (f b), later, faithful, ?_, ?_⟩
    · rw [bind_of_ok run, after]
      exact congrArg (fun u : Registry => (ending, { u with metaclasses := later }))
        (updateBody_updateBody t f g)
    · cases same with
      | halted e expected stop =>
        exact .halted e expected fun b more => by rw [List.append_assoc, onward, stop]
      | through last =>
        exact .through fun b more => by rw [List.append_assoc, onward, last]

theorem fills_instance (i : Image) (p : Nat) (d : ClassData) :
    Fills i p (fillInstance i p d) (instanceStages i d) :=
  (fills_list (methodList_tame false i d.methods) _).append <|
    (fills_list (propertyList_tame i d.properties) _).append <|
      (fills_list (protocolNames_tame i d.protocols) _).append <|
        fills_list (ivarList_tame i d.ivars) _

theorem outcome_metaclassData (metaclass : Nat) {t : Registry}
    (faithful : Faithful i t.metaclasses) :
    ∃ known, Faithful i known ∧ (metaclassData i metaclass).outcome t =
      ((classRecordAt i metaclass).map (·.2), { t with metaclasses := known }) := by
  rw [metaclassData, bind_of_ok (outcome_get t)]
  cases found : t.metaclasses.get? metaclass with
  | some d =>
    obtain ⟨r, read⟩ := faithful metaclass d found
    exact ⟨t.metaclasses, faithful, by rw [read]; rfl⟩
  | none =>
    cases read : classRecordAt i metaclass with
    | error e => exact ⟨t.metaclasses, faithful, rfl⟩
    | ok both =>
      obtain ⟨r, d⟩ := both
      refine ⟨t.metaclasses ++ [(metaclass, d)], fun q e among => ?_, rfl⟩
      rw [Table.get?_append, Option.or_eq_some_iff] at among
      rcases among with known | ⟨-, added⟩
      · exact faithful q e known
      · have same := Table.mem_of_get? added
        simp only [List.mem_singleton, Prod.mk.injEq] at same
        exact ⟨r, by rw [same.1, same.2, read]⟩

theorem fills_class (i : Image) (p metaclass : Nat) :
    Fills i p (fillClass i p metaclass) (classStages i metaclass) := by
  unfold fillClass classStages
  by_cases null : metaclass = 0
  · rw [if_neg (not_not_intro null), if_pos null]
    exact fills_pure
  · rw [if_pos null, if_neg null]
    dsimp only
    refine (fills_modify fun b => { b with metaclass := some metaclass }).append ?_
    intro t faithful
    obtain ⟨known, remembered, read⟩ := outcome_metaclassData metaclass faithful
    rw [outcome_bind, read]
    cases found : (classRecordAt i metaclass).map (·.2) with
    | error e =>
      have expected := ((classRecordAt_tame i metaclass).map (·.2)).expected e found
      exact ⟨.error e, id, known, remembered, by rw [updateBody_id],
        .halted e expected fun b more => fill_failed expected rfl⟩
    | ok d =>
      obtain ⟨ending, f, later, faithful, run, same⟩ :=
        (fills_list (methodList_tame true i d.methods)
          fun xs b => { b with classMethods := xs }).append (fills_list (p := p)
            (propertyList_tame i d.properties) fun xs b => { b with classProperties := xs })
          { t with metaclasses := known } remembered
      exact ⟨ending, f, later, faithful, run, same⟩

/-- Whether or not all of it can be read, a class is filled in as its own body is. -/
theorem outcome_fillBody {d : Declaration} (found : Declaration.at? i p = some d) {t : Registry}
    (faithful : Faithful i t.metaclasses) : ∃ f known, Faithful i known ∧
      (fillBody i p).outcome t = (.ok (), { t.updateBody p f with metaclasses := known }) ∧
      f {} = d.ownBody i := by
  obtain ⟨r, data, rawName, held, shared, -, rfl⟩ := at?_cases found
  have records : classRecordAt i p = .ok (r.value, data.value) := by
    rw [classRecordAt, held]
    change (i.recordAt ClassData (dataAddress r.value) >>= fun c => _) = _
    rw [shared]
    rfl
  rw [fillBody, records]
  have own {b : Body} (run : fill (instanceStages i data.value ++
      classStages i r.value.metaclass) {} = .ok b) :
      b = Declaration.ownBody i ⟨p, r.value, data.value, rawName⟩ := by
    rw [Declaration.ownBody, Declaration.body, run]
    rfl
  obtain ⟨ending, f, known, remembered, run, same⟩ := fills_instance i p data.value t faithful
  cases same with
  | halted e expected stop =>
    refine ⟨f, known, remembered, ?_, own (stop ..)⟩
    rw [outcome_bind, outcome_attempted, bind_of_ok (outcome_ofResult _ t)]
    dsimp only
    rw [outcome_bind, run]
    simp [attempt, expected]
  | through onward =>
    obtain ⟨ending, g, later, faithful, after, same⟩ :=
      fills_class i p r.value.metaclass { t.updateBody p f with metaclasses := known } remembered
    obtain ⟨_, caught⟩ := same.caught
    refine ⟨fun b => g (f b), later, faithful, ?_, own ((onward _ _).trans (same.whole _))⟩
    rw [outcome_bind, outcome_attempted, bind_of_ok (outcome_ofResult _ t)]
    dsimp only
    rw [bind_of_ok run]
    change ((fillClass i p r.value.metaclass).attempted >>= fun _ => pure ()).outcome _ = _
    rw [outcome_bind, outcome_attempted, outcome_pure, after, caught]
    exact congrArg (fun u : Registry => (Except.ok (), { u with metaclasses := later }))
      (updateBody_updateBody t f g)

/-- The classes at some places are filled in. -/
structure Filling (i : Image) (demangler : Demangler) (done : List Nat) (t : Registry) : Prop where
  classes : t.classes = (declarations i).mapValues fun p d =>
    if p ∈ done then record i demangler [] d else d.named i demangler
  metaclasses : Faithful i t.metaclasses

theorem filling_fillBody {demangler : Demangler} {done : List Nat} {t : Registry}
    (held : Filling i demangler done t) {d : Declaration} (entered : (p, d) ∈ declarations i)
    (fresh : p ∉ done) : ∃ after, (fillBody i p).outcome t = (.ok (), after) ∧
      Filling i demangler (done ++ [p]) after := by
  obtain ⟨f, known, faithful, run, own⟩ :=
    outcome_fillBody (at?_of_mem_declarations entered) held.metaclasses
  refine ⟨_, run, ?_, faithful⟩
  rw [updateBody, updateClass]
  dsimp only
  rw [held.classes, Table.update_mapValues]
  apply Table.mapValues_congr_at (declarations_nodup i) entered
  · simp [fresh, Declaration.named, Declaration.entered, record, own]
  · intro q e other
    simp [other]

theorem outcome_fillBodies (demangler : Demangler) {t : Registry}
    (named : t.classes = (declarations i).mapValues fun _ d => d.named i demangler)
    (fresh : t.metaclasses = []) : ∃ after, (fillBodies i).outcome t = (.ok (), after) ∧
      after.classes = (declarations i).mapValues fun _ d => record i demangler [] d := by
  have start : Filling i demangler [] t :=
    ⟨by simpa using named, fun p d found => by rw [fresh] at found; cases found⟩
  obtain ⟨after, walk, filled⟩ := outcome_forM_keys i (fun done p d t held member fresh =>
    filling_fillBody held member fresh) start
  refine ⟨after, ?_, ?_⟩
  · rw [fillBodies, bind_of_ok (outcome_get t), named, Table.keys_mapValues]
    exact walk
  · rw [filled.classes]
    apply Table.mapValues_congr
    intro p d member
    rw [if_pos (Table.mem_keys member)]

end

section
variable {i : Image} {demangler : Demangler}

theorem outcome_mergeCategory {done : List Category} {t : Registry}
    (held : t.classes = (declarations i).mapValues fun _ => record i demangler done)
    (c : Category) : ∃ after, (mergeCategory i demangler c).outcome t =
        (.ok (if isForeign (declarations i) c.target then some (foreign i demangler c) else none),
          after) ∧
      after.classes = (declarations i).mapValues fun _ => record i demangler (done ++ [c]) := by
  have kept (other : ∀ p d, (p, d) ∈ declarations i → c.target ≠ some d.address) :
      t.classes = (declarations i).mapValues fun _ => record i demangler (done ++ [c]) := by
    rw [held]
    apply Table.mapValues_congr
    intro p d member
    simp [record, List.filter_append, other p d member]
  cases named : c.target with
  | none =>
    refine ⟨t, ?_, kept (by simp [named])⟩
    simp only [mergeCategory, named, outcome_pure, isForeign, foreign]
    rfl
  | some p =>
    have look : t.classes.get? p = ((declarations i).get? p).map (record i demangler done) := by
      rw [held, Table.get?_mapValues]
    simp only [mergeCategory, named]
    rw [bind_of_ok (outcome_get t), look]
    cases found : (declarations i).get? p with
    | none =>
      refine ⟨t, ?_, kept fun q d member same => ?_⟩
      · rw [Option.map_none, bind_of_ok (outcome_className i demangler held (fun _ _ => rfl) p)]
        simp [isForeign, found, foreign, named]
      · rw [named, at?_address (at?_of_mem_declarations member), Option.some.injEq] at same
        rw [same, Table.get?_of_mem (declarations_nodup i) member] at found
        cases found
    | some d =>
      refine ⟨updateBody p (fun b => b.extend c) t, ?_, ?_⟩
      · simp [isForeign, found]
        rfl
      · rw [updateBody, updateClass]
        dsimp only
        rw [held, Table.update_mapValues]
        apply Table.mapValues_congr
        intro q e member
        have place := at?_address (at?_of_mem_declarations member)
        by_cases same : q = p
        · simp [record, List.filter_append, place, same, named]
        · simp [record, List.filter_append, place, same, named, Ne.symm same]

/-- Merging one category after the other comes to extending each class by those that name it. -/
theorem outcome_mergeCategories {done : List Category} {t : Registry}
    (held : t.classes = (declarations i).mapValues fun _ => record i demangler done)
    (cs : List Category) : ∃ after, (mergeCategories i demangler cs).outcome t =
        (.ok ((cs.filter fun c => isForeign (declarations i) c.target).map (foreign i demangler)),
          after) ∧
      after.classes = (declarations i).mapValues fun _ => record i demangler (done ++ cs) := by
  induction cs generalizing done t with
  | nil => exact ⟨t, rfl, by rwa [List.append_nil]⟩
  | cons c cs ih =>
    obtain ⟨s, first, held⟩ := outcome_mergeCategory held c
    obtain ⟨after, others, held⟩ := ih held
    refine ⟨after, ?_, by rwa [List.append_assoc] at held⟩
    rw [mergeCategories, bind_of_ok first, bind_of_ok others, outcome_pure, List.filter_cons]
    split <;> rfl

end

end MachImage.Objc
