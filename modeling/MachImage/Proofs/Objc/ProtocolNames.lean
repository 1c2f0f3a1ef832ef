import MachImage.Proofs.Objc.Merging
/-!
How protocols are called. A list of protocols takes each name from the record that its slot leads
to, by the way of its own. A protocol that has a name is called by it in every list that holds the
protocol. One without a name is called by a placeholder where it is listed itself, and is left out
of the lists that hold it.
-/
namespace MachImage.Objc

def protocolSlot (list k : Nat) : Nat := list + 8 + 8 * k

def contributed (i : Image) (list k : Nat) : Option String :=
  (protocolNameAt i (protocolSlot list k)).toOption.join

/-- The lists of protocols in an image, each with the names that its owner takes from it. A class
reads its list when those of its methods and properties could be read. -/
inductive Adopts (i : Image) : Nat → List String → Prop
  | byProtocol {address : Nat} {r : Placed ProtocolRecord} {q : Protocol}
      (record : i.recordAt ProtocolRecord address = .ok r) (read : protocolAt i address = .ok q) :
      Adopts i r.value.protocols q.bases
  | byCategory {address : Nat} {r : Placed CategoryRecord} {c : Category}
      (record : i.recordAt CategoryRecord address = .ok r)
      (read : categoryAt i address = .ok (some c)) : Adopts i r.value.protocols c.protocols
  | byClass {address : Nat} {d : Declaration} {b : Body} {methods : List Method}
      {properties : List Property} (found : Declaration.at? i address = some d)
      (methodList : Method.list false i d.data.methods = .ok methods)
      (propertyList : Property.list i d.data.properties = .ok properties)
      (body : d.body i = .ok b) : Adopts i d.data.protocols b.protocols

section
variable {i : Image}

theorem protocolNames_of_header {list : Nat} {h : Placed ProtocolListHeader} (notNull : list ≠ 0)
    (header : i.recordAt ProtocolListHeader list = .ok h) (few : h.value.count < 500) :
    protocolNames i list = .ok ((List.range h.value.count).filterMap (contributed i list)) := by
  have believed : ¬ protocolLimit ≤ h.value.count := Nat.not_le.2 few
  rw [protocolNames, if_neg notNull, header, ok_bind]
  dsimp only
  rw [if_neg believed, gatherFrom_eq]
  exact gather_of_tame fun k _ => protocolNameAt_tame i _

theorem contributed_of_protocol {list k p : Nat} {r : Placed ProtocolRecord}
    (held : i.pointerAt (protocolSlot list k) = .ok p) (notNull : p ≠ 0)
    (record : i.recordAt ProtocolRecord p = .ok r) :
    contributed i list k = (i.stringAt r.value.name).toOption := by
  rw [contributed, protocolNameAt, held, ok_bind, if_neg notNull, record, ok_bind]
  dsimp only
  cases i.stringAt r.value.name <;> rfl

theorem protocolAt_record {address : Nat} {q : Protocol} (read : protocolAt i address = .ok q) :
    ∃ r, i.recordAt ProtocolRecord address = .ok r ∧
      stringOr i r.value.name "?PROTOCOL?" = .ok q.name ∧
      protocolNames i r.value.protocols = .ok q.bases := by
  obtain ⟨r, held, read⟩ := of_bind_ok read
  obtain ⟨name, named, read⟩ := of_bind_ok read
  obtain ⟨bases, adopted, read⟩ := of_bind_ok read
  obtain ⟨instanceMethods, -, read⟩ := of_bind_ok read
  obtain ⟨classMethods, -, read⟩ := of_bind_ok read
  obtain ⟨optionalInstanceMethods, -, read⟩ := of_bind_ok read
  obtain ⟨optionalClassMethods, -, read⟩ := of_bind_ok read
  obtain ⟨instanceProperties, -, read⟩ := of_bind_ok read
  dsimp only at read
  split at read
  · cases read
    exact ⟨r, held, named, adopted⟩
  · obtain ⟨slot, -, read⟩ := of_bind_ok read
    obtain ⟨classProperties, -, read⟩ := of_bind_ok read
    cases read
    exact ⟨r, held, named, adopted⟩

theorem protocols_of_category {address : Nat} {c : Category} {r : Placed CategoryRecord}
    (record : i.recordAt CategoryRecord address = .ok r)
    (read : categoryAt i address = .ok (some c)) :
    protocolNames i r.value.protocols = .ok c.protocols := by
  rw [categoryAt, record, ok_bind] at read
  dsimp only at read
  split at read
  · cases read
  · obtain ⟨name, -, read⟩ := of_bind_ok read
    obtain ⟨instanceMethods, -, read⟩ := of_bind_ok read
    obtain ⟨classMethods, -, read⟩ := of_bind_ok read
    obtain ⟨protocols, adopted, read⟩ := of_bind_ok read
    obtain ⟨properties, -, read⟩ := of_bind_ok read
    cases read
    exact adopted

theorem later_keeps_protocols {d : Declaration} {names : List String} :
    ∀ stage ∈ (instanceStages i d.data).drop 3 ++ classStages i d.record.metaclass, ∀ b c : Body,
      b.protocols = names → stage b = .ok c → c.protocols = names := by
  intro stage member b c kept run
  rcases List.mem_append.1 member with first | last
  · rw [List.mem_singleton.1 first] at run
    obtain ⟨ivars, -, run⟩ := of_bind_ok run
    cases run
    exact kept
  · unfold classStages at last
    split at last
    · cases last
    · simp only [List.mem_cons, List.not_mem_nil, or_false] at last
      rcases last with rfl | rfl | rfl
      · cases run
        exact kept
      · obtain ⟨data, -, run⟩ := of_bind_ok run
        obtain ⟨methods, -, run⟩ := of_bind_ok run
        cases run
        exact kept
      · obtain ⟨data, -, run⟩ := of_bind_ok run
        obtain ⟨properties, -, run⟩ := of_bind_ok run
        cases run
        exact kept

theorem fill_keeps {p : Body → Prop} {stages : List (Body → Except Fault Body)}
    (keeps : ∀ stage ∈ stages, ∀ b c, p b → stage b = .ok c → p c) {b c : Body} (start : p b)
    (run : fill stages b = .ok c) : p c := by
  induction stages generalizing b with
  | nil =>
    cases run
    exact start
  | cons stage rest ih =>
    have later : ∀ s ∈ rest, ∀ b c, p b → s b = .ok c → p c := fun s member =>
      keeps s (List.mem_cons_of_mem _ member)
    obtain ⟨found, held, run⟩ := of_bind_ok run
    cases found with
    | none =>
      cases run
      exact start
    | some d => exact ih later (keeps stage List.mem_cons_self b d start (of_attempt_ok held)) run

theorem protocols_of_body {d : Declaration} {b : Body} {methods : List Method}
    {properties : List Property} {names : List String}
    (methodList : Method.list false i d.data.methods = .ok methods)
    (propertyList : Property.list i d.data.properties = .ok properties)
    (adopted : protocolNames i d.data.protocols = .ok names) (body : d.body i = .ok b) :
    b.protocols = names := by
  let begun : Body := { instanceMethods := methods, properties, protocols := names }
  have first : ((instanceStages i d.data).take 3).foldlM (fun b stage => stage b) {} =
      .ok begun := by
    simp only [instanceStages, List.take, List.foldlM_cons, List.foldlM_nil, methodList,
      propertyList, adopted, ok_bind]
    rfl
  have whole : instanceStages i d.data ++ classStages i d.record.metaclass =
      (instanceStages i d.data).take 3 ++
        ((instanceStages i d.data).drop 3 ++ classStages i d.record.metaclass) := rfl
  rw [Declaration.body, whole, fill_append _ _ _ _ first] at body
  exact fill_keeps (p := (·.protocols = names)) later_keeps_protocols rfl body

theorem Adopts.names_eq {list : Nat} {names : List String} (adopted : Adopts i list names)
    {given : List String} (read : protocolNames i list = .ok given) : names = given := by
  cases adopted with
  | byProtocol record whole =>
    obtain ⟨r, held, -, bases⟩ := protocolAt_record whole
    rw [record, Except.ok.injEq] at held
    rw [held, bases, Except.ok.injEq] at read
    exact read
  | byCategory record whole =>
    rw [protocols_of_category record whole, Except.ok.injEq] at read
    exact read
  | byClass found methodList propertyList body =>
    exact protocols_of_body methodList propertyList read body

theorem stringAt_null (base : 0 < i.virtualBase) : i.stringAt 0 = .error (.unmapped 0) := by
  have low : (0 : Int) < i.virtualBase := Int.natCast_pos.2 base
  rw [Image.stringAt, Image.offsetOf_eq, if_pos low]
  rfl

end

/-- A list that holds a listed protocol calls it by its name, if it has one, at each slot that leads
to it. A protocol whose name is null is listed under a placeholder; a list takes for its name the
text at the null address, and where nothing lies there leaves the slot out. -/
theorem protocols_called {i : Image} {p : Nat} {q : Protocol}
    (member : p ∈ listed i "__objc_protolist") (read : protocolAt i p = .ok q) :
    ∃ r, i.recordAt ProtocolRecord p = .ok r ∧
      (r.value.name = 0 → q.name = "?PROTOCOL?") ∧
      ∀ list names h, Adopts i list names → list ≠ 0 →
        i.recordAt ProtocolListHeader list = .ok h → h.value.count < 500 →
        names = (List.range h.value.count).filterMap (contributed i list) ∧
        ∀ k < h.value.count, i.pointerAt (protocolSlot list k) = .ok p →
          (r.value.name ≠ 0 → contributed i list k = some q.name) ∧
          (r.value.name = 0 → contributed i list k = (i.stringAt 0).toOption) ∧
          (r.value.name = 0 → 0 < i.virtualBase → contributed i list k = none) := by
  have notNull : p ≠ 0 := by simpa using (List.mem_filter.1 member).2
  obtain ⟨r, record, named, -⟩ := protocolAt_record read
  refine ⟨r, record, ?_, ?_⟩
  · intro null
    rw [null] at named
    exact (Except.ok.inj named).symm
  · intro list names h adopted listed header few
    refine ⟨adopted.names_eq (protocolNames_of_header listed header few), fun k _ held => ?_⟩
    rw [contributed_of_protocol held notNull record]
    refine ⟨?_, ?_, ?_⟩
    · intro some
      rw [stringOr, if_neg (Int.natCast_ne_zero.2 some)] at named
      rw [named]
      rfl
    · intro null
      rw [null]
      rfl
    · intro null base
      rw [null]
      exact congrArg Except.toOption (stringAt_null base)

def adoptedProtocol : Image := imageOf
  ([0x100000008,
    0, 0x100000098, 0, 0, 0, 0, 0, 0, 0,
    0x100000098, 0, 0, 0, 0x100000080, 0,
    2, 7, 0x100000008].flatMap wordBytes ++ [0x50, 0])
  [("__objc_protolist", 0, 8)]

theorem protocols_called_category : ∃ c, categoryAt adoptedProtocol 0x100000050 = .ok (some c) ∧
    c.protocols = (List.range 2).filterMap (contributed adoptedProtocol 0x100000080) ∧
    contributed adoptedProtocol 0x100000080 1 = some "P" := by
  have answer : ((protocolAt adoptedProtocol 0x100000008).toOption.map (·.name),
      (adoptedProtocol.recordAt ProtocolRecord 0x100000008).toOption.map (·.value.name),
      (adoptedProtocol.recordAt CategoryRecord 0x100000050).toOption.map (·.value.protocols),
      (categoryAt adoptedProtocol 0x100000050).toOption.join.map (·.name),
      (adoptedProtocol.recordAt ProtocolListHeader 0x100000080).toOption.map (·.value.count)) =
      (some "P", some 0x100000098, some 0x100000080, some "P", some 2) := by decide +kernel
  simp only [Prod.mk.injEq, Option.map_eq_some_iff, Option.join_eq_some_iff] at answer
  obtain ⟨⟨q, read, name⟩, ⟨s, record, named⟩, ⟨o, owner, list⟩, ⟨c, category, -⟩, h, header,
    count⟩ := answer
  have member : 0x100000008 ∈ listed adoptedProtocol "__objc_protolist" := by decide +kernel
  obtain ⟨r, same, -, called⟩ := protocols_called member (of_toOption_some read)
  have adopted := Adopts.byCategory (of_toOption_some owner) (of_toOption_some category)
  rw [list] at adopted
  obtain ⟨names, each⟩ := called _ _ h adopted (by decide) (of_toOption_some header) (by omega)
  obtain ⟨present, -⟩ := each 1 (by omega) (of_toOption_some (by decide +kernel))
  rw [count] at names
  rw [name] at present
  refine ⟨c, of_toOption_some category, names, present ?_⟩
  have same := Except.ok.inj (same.symm.trans (of_toOption_some record))
  rw [same, named]
  decide

def nameless : Region := fileOf
  [segmentBytes "__DATA" 0x100000000 368 [sectionBytes "__objc_protolist" 0x1000000B8 16 184]]
  [0x1000000C8, 0x100000110,
   0, 0, 0, 0, 0, 0, 0, 0, 0,
   0, 0x100000168, 0x100000158, 0, 0, 0, 0, 0, 0,
   1, 0x1000000C8, 0x41]

/-- The first protocol is listed under a placeholder, and the second names no base. -/
theorem nameless_left_out : ∃ i q h, Image.parse nameless 0 = .ok i ∧
    0x1000000C8 ∈ listed i "__objc_protolist" ∧ protocolAt i 0x1000000C8 = .ok q ∧
    q.name = "?PROTOCOL?" ∧ Adopts i 0x100000158 [] ∧
    i.recordAt ProtocolListHeader 0x100000158 = .ok h ∧ h.value.count = 1 ∧
    i.pointerAt (protocolSlot 0x100000158 0) = .ok 0x1000000C8 := by
  have answer : (Image.parse nameless 0).toOption.any fun i => decide (
      listed i "__objc_protolist" = [0x1000000C8, 0x100000110] ∧
      (protocolAt i 0x1000000C8).toOption.map (·.name) = some "?PROTOCOL?" ∧
      (protocolAt i 0x100000110).toOption.map (·.bases) = some [] ∧
      (i.recordAt ProtocolRecord 0x100000110).toOption.map (·.value.protocols) =
        some 0x100000158 ∧
      (i.recordAt ProtocolListHeader 0x100000158).toOption.map (·.value.count) = some 1 ∧
      (i.pointerAt (protocolSlot 0x100000158 0)).toOption = some 0x1000000C8) := by
    decide +kernel
  obtain ⟨i, parsed, answer⟩ := (Option.any_eq_true _ _).1 answer
  simp only [decide_eq_true_eq, Option.map_eq_some_iff] at answer
  obtain ⟨members, ⟨q, read, name⟩, ⟨o, owner, none⟩, ⟨r, record, list⟩, ⟨h, header, count⟩,
    slot⟩ := answer
  have adopted := Adopts.byProtocol (of_toOption_some record) (of_toOption_some owner)
  rw [list, none] at adopted
  refine ⟨i, q, h, of_toOption_some parsed, ?_, of_toOption_some read, name, adopted,
    of_toOption_some header, count, of_toOption_some slot⟩
  rw [members]
  exact List.mem_cons_self

end MachImage.Objc
