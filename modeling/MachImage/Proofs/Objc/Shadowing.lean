import MachImage.Proofs.Objc.ClassNames
/-!
What becomes of a category. If no class that it extends is recorded, it is kept apart. Else its
entries go into the record of the class, and they are shown with the record. A record is not shown
if another one of its name comes before it, and what was merged into it is not shown either.
-/
namespace MachImage.Objc

/-- What a class has from a category that was merged into it. -/
structure Contains (b : Body) (k : Category) : Prop where
  instanceMethods : k.instanceMethods <:+: b.instanceMethods
  classMethods : k.classMethods <:+: b.classMethods
  properties : k.properties <:+: b.properties
  protocols : k.protocols ⊆ b.protocols

theorem infix_append_flatMap {α β : Type} {a : α} {as : List α} (member : a ∈ as)
    (f : α → List β) (own : List β) : f a <:+: own ++ as.flatMap f :=
  List.infix_append_of_infix_right (List.infix_of_mem_flatten (List.mem_map_of_mem member))

theorem Extends.contains {own b : Body} {cs : List Category} {k : Category}
    (merged : Extends own cs b) (member : k ∈ cs) : Contains b k where
  instanceMethods := by
    rw [merged.instanceMethods]
    exact infix_append_flatMap member (·.instanceMethods) _
  classMethods := by
    rw [merged.classMethods]
    exact infix_append_flatMap member (·.classMethods) _
  properties := by
    rw [merged.properties]
    exact infix_append_flatMap member (·.properties) _
  protocols := by
    intro name adopted
    rw [merged.protocols, List.mem_append]
    by_cases known : name ∈ own.protocols
    · exact .inl known
    · have among : name ∈ (cs.flatMap (·.protocols)).filter (· ∉ own.protocols) :=
        List.mem_filter.2 ⟨List.mem_flatMap.2 ⟨k, member, adopted⟩, by simpa using known⟩
      obtain ⟨other, first, rfl⟩ := mem_firsts id among
      exact .inr first

/-- The class that an address leads to has the name of one that is listed before the address. -/
structure Shadows (i : Image) (demangler : Demangler) (c : Class) (target : Nat) : Prop where
  called : ∃ x, identityAt? i demangler target = some x ∧ x.name = c.name
  earlier : ∃ before after, listed i "__objc_classlist" = before ++ target :: after ∧
    c.address ∈ before ∧ target ∉ before

section
variable {i : Image} {demangler : Demangler}

theorem mem_listedCategories {p : Nat} {k : Category} (member : p ∈ listed i "__objc_catlist")
    (read : categoryAt i p = .ok (some k)) : k ∈ listedCategories i := by
  rw [listedCategories_eq]
  exact List.mem_filterMap.2 ⟨p, member, by rw [read]; rfl⟩

theorem identity_of_record {c : Class} (member : c ∈ records i demangler) :
    c.address ∈ listed i "__objc_classlist" ∧
      identityAt? i demangler c.address = some c.identity := by
  have among := List.mem_map_of_mem (f := Class.identity) member
  rw [records_identity] at among
  obtain ⟨p, listed, read⟩ := List.mem_filterMap.1 (firsts_subset _ _ among)
  have place : c.address = p := identityAt?_address read
  rw [place]
  exact ⟨listed, read⟩

theorem listed_order {a b : Class} (order : [b, a].Sublist (records i demangler)) :
    ∃ before after, listed i "__objc_classlist" = before ++ a.address :: after ∧
      b.address ∈ before ∧ a.address ∉ before := by
  have identities := order.map Class.identity
  rw [records_identity] at identities
  obtain ⟨before, after, whole, earlier, others⟩ := firsts_order _ identities
  obtain ⟨first, rest, split, rfl, tail⟩ := List.filterMap_eq_append_iff.1 whole
  obtain ⟨unread, p, last, rfl, skipped, read, -⟩ := List.filterMap_eq_cons_iff.1 tail
  have place : a.address = p := identityAt?_address read
  rw [← place] at read split
  obtain ⟨q, among, found⟩ := List.mem_filterMap.1 earlier
  have origin : b.address = q := identityAt?_address found
  refine ⟨first ++ unread, last, by rw [List.append_assoc]; exact split, ?_, ?_⟩
  · rw [origin]
    exact List.mem_append_left unread among
  · intro repeated
    rcases List.mem_append.1 repeated with early | late
    · exact others _ (List.mem_filterMap.2 ⟨_, early, read⟩) rfl
    · rw [skipped _ late] at read
      cases read

theorem shadowed_of_hidden {a : Class} (member : a ∈ records i demangler)
    (hidden : a ∉ firsts (·.name) (records i demangler)) :
    ∃ c ∈ firsts (·.name) (records i demangler), Shadows i demangler c a.address := by
  obtain ⟨c, shown, same, order⟩ := firsts_hidden (·.name) member hidden
  exact ⟨c, shown, ⟨a.identity, (identity_of_record member).2, same.symm⟩, listed_order order⟩

/-- A category that can be read is kept apart if it extends no class that is listed and can be read.
Else it is merged into the class, and the class is shown with its entries unless it is listed behind
another one of its name. -/
theorem categories_kept {m : Metadata} (run : Metadata.ofImage i demangler = .ok m) {p : Nat}
    {k : Category} (member : p ∈ listed i "__objc_catlist")
    (read : categoryAt i p = .ok (some k)) :
    ((∀ t ∈ listed i "__objc_classlist", k.target = some t → identityAt? i demangler t = none) ∧
        { k with target := none } ∈ m.categories.map (·.category)) ∨
      (∃ c ∈ m.classes.values, k.target = some c.address ∧ Contains c.body k) ∨
      ∃ t, k.target = some t ∧ (∀ c ∈ m.classes.values, c.address ≠ t) ∧
        ∃ c ∈ m.classes.values, Shadows i demangler c t := by
  have among := mem_listedCategories member read
  rw [classes_values run]
  by_cases recorded : ∃ c ∈ records i demangler, k.target = some c.address
  · obtain ⟨a, recorded, target⟩ := recorded
    right
    by_cases shown : ∃ c ∈ firsts (·.name) (records i demangler), c.address = a.address
    · obtain ⟨c, shown, same⟩ := shown
      rw [← same] at target
      obtain ⟨d, own, -, -, -, merged⟩ := record_merged (firsts_subset _ _ shown)
      exact .inl ⟨c, shown, target,
        merged.contains (List.mem_filter.2 ⟨among, by simpa using target⟩)⟩
    · have hidden : a ∉ firsts (·.name) (records i demangler) := fun first =>
        shown ⟨a, first, rfl⟩
      exact .inr ⟨a.address, target, fun c first same => shown ⟨c, first, same⟩,
        shadowed_of_hidden recorded hidden⟩
  · left
    constructor
    · intro t listed target
      cases found : identityAt? i demangler t with
      | none => rfl
      | some x =>
        obtain ⟨c, member, place, -⟩ := record_of_listed listed found
        exact absurd ⟨c, member, place ▸ target⟩ recorded
    · rw [foreign_categories run]
      exact List.mem_map_of_mem (List.mem_filter.2 ⟨among, by simpa using recorded⟩)

end

def extendedClass : Image := imageOf
  ([0x100000018, 0x100000070, 0x1000000A0,
    0, 0, 0x1000000FC, 0x1000000FE, 0x100000028, 0x1000000F8, 0, 0x1000000D0, 0, 0, 0,
    0x1000000FA, 0x100000018, 0, 0, 0x1000000E0, 0,
    0x1000000FA, 0, 0, 0, 0, 0,
    1, 0x100000020,
    2, 0x100000028, 0x100000020].flatMap wordBytes ++ [0x41, 0, 0x43, 0, 0x50, 0, 0x51, 0])
  [("__objc_classlist", 0, 8), ("__objc_catlist", 8, 16), ("__objc_const", 24, 232)]

theorem categories_kept_extended : ∃ m, Metadata.ofImage extendedClass none = .ok m ∧
    ∃ c ∈ m.classes.values, c.address = 0x100000018 ∧ "Q" ∈ c.body.protocols := by
  have some_present : present extendedClass ≠ [] := by decide +kernel
  have data : constantSection ∈ present extendedClass := by decide +kernel
  obtain ⟨m, run⟩ := ofImage_sure none some_present fun missing => missing.2 data
  have answer : (listed extendedClass "__objc_classlist", listed extendedClass "__objc_catlist",
      (identityAt? extendedClass none 0x100000018).isSome,
      (categoryAt extendedClass 0x100000070).toOption.join.map fun k => (k.target, k.protocols)) =
      ([0x100000018], [0x100000070, 0x1000000A0], true,
        some (some 0x100000018, ["Q", "P"])) := by decide +kernel
  simp only [Prod.mk.injEq, Option.map_eq_some_iff, Option.join_eq_some_iff] at answer
  obtain ⟨classes, members, readable, k, read, target, protocols⟩ := answer
  refine ⟨m, run, ?_⟩
  have kept := categories_kept run (by rw [members]; exact List.mem_cons_self)
    (of_toOption_some read)
  rcases kept with ⟨unread, -⟩ | ⟨c, shown, same, contains⟩ | ⟨t, -, -, c, -, -, behind⟩
  · rw [unread _ (by rw [classes]; exact List.mem_cons_self) target] at readable
    cases readable
  · rw [target, Option.some.injEq] at same
    refine ⟨c, shown, same.symm, contains.protocols ?_⟩
    rw [protocols]
    exact List.mem_cons_self
  · obtain ⟨before, after, whole, earlier, -⟩ := behind
    have single := congrArg List.length (whole.symm.trans classes)
    have some := List.length_pos_of_mem earlier
    simp at single
    omega

section
variable {i : Image} {demangler : Demangler}

theorem Found.eq_nil {α : Type} {before : Prop} {read : Except Fault (List α)} {xs : List α}
    (found : Found before read xs) (nothing : read = .ok []) : xs = [] := by
  cases found with
  | missing failed => rfl
  | given _ found => exact Except.ok.inj (found.symm.trans nothing)

theorem properties_eq_nil {c : Class} (member : c ∈ records i demangler) {d : Declaration}
    (found : Declaration.at? i c.address = some d) (null : d.data.properties = 0)
    (unextended : ∀ k ∈ listedCategories i, k.target ≠ some c.address) :
    c.body.properties = [] := by
  obtain ⟨e, own, place, -, holds, merged⟩ := record_merged member
  rw [found, Option.some.injEq] at place
  subst place
  have none : (listedCategories i).filter (·.target = some c.address) = [] := by
    simpa [List.filter_eq_nil_iff] using unextended
  have empty : own.properties = [] := holds.properties.eq_nil (by rw [null]; rfl)
  rw [merged.properties, none, empty]
  rfl

end

def shadowedClass : Region := fileOf
  [segmentBytes "__DATA" 0x100000000 568
    [sectionBytes "__objc_classlist" 0x100000158 16 344,
     sectionBytes "__objc_catlist" 0x100000168 8 360,
     sectionBytes "__objc_const" 0x100000170 200 368]]
  [0x100000170, 0x100000178, 0x1000001E8,
   0, 0, 0, 0, 0x1000001A0, 0x1000001A0,
   0, 0, 0, 0x100000230, 0, 0, 0, 0, 0,
   0x100000230, 0x100000178, 0, 0, 0, 0x100000218,
   0x100000010, 0x100000230, 0, 0x41]

/-- The category is read and is not kept apart, and no class that is shown has its property. -/
theorem category_lost : ∃ i m k, Image.parse shadowedClass 0 = .ok i ∧
    Metadata.ofImage i none = .ok m ∧ 0x1000001E8 ∈ listed i "__objc_catlist" ∧
    categoryAt i 0x1000001E8 = .ok (some k) ∧ m.categories = [] ∧ m.classes.keys = ["A"] ∧
    ∃ x ∈ k.properties, ∀ c ∈ m.classes.values, x ∉ c.body.properties := by
  have answer : (Image.parse shadowedClass 0).toOption.any fun i => decide (
      constantSection ∈ present i ∧ listed i "__objc_classlist" = [0x100000170, 0x100000178] ∧
      listed i "__objc_catlist" = [0x1000001E8] ∧
      identityAt? i none 0x100000170 = some ⟨"A", 0x100000170, false⟩ ∧
      identityAt? i none 0x100000178 = some ⟨"A", 0x100000178, false⟩ ∧
      (Declaration.at? i 0x100000170).map (·.data.properties) = some 0 ∧
      ((categoryAt i 0x1000001E8).toOption.join.map fun k =>
        (k.target, k.properties.map (·.name))) = some (some 0x100000178, ["A"])) := by
    decide +kernel
  obtain ⟨i, parsed, answer⟩ := (Option.any_eq_true _ _).1 answer
  obtain ⟨data, classes, categories, first, second, own, category⟩ := of_decide_eq_true answer
  obtain ⟨d, found, null⟩ := Option.map_eq_some_iff.1 own
  obtain ⟨k, read, named⟩ := Option.map_eq_some_iff.1 category
  obtain ⟨target, names⟩ := Prod.mk.inj named
  obtain ⟨x, properties, -⟩ := List.map_eq_singleton_iff.1 names
  have read := of_toOption_some (Option.join_eq_some_iff.1 read)
  have only : listedCategories i = [k] := by
    rw [listedCategories_eq, categories, List.filterMap_cons, read]
    rfl
  obtain ⟨m, run⟩ := ofImage_sure none (List.ne_nil_of_mem data) fun missing => missing.2 data
  have shown : m.classes.values.map Class.identity = [⟨"A", 0x100000170, false⟩] := by
    simp [classes_identity run, classes, first, second, firsts]
  refine ⟨i, m, k, of_toOption_some parsed, run, ?_, read, ?_, ?_, x, ?_, ?_⟩
  · rw [categories]
    exact List.mem_cons_self
  · obtain ⟨c, recorded, place, -⟩ :=
      record_of_listed (by rw [classes]; exact List.mem_cons_of_mem _ List.mem_cons_self) second
    have extended : ¬ ∀ r ∈ records i none, k.target ≠ some r.address := fun others =>
      others c recorded (by rw [target, place])
    have apart := foreign_categories run
    rw [only, List.filter_cons_of_neg (by simpa using extended)] at apart
    exact List.map_eq_nil_iff.1 apart
  · rw [classes_keys run, shown]
    rfl
  · rw [properties]
    exact List.mem_cons_self
  · intro c member
    have place := List.mem_map_of_mem (f := Class.identity) member
    rw [shown, List.mem_singleton] at place
    have place : c.address = 0x100000170 := congrArg Identity.address place
    rw [classes_values run] at member
    have empty : c.body.properties = [] := by
      apply properties_eq_nil (firsts_subset _ _ member) (place ▸ found) null
      rw [only, place]
      simp [target]
    rw [empty]
    exact List.not_mem_nil

end MachImage.Objc
