import MachImage.Index
/-!
Where the values of an index come from. Of the items that give a pair with a number, the first or
the last gives the value there; a number that no item gives is not in the index.
-/
namespace MachImage.Index

variable {α β : Type}

section
variable (pick : β → Option (Nat × α)) (items : List β) (key : Nat) (a : α)

theorem getElem?_first_iff : (ofListFirst (items.filterMap pick))[key]? = some a ↔
    ∃ before x after, items = before ++ x :: after ∧ pick x = some (key, a) ∧
      ∀ y ∈ before, ∀ p, pick y = some p → p.1 ≠ key := by
  rw [getElem?_ofListFirst, List.find?_filterMap, Option.map_eq_some_iff]
  constructor
  · rintro ⟨⟨_, _⟩, found, rfl⟩
    obtain ⟨x, found, picked⟩ := Option.bind_eq_some_iff.1 found
    obtain ⟨has, before, after, whole, earlier⟩ := List.find?_eq_some_iff_append.1 found
    obtain rfl : _ = key := by simpa [picked] using has
    refine ⟨before, x, after, whole, picked, ?_⟩
    intro y member p other
    simpa [other] using earlier y member
  · rintro ⟨before, x, after, rfl, picked, earlier⟩
    refine ⟨(key, a), Option.bind_eq_some_iff.2 ⟨x, ?_, picked⟩, rfl⟩
    refine List.find?_eq_some_iff_append.2 ⟨by simp [picked], before, after, rfl, ?_⟩
    intro y member
    cases other : pick y with
    | none => rfl
    | some p => simpa using earlier y member p other

theorem getElem?_last_iff : (ofList (items.filterMap pick))[key]? = some a ↔
    ∃ before x after, items = before ++ x :: after ∧ pick x = some (key, a) ∧
      ∀ y ∈ after, ∀ p, pick y = some p → p.1 ≠ key := by
  have behind := getElem?_first_iff pick items.reverse key a
  rw [getElem?_ofListFirst, List.filterMap_reverse, ← getElem?_ofList] at behind
  rw [behind]
  constructor
  · rintro ⟨before, x, after, whole, picked, later⟩
    refine ⟨after.reverse, x, before.reverse, ?_, picked, ?_⟩
    · rw [← List.reverse_reverse items, whole]
      simp
    · intro y member
      exact later y (List.mem_reverse.1 member)
  · rintro ⟨before, x, after, rfl, picked, later⟩
    refine ⟨after.reverse, x, before.reverse, by simp, picked, ?_⟩
    intro y member
    exact later y (List.mem_reverse.1 member)

theorem mem_ofList_iff : key ∈ ofList (items.filterMap pick) ↔
    ∃ x ∈ items, ∃ a, pick x = some (key, a) := by
  rw [← Std.TreeMap.isSome_getElem?_iff_mem, getElem?_ofList, Option.isSome_map,
    List.find?_isSome]
  constructor
  · rintro ⟨⟨_, a⟩, member, has⟩
    obtain rfl : _ = key := by simpa using has
    obtain ⟨x, among, picked⟩ := List.mem_filterMap.1 (List.mem_reverse.1 member)
    exact ⟨x, among, a, picked⟩
  · rintro ⟨x, among, a, picked⟩
    exact ⟨(key, a), List.mem_reverse.2 (List.mem_filterMap.2 ⟨x, among, picked⟩), by simp⟩

end

section
variable {pick : β → Option (Nat × α)} {gives : β → Nat → Prop} {value : β → Nat → α}
  (picks : ∀ x key a, pick x = some (key, a) ↔ gives x key ∧ value x key = a)
include picks

theorem mem_picked_iff (items : List β) (key : Nat) :
    key ∈ ofList (items.filterMap pick) ↔ ∃ x ∈ items, gives x key := by
  simp [mem_ofList_iff, picks]

theorem getElem?_picked_iff (items : List β) (key : Nat) (a : α) :
    (ofList (items.filterMap pick))[key]? = some a ↔
      ∃ before x after, items = before ++ x :: after ∧ gives x key ∧ value x key = a ∧
        ∀ y ∈ after, ¬ gives y key := by
  rw [getElem?_last_iff]
  constructor
  · rintro ⟨before, x, after, whole, picked, later⟩
    obtain ⟨given, same⟩ := (picks x key a).1 picked
    refine ⟨before, x, after, whole, given, same, ?_⟩
    intro y member given
    exact later y member (key, value y key) ((picks y key _).2 ⟨given, rfl⟩) rfl
  · rintro ⟨before, x, after, whole, given, same, later⟩
    refine ⟨before, x, after, whole, (picks x key a).2 ⟨given, same⟩, ?_⟩
    rintro y member ⟨_, other⟩ picked rfl
    exact later y member ((picks y _ other).1 picked).1

end

theorem getElem?_ofList_append (ps qs : List (Nat × α)) (key : Nat) :
    (ofList (ps ++ qs))[key]? = (ofList qs)[key]?.or (ofList ps)[key]? := by
  simp only [getElem?_ofList, List.reverse_append, List.find?_append]
  cases qs.reverse.find? (·.1 = key) <;> simp

end MachImage.Index
