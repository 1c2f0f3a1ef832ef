import Std.Data.TreeMap
/-!
An index holds one value for each of some numbers, and lists them ascending. It is made of pairs of
which the last for a number counts, or the first.
-/
namespace MachImage

abbrev Index (α : Type) := Std.TreeMap Nat α

namespace Index

variable {α : Type}

def ofList (ps : List (Nat × α)) : Index α := ps.foldl (fun t p => t.insert p.1 p.2) ∅

def ofListFirst (ps : List (Nat × α)) : Index α :=
  ps.foldl (fun t p => t.insertIfNew p.1 p.2) ∅

theorem getElem?_ofList (ps : List (Nat × α)) (key : Nat) :
    (ofList ps)[key]? = (ps.reverse.find? (·.1 = key)).map (·.2) := by
  have grow : ∀ (qs : List (Nat × α)) (t : Index α),
      (qs.foldl (fun t p => t.insert p.1 p.2) t)[key]? =
        ((qs.reverse.find? (·.1 = key)).map (·.2)).or t[key]? := by
    intro qs
    induction qs with
    | nil => intro t; simp
    | cons q qs ih =>
      intro t
      rw [List.foldl_cons, ih, Std.TreeMap.getElem?_insert, List.reverse_cons, List.find?_append]
      cases qs.reverse.find? (·.1 = key) with
      | some p => simp
      | none => by_cases same : q.1 = key <;> simp [same]
  simpa [ofList] using grow ps ∅

theorem getElem?_ofListFirst (ps : List (Nat × α)) (key : Nat) :
    (ofListFirst ps)[key]? = (ps.find? (·.1 = key)).map (·.2) := by
  have grow : ∀ (qs : List (Nat × α)) (t : Index α),
      (qs.foldl (fun t p => t.insertIfNew p.1 p.2) t)[key]? =
        t[key]?.or ((qs.find? (·.1 = key)).map (·.2)) := by
    intro qs
    induction qs with
    | nil => intro t; simp
    | cons q qs ih =>
      intro t
      rw [List.foldl_cons, ih, Std.TreeMap.getElem?_insertIfNew, List.find?_cons]
      by_cases same : q.1 = key
      · subst same
        by_cases known : q.1 ∈ t <;> simp [known]
      · simp [same]
  simpa [ofListFirst] using grow ps ∅

end Index
end MachImage
