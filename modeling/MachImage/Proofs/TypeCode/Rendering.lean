import MachImage.Proofs.TypeCode.Reprinting
/-!
Printing whatever was decoded. Each type that occurs in a decoded type was decoded as well, so it
has the parts that printing asks for. Every level of a type spends one of the levels that decoding
grants, and so bounds how deep a type may occur in another.
-/
namespace MachImage.TypeCode

inductive PartOf : TypeCode → TypeCode → Prop
  | pointee {t : TypeCode} : PartOf t (.pointer (some t))
  | element {t : TypeCode} {count : Int} : PartOf t (.array (some t) count)
  | returned {t : TypeCode} {arguments : List TypeCode} :
      PartOf t (.block (some ⟨t, arguments⟩))
  | argument {t returns : TypeCode} {arguments : List TypeCode} (among : t ∈ arguments) :
      PartOf t (.block (some ⟨returns, arguments⟩))
  | member {m : Member TypeCode} {form : AggregateForm} {name : Option String}
      {members : List (Member TypeCode)} (among : m ∈ members) :
      PartOf m.type (.aggregate form name (some members))

/-- A type occurs in another so many levels below it. -/
inductive Occurs : Nat → TypeCode → TypeCode → Prop
  | here {t : TypeCode} : Occurs 0 t t
  | inside {n : Nat} {u part t : TypeCode} (within : Occurs n u part) (of : PartOf part t) :
      Occurs (n + 1) u t

/-- Pointers and arrays have an element, and structs and unions a name. The signature of a block
has the type that it returns by its own form. -/
def Complete : TypeCode → Prop
  | .pointer element => ∃ t, element = some t
  | .array element _ => ∃ t, element = some t
  | .aggregate _ name _ => ∃ s, name = some s
  | _ => True

theorem allDecoded_iff {ts : List TypeCode} : AllDecoded ts ↔ ∀ t ∈ ts, Decoded t := by
  induction ts with
  | nil => simp [AllDecoded]
  | cons u ts ih => simp [AllDecoded, ih]

theorem MembersDecoded.types {ms : List (Member TypeCode)} (decoded : MembersDecoded ms) :
    AllDecoded (ms.map Member.type) := by
  induction ms with
  | nil => trivial
  | cons m ms ih => exact ⟨decoded.2.1, ih decoded.2.2⟩

section
variable {t u : TypeCode}

theorem PartOf.decoded (of : PartOf u t) (whole : Decoded t) : Decoded u := by
  cases of with
  | pointee => exact whole
  | element => exact whole.1
  | returned => exact whole.1
  | argument among => exact allDecoded_iff.1 whole.2 _ among
  | member among => exact allDecoded_iff.1 whole.2.types _ (List.mem_map_of_mem among)

theorem Occurs.decoded {n : Nat} (occurs : Occurs n u t) (whole : Decoded t) : Decoded u := by
  induction occurs with
  | here => exact whole
  | inside within of ih => exact ih (of.decoded whole)

theorem Decoded.complete (decoded : Decoded t) : Complete t := by
  cases t with
  | pointer element =>
    cases element with
    | none => exact absurd decoded id
    | some t => exact ⟨t, rfl⟩
  | array element count =>
    cases element with
    | none => exact absurd decoded id
    | some t => exact ⟨t, rfl⟩
  | aggregate form name members =>
    cases members with
    | none =>
      obtain ⟨s, named, -⟩ := decoded
      exact ⟨s, named⟩
    | some members =>
      obtain ⟨⟨s, named, -⟩, -⟩ := decoded
      exact ⟨s, named⟩
  | _ => trivial

end

mutual

theorem declaration_sure : ∀ t, Decoded t → Sure (declaration t)
  | .primitive p, _ => sure_ok _
  | .unknown name, decoded => by
    obtain ⟨c, rfl, -⟩ := decoded
    exact sure_ok _
  | .object none protocols, _ => sure_ok _
  | .object (some s) protocols, _ => sure_ok _
  | .block none, _ => sure_ok _
  | .block (some ⟨returns, []⟩), decoded => by
    rw [declaration]
    exact (declaration_sure returns decoded.1).bind fun _ _ => sure_ok _
  | .block (some ⟨returns, own :: arguments⟩), decoded => by
    rw [declaration]
    apply (declarations_sure arguments decoded.2.2).bind
    intro list _
    exact (declaration_sure returns decoded.1).bind fun _ _ => sure_ok _
  | .pointer none, decoded => absurd decoded id
  | .pointer (some t), decoded => by
    rw [declaration]
    split
    · exact sure_ok _
    · exact (declaration_sure t decoded).bind fun _ _ => sure_ok _
  | .array none _, decoded => absurd decoded id
  | .array (some t) count, decoded => by
    rw [declaration]
    apply (declaration_sure t decoded.1).bind
    intro element _
    rw [written_of_short decoded.2]
    exact sure_ok _
  | .aggregate form name members, decoded => by
    obtain ⟨s, rfl⟩ := decoded.complete
    rw [declaration]
    exact sure_ok _
  | .bitfield width, decoded => by
    rw [declaration, written_of_short decoded]
    exact sure_ok _

theorem declarations_sure : ∀ ts, AllDecoded ts → Sure (declarations ts)
  | [], _ => sure_ok _
  | t :: ts, decoded => by
    rw [declarations]
    apply (declaration_sure t decoded.1).bind
    intro _ _
    exact (declarations_sure ts decoded.2).bind fun _ _ => sure_ok _

end

end MachImage.TypeCode
