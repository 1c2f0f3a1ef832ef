import Mathlib.Data.List.Basic
import MachImage.Proofs.Objc.EntryBounds
/-!
The two forms of a method. One entry holds three addresses; the other holds three offsets, of which
the first leads to a slot with the address of the name. Entries that lead to the same name, type and
implementation are read alike, each where it lies, so lists of them are equal whatever lies between
their entries.
-/
namespace MachImage.Objc

deriving instance DecidableEq for MethodEntry
deriving instance DecidableEq for RelativeMethodEntry

/-- An entry by addresses and one by offsets that lead to one name, one type and one
implementation. Offsets count from the place of their own field. -/
structure Corresponds (i : Image) (a b : Nat) (e : MethodEntry) (r : RelativeMethodEntry) :
    Prop where
  byAddress : (i.recordAt MethodEntry a).map (·.value) = .ok e
  byOffset : (i.recordAt RelativeMethodEntry b).map (·.value) = .ok r
  named : e.name ≠ 0
  name : i.pointerAt (b + r.name) = .ok e.name
  typed : e.signature ≠ 0
  signature : (b + 4 + r.signature : Int) = e.signature
  implementation : r.implementation = 0 ∧ e.implementation = 0 ∨
    r.implementation ≠ 0 ∧ (b + 8 + r.implementation : Int) = e.implementation

def Method.told (i : Image) (isClassMethod : Bool) (e : MethodEntry) : Except Fault Method := do
  let name ← i.stringAt e.name
  let typeEncoding ← i.stringAt e.signature
  return { name, typeEncoding, implementation := e.implementation, isClassMethod }

theorem stringOr_of_ne {i : Image} {address : Int} {placeholder : String} (some : address ≠ 0) :
    stringOr i address placeholder = i.stringAt address := if_neg some

section
variable {i : Image} {a b : Nat} {e : MethodEntry} {r : RelativeMethodEntry}

theorem Corresponds.byAddress_told (h : Corresponds i a b e r) (isClassMethod : Bool) :
    (Method.byAddress isClassMethod).read i a = Method.told i isClassMethod e := by
  obtain ⟨p, held, rfl⟩ := exists_of_map_value h.byAddress
  have named : (p.value.name : Int) ≠ 0 := Int.natCast_ne_zero.2 h.named
  have typed : (p.value.signature : Int) ≠ 0 := Int.natCast_ne_zero.2 h.typed
  simp only [Method.byAddress, held, ok_bind, stringOr_of_ne named, stringOr_of_ne typed,
    Method.told]

theorem Corresponds.byOffset_told (h : Corresponds i a b e r) (isClassMethod : Bool) :
    (Method.byOffset isClassMethod).read i b = Method.told i isClassMethod e := by
  obtain ⟨p, held, rfl⟩ := exists_of_map_value h.byOffset
  have named : (e.name : Int) ≠ 0 := Int.natCast_ne_zero.2 h.named
  have typed : (e.signature : Int) ≠ 0 := Int.natCast_ne_zero.2 h.typed
  have implementation : (if p.value.implementation = 0 then 0
      else (b + 8 + p.value.implementation : Int)) = e.implementation := by
    rcases h.implementation with ⟨none, abstract⟩ | ⟨some, place⟩
    · rw [if_pos none, abstract]
      rfl
    · rw [if_neg some, place]
  simp only [Method.byOffset, held, ok_bind, h.name, h.signature, stringOr_of_ne named,
    stringOr_of_ne typed, implementation, Method.told]

end

/-- A list by addresses and a list by offsets whose entries correspond hold the same methods: those
entries, in order, whose name and type can be read. -/
theorem methods_of_both_forms {i : Image} {isClassMethod : Bool} {A R : Nat}
    {h g : EntryListHeader} {e : Nat → MethodEntry} {r : Nat → RelativeMethodEntry}
    (absolute : isRelative h = false) (relative : isRelative g = true)
    (first : Accepts (Method.form isClassMethod) i A h)
    (second : Accepts (Method.form isClassMethod) i R g) (count : h.count = g.count)
    (same : ∀ k < h.count, Corresponds i (entryAddress A (entrySize h) k)
      (entryAddress R (entrySize g) k) (e k) (r k)) :
    ∃ methods, Method.list isClassMethod i A = .ok methods ∧
      Method.list isClassMethod i R = .ok methods ∧
      methods = (List.range h.count).filterMap fun k =>
        (Method.told i isClassMethod (e k)).toOption := by
  refine ⟨_, ?_, ?_, rfl⟩
  · refine (list_of_accepts (methodForm_tame isClassMethod h) first).trans ?_
    rw [Method.form, absolute]
    congr 1
    apply List.filterMap_congr
    intro k member
    exact congrArg _ ((same k (List.mem_range.1 member)).byAddress_told isClassMethod)
  · refine (list_of_accepts (methodForm_tame isClassMethod g) second).trans ?_
    rw [Method.form, relative, ← count]
    congr 1
    apply List.filterMap_congr
    intro k member
    exact congrArg _ ((same k (List.mem_range.1 member)).byOffset_told isClassMethod)

def bothForms : Image := imageOf
  ([0x200000020, 0x100000070, 0x100000070, 0x100000050, 0, 0x100000070, 0x100000070, 0, 0,
    0x28000000C, 0x1C00000018, 0xCFFFFFFF8, 0x10, 0x100000070].flatMap wordBytes ++ [0x41, 0]) []

theorem methods_of_both_forms_pair :
    ∃ methods, Method.list false bothForms 0x100000000 = .ok methods ∧
      Method.list false bothForms 0x100000048 = .ok methods ∧
      methods.map (·.name) = ["A", "A"] ∧
      methods.map (·.implementation) = [0x100000050, 0] := by
  let e (k : Nat) : MethodEntry := ⟨0x100000070, 0x100000070, if k = 0 then 0x100000050 else 0⟩
  let r (k : Nat) : RelativeMethodEntry := if k = 0 then ⟨0x18, 0x1C, -8⟩ else ⟨0xC, 0x10, 0⟩
  have first : Accepts (Method.form false) bothForms 0x100000000 ⟨0x20, 2⟩ :=
    ⟨by decide, of_toOption_some (by decide +kernel), by decide,
      of_toOption_some (by decide +kernel)⟩
  have second : Accepts (Method.form false) bothForms 0x100000048 ⟨0x8000000C, 2⟩ :=
    ⟨by decide, of_toOption_some (by decide +kernel), by decide,
      of_toOption_some (by decide +kernel)⟩
  have same : ∀ k < 2, Corresponds bothForms (entryAddress 0x100000000 0x20 k)
      (entryAddress 0x100000048 0xC k) (e k) (r k)
    | 0, _ => ⟨of_toOption_some (by decide +kernel), of_toOption_some (by decide +kernel),
        by decide, of_toOption_some (by decide +kernel), by decide, by decide, by decide⟩
    | 1, _ => ⟨of_toOption_some (by decide +kernel), of_toOption_some (by decide +kernel),
        by decide, of_toOption_some (by decide +kernel), by decide, by decide, by decide⟩
  obtain ⟨methods, absolute, relative, told⟩ :=
    methods_of_both_forms (by decide) (by decide) first second rfl same
  refine ⟨methods, absolute, relative, ?_, ?_⟩
  · rw [told]
    decide +kernel
  · rw [told]
    decide +kernel

end MachImage.Objc
