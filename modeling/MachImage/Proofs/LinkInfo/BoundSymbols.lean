import MachImage.LinkInfo.Basic
import MachImage.Proofs.Image.CommandViews
import MachImage.Proofs.Index.Origins
/-!
The symbols that bindings place at addresses. A binding fills the address of its slot, if the image
has its segment, and the last binding to fill an address tells the symbol there. The ordinal of a
binding counts the dylibs that are loaded, from one.
-/
namespace MachImage

def Binding.Fills (i : Image) (b : Binding) (address : Nat) : Prop :=
  ∃ s, i.segments[b.segmentIndex]? = some s ∧ address = s.address + b.segmentOffset

namespace Image

/-- The commands that ordinals count: those that name a dylib, but for the one that names the image
itself. -/
def loads (i : Image) : List LoadCommand :=
  i.commands.filter fun c => c.kind = .dylib ∧ c.code ≠ 0xD

inductive OrdinalNamed (i : Image) : (ordinal : Int) → (name : String) → Prop
  | counted {n : Nat} {d : Dylib} (load : i.loads[n]? = some (.dylib d)) :
      OrdinalNamed i (n + 1 : Nat) d.name
  | outside {ordinal : Int} (out : ordinal < 1 ∨ i.loads.length < ordinal) :
      OrdinalNamed i ordinal "<unknown dylib>"

/-- Which symbols bindings place at which addresses. -/
structure Binds (i : Image) (bs : List Binding) (bound : Index BoundSymbol) : Prop where
  keys : ∀ address, address ∈ bound ↔ ∃ b ∈ bs, b.Fills i address
  last : ∀ address symbol, bound[address]? = some symbol ↔
    ∃ before b after, bs = before ++ b :: after ∧ b.Fills i address ∧
      (symbol.address = address ∧ symbol.ordinal = b.ordinal ∧ symbol.name = b.symbol ∧
        i.OrdinalNamed b.ordinal symbol.dylibName) ∧
      ∀ later ∈ after, ¬ later.Fills i address

section
variable {i : Image}

theorem loads_eq : i.loads = i.dylibs.map .dylib := i.viewed.dylibs.symm

theorem dylibNameAt_succ {n : Nat} {d : Dylib} (load : i.loads[n]? = some (.dylib d)) :
    i.dylibNameAt (n + 1 : Nat) = d.name := by
  rw [loads_eq, List.getElem?_map, Option.map_eq_some_iff] at load
  obtain ⟨own, load, same⟩ := load
  cases same
  rw [dylibNameAt, dylibAt?_succ, load]

theorem dylibNameAt_outside {ordinal : Int} (out : ordinal < 1 ∨ i.loads.length < ordinal) :
    i.dylibNameAt ordinal = "<unknown dylib>" := by
  have missing : i.dylibAt? ordinal = none := by
    rw [loads_eq, List.length_map] at out
    rw [dylibAt?]
    split
    · rfl
    · exact List.getElem?_eq_none (by omega)
  rw [dylibNameAt, missing]

theorem ordinalNamed_iff {ordinal : Int} {name : String} :
    i.OrdinalNamed ordinal name ↔ name = i.dylibNameAt ordinal := by
  constructor
  · intro named
    cases named with
    | counted load => exact (dylibNameAt_succ load).symm
    | outside out => exact (dylibNameAt_outside out).symm
  · rintro rfl
    by_cases out : ordinal < 1 ∨ i.loads.length < ordinal
    · rw [dylibNameAt_outside out]
      exact .outside out
    · obtain ⟨n, rfl⟩ : ∃ n : Nat, ordinal = (n + 1 : Nat) := ⟨(ordinal - 1).toNat, by omega⟩
      have within : n < i.dylibs.length := by
        rw [loads_eq, List.length_map] at out
        omega
      have load : i.loads[n]? = some (.dylib i.dylibs[n]) := by
        rw [loads_eq, List.getElem?_map, List.getElem?_eq_getElem within]
        rfl
      rw [dylibNameAt_succ load]
      exact .counted load

theorem slotAddress_eq (segmentIndex segmentOffset : Nat) :
    i.slotAddress segmentIndex segmentOffset =
      match i.segments[segmentIndex]? with
      | some s => .ok (s.address + segmentOffset)
      | none => .error (.misuse (.segmentIndex segmentIndex i.segments.length)) := by
  have inside : ¬ (segmentIndex : Int) < 0 := by omega
  rw [slotAddress, segmentAt, if_neg inside, Int.toNat_natCast]
  cases i.segments[segmentIndex]? with
  | none => rfl
  | some s => rfl

theorem slotAddress_iff {b : Binding} {address : Nat} :
    i.slotAddress b.segmentIndex b.segmentOffset = .ok address ↔ b.Fills i address := by
  rw [slotAddress_eq, Binding.Fills]
  cases i.segments[b.segmentIndex]? with
  | none => simp
  | some s => simp [eq_comm]

theorem boundSymbol?_iff (b : Binding) (address : Nat) (symbol : BoundSymbol) :
    i.boundSymbol? b = some (address, symbol) ↔ b.Fills i address ∧
      ⟨address, b.ordinal, b.symbol, i.dylibNameAt b.ordinal⟩ = symbol := by
  rw [boundSymbol?, ← slotAddress_iff]
  cases i.slotAddress b.segmentIndex b.segmentOffset with
  | error e => simp
  | ok own =>
    simp only [Option.some_inj, Prod.mk.injEq, Except.ok.injEq]
    constructor
    · rintro ⟨rfl, rfl⟩
      exact ⟨rfl, rfl⟩
    · rintro ⟨rfl, rfl⟩
      exact ⟨rfl, rfl⟩

theorem symbol_iff {b : Binding} {address : Nat} {symbol : BoundSymbol} :
    ⟨address, b.ordinal, b.symbol, i.dylibNameAt b.ordinal⟩ = symbol ↔
      symbol.address = address ∧ symbol.ordinal = b.ordinal ∧ symbol.name = b.symbol ∧
        i.OrdinalNamed b.ordinal symbol.dylibName := by
  obtain ⟨_, _, _, _⟩ := symbol
  simp [ordinalNamed_iff, eq_comm]

theorem boundSymbols_binds (bs : List Binding) : i.Binds bs (i.boundSymbols bs) where
  keys := Index.mem_picked_iff boundSymbol?_iff bs
  last := fun address symbol => by
    rw [boundSymbols, Index.getElem?_picked_iff boundSymbol?_iff]
    simp only [symbol_iff]

end

/-- Bindings of a list fill addresses in order, and those of a second list behind it override them.
No binding stops the others: it has an address, or the number of its segment is at fault. -/
theorem bound_symbols_override (i : Image) (first second : List Binding) :
    (∀ address : Nat, (i.boundSymbols (first ++ second))[address]? =
      (i.boundSymbols second)[address]?.or (i.boundSymbols first)[address]?) ∧
    (∀ bs, i.Binds bs (i.boundSymbols bs)) ∧
    ∀ b : Binding,
      (∃ address, b.Fills i address ∧
        i.slotAddress b.segmentIndex b.segmentOffset = .ok address) ∨
      i.slotAddress b.segmentIndex b.segmentOffset =
        .error (.misuse (.segmentIndex b.segmentIndex i.segments.length)) := by
  refine ⟨fun address => ?_, boundSymbols_binds, fun b => ?_⟩
  · rw [boundSymbols, List.filterMap_append]
    exact Index.getElem?_ofList_append _ _ address
  · cases held : i.segments[b.segmentIndex]? with
    | none => exact .inr (by rw [slotAddress_eq, held])
    | some s =>
      have fills : b.Fills i (s.address + b.segmentOffset) := ⟨s, held, rfl⟩
      exact .inl ⟨_, fills, slotAddress_iff.2 fills⟩

end Image
end MachImage
