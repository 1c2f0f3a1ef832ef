import Mathlib.Data.List.Perm.Basic
import MachImage.Image.Names
import MachImage.Proofs.Image.SymbolNames
import MachImage.Proofs.Index.Origins
/-!
The lists that are kept of symbols. Three fields of the type sort a symbol: bit 0 tells an external
symbol, bits 1 to 3 where it is defined, and bits 5 to 7 a debug symbol. The imports of a table fall
into one list for each dylib, and an address has the name of the last symbol defined there.
-/
namespace MachImage

theorem and_field (n low width : Nat) :
    n &&& 2 ^ low * (2 ^ width - 1) = 2 ^ low * (n / 2 ^ low % 2 ^ width) := by
  apply Nat.eq_of_testBit_eq
  intro k
  rw [Nat.testBit_and, Nat.testBit_two_pow_mul, Nat.testBit_two_pow_mul,
    Nat.testBit_two_pow_sub_one, Nat.testBit_mod_two_pow, Nat.testBit_div_two_pow]
  by_cases before : k < low
  · simp [Nat.not_le.2 before]
  · have place : k - low + low = k := by omega
    simp [place, Bool.and_comm, Bool.and_assoc]

section
variable {α : Type} (key : α → Nat) (items : List α)

theorem buckets_perm (n : Nat) :
    ((List.range n).flatMap fun k => items.filter (key · = k)).Perm
      (items.filter (key · < n)) := by
  induction n with
  | zero => simp
  | succ n ih =>
    have below : (items.filter (key · < n + 1)).filter (key · < n) = items.filter (key · < n) := by
      rw [List.filter_filter]
      refine List.filter_congr fun x _ => ?_
      simp only [← Bool.decide_and, decide_eq_decide]
      omega
    have last : (items.filter (key · < n + 1)).filter (fun x => !decide (key x < n)) =
        items.filter (key · = n) := by
      rw [List.filter_filter]
      refine List.filter_congr fun x _ => ?_
      simp only [← decide_not, ← Bool.decide_and, decide_eq_decide]
      omega
    have whole := List.filter_append_perm (fun x => key x < n) (items.filter (key · < n + 1))
    rw [below, last] at whole
    rw [List.range_succ, List.flatMap_append, List.flatMap_singleton]
    exact (ih.append_right _).trans whole

end

namespace Symbol

def Imported (s : Symbol) : Prop := s.rawType % 2 = 1 ∧ s.rawType / 2 % 8 = 0

/-- Called by something, and not there for debugging only. -/
def Shown (s : Symbol) : Prop := s.name ≠ "" ∧ s.rawType / 32 % 8 = 0

def Names (s : Symbol) (address : Int) : Prop :=
  s.Shown ∧ s.rawType / 2 % 8 = 7 ∧ s.value = address

instance : DecidablePred Imported := fun s =>
  inferInstanceAs (Decidable (s.rawType % 2 = 1 ∧ s.rawType / 2 % 8 = 0))

instance : DecidablePred Shown := fun s =>
  inferInstanceAs (Decidable (s.name ≠ "" ∧ s.rawType / 32 % 8 = 0))

section
variable (s : Symbol)

theorem type_eq : s.type = 2 * (s.rawType / 2 % 8) := and_field s.rawType 1 3

theorem isUndefined_iff : s.isUndefined = true ↔ s.rawType / 2 % 8 = 0 := by
  rw [isUndefined, type_eq, decide_eq_true_eq]
  omega

theorem isDebug_iff : s.isDebug = true ↔ s.rawType / 32 % 8 ≠ 0 := by
  have field : s.rawType &&& 0xE0 = 32 * (s.rawType / 32 % 8) := and_field s.rawType 5 3
  rw [isDebug, field, decide_eq_true_eq]
  omega

theorem isInSection_eq : s.isInSection = decide (s.rawType / 2 % 8 = 7) := by
  rw [isInSection, type_eq, decide_eq_decide]
  omega

theorem imported_eq : (s.isUndefined && s.isExternal) = decide s.Imported := by
  have bit : s.rawType &&& 1 = s.rawType % 2 := Nat.and_one_is_mod s.rawType
  rw [Bool.eq_iff_iff, Bool.and_eq_true, isUndefined_iff, isExternal, bit, decide_eq_true_eq,
    decide_eq_true_eq, Imported]
  omega

theorem shown_eq : (decide (s.name ≠ "") && !s.isDebug) = decide s.Shown := by
  rw [Bool.eq_iff_iff, Bool.and_eq_true, Bool.not_eq_true', ← Bool.not_eq_true, isDebug_iff,
    decide_eq_true_eq, decide_eq_true_eq, not_not]
  rfl

theorem libraryOrdinal_eq : s.libraryOrdinal = s.description / 256 % 256 := by
  rw [libraryOrdinal, Nat.shiftRight_eq_div_pow]

end

section
variable (symbols : List Symbol)

theorem importedFrom_eq (n : Int) : importedFrom symbols n =
    (symbols.filter (·.Imported)).filter fun s => (s.libraryOrdinal : Int) = n := by
  simp only [importedFrom, imported_eq, List.filter_filter]
  simp only [Bool.and_comm]

theorem importedFrom_perm :
    ((List.range 256).flatMap fun n : Nat => importedFrom symbols n).Perm
      (symbols.filter (·.Imported)) := by
  have buckets := buckets_perm libraryOrdinal (symbols.filter (·.Imported)) 256
  have whole : (symbols.filter (·.Imported)).filter (·.libraryOrdinal < 256) =
      symbols.filter (·.Imported) :=
    List.filter_eq_self.2 fun s _ => decide_eq_true (Nat.mod_lt _ (by decide))
  rw [whole] at buckets
  simpa only [importedFrom_eq, Int.natCast_inj] using buckets

theorem imported_names : (SymbolNames.ofSymbols symbols).imported =
    ((symbols.filter (·.Imported)).filter (·.Shown)).map (·.name) := by
  simp only [SymbolNames.ofSymbols, shown_eq, imported_eq, List.filter_filter]
  simp only [Bool.and_comm]

def naming? (s : Symbol) : Option (Nat × String) :=
  if s.Shown ∧ s.rawType / 2 % 8 = 7 then some (s.value, s.name) else none

theorem naming?_iff (s : Symbol) (address : Nat) (name : String) :
    s.naming? = some (address, name) ↔ s.Names address ∧ s.name = name := by
  rw [naming?, Names, Option.ite_none_right_eq_some, Option.some_inj, Prod.mk.injEq,
    Int.natCast_inj]
  tauto

theorem exported_eq :
    (SymbolNames.ofSymbols symbols).exported = .ofList (symbols.filterMap naming?) := by
  simp only [SymbolNames.ofSymbols, shown_eq, isInSection_eq, List.filter_filter]
  rw [← List.filterMap_eq_map, List.filterMap_filter]
  congr 2
  funext s
  simp [naming?, and_comm]

theorem nameAt?_natCast (n : Nat) : (SymbolNames.ofSymbols symbols).nameAt? n =
    (Index.ofList (symbols.filterMap naming?))[n]? := by
  rw [SymbolNames.nameAt?, if_neg (by omega), Int.toNat_natCast, exported_eq]

theorem Names.nonneg {s : Symbol} {address : Int} (names : s.Names address) : 0 ≤ address := by
  rw [← names.2.2]
  exact Int.natCast_nonneg s.value

theorem nameAt?_eq_some_iff {address : Int} {name : String} :
    (SymbolNames.ofSymbols symbols).nameAt? address = some name ↔
      ∃ before s after, symbols = before ++ s :: after ∧ s.Names address ∧ s.name = name ∧
        ∀ t ∈ after, ¬ t.Names address := by
  by_cases below : address < 0
  · rw [SymbolNames.nameAt?, if_pos below]
    refine iff_of_false (by simp) ?_
    rintro ⟨before, s, after, whole, names, -⟩
    exact absurd names.nonneg (Int.not_le.2 below)
  obtain ⟨n, rfl⟩ := Int.eq_ofNat_of_zero_le (Int.not_lt.1 below)
  rw [nameAt?_natCast]
  exact Index.getElem?_picked_iff naming?_iff symbols n name

theorem nameAt?_eq_none_iff {address : Int} :
    (SymbolNames.ofSymbols symbols).nameAt? address = none ↔
      ∀ s ∈ symbols, ¬ s.Names address := by
  by_cases below : address < 0
  · rw [SymbolNames.nameAt?, if_pos below]
    refine iff_of_true rfl fun s _ names => ?_
    exact absurd names.nonneg (Int.not_le.2 below)
  obtain ⟨n, rfl⟩ := Int.eq_ofNat_of_zero_le (Int.not_lt.1 below)
  rw [nameAt?_natCast, ← Option.not_isSome_iff_eq_none, Std.TreeMap.isSome_getElem?_iff_mem,
    Index.mem_picked_iff naming?_iff]
  push Not
  rfl

/-- How the lists of symbols follow from a table. -/
structure Sorted : Prop where
  inOrder : ∀ n : Int, (importedFrom symbols n).Sublist (symbols.filter (·.Imported))
  once : ((List.range 256).flatMap fun n : Nat => importedFrom symbols n).Perm
    (symbols.filter (·.Imported))
  dylib : ∀ s ∈ symbols, s.Imported → ∀ n : Int,
    s ∈ importedFrom symbols n ↔ n = (s.description / 256 % 256 : Nat)
  imported : (SymbolNames.ofSymbols symbols).imported =
    ((symbols.filter (·.Imported)).filter (·.Shown)).map (·.name)
  named : ∀ (address : Int) (name : String),
    (SymbolNames.ofSymbols symbols).nameAt? address = some name ↔
      ∃ before s after, symbols = before ++ s :: after ∧ s.Names address ∧ s.name = name ∧
        ∀ t ∈ after, ¬ t.Names address
  unnamed : ∀ address : Int, (SymbolNames.ofSymbols symbols).nameAt? address = none ↔
    ∀ s ∈ symbols, ¬ s.Names address
  defined : ∀ (s : Symbol) (address : Int), s.Names address →
    s.isDebug = false ∧ s.isUndefined = false

theorem sorted : Sorted symbols where
  inOrder := fun n => by
    rw [importedFrom_eq]
    exact List.filter_sublist
  once := importedFrom_perm symbols
  dylib := fun s member imported n => by
    simp [importedFrom_eq, member, imported, libraryOrdinal_eq, eq_comm]
  imported := imported_names symbols
  named := fun _ _ => nameAt?_eq_some_iff symbols
  unnamed := fun _ => nameAt?_eq_none_iff symbols
  defined := fun s address names => by
    obtain ⟨⟨-, shown⟩, defined, -⟩ := names
    rw [← Bool.not_eq_true, ← Bool.not_eq_true, isDebug_iff, isUndefined_iff]
    omega

end

end Symbol

/-- The symbols stand in the order of their records. There are none if the records or the names
reach past the slice. -/
def SymbolTableCommand.Records (c : SymbolTableCommand) (r : Region) (symbols : List Symbol) :
    Prop :=
  ∃ name : Nat → String, symbols =
    if c.symbolOffset + 16 * c.symbolCount ≤ r.size ∧ c.stringOffset + c.stringSize ≤ r.size then
      (List.range c.symbolCount).map fun k => .recordedAt r (c.symbolOffset + k * 16) (name k)
    else []

theorem SymbolTableCommand.records_of_read {c : SymbolTableCommand} {r : Region}
    {symbols : List Symbol} (read : c.symbols r = .ok symbols) : c.Records r symbols := by
  have width : Record.size SymbolEntry = 16 := rfl
  by_cases symbolsInside : c.symbolOffset + 16 * c.symbolCount ≤ r.size
  · by_cases stringsInside : c.stringOffset + c.stringSize ≤ r.size
    · rw [symbols_recorded symbolsInside (slice_of_le stringsInside), Except.ok.injEq] at read
      exact ⟨_, read.symm.trans (if_pos ⟨symbolsInside, stringsInside⟩).symm⟩
    · have outside : c.strings? r = none := by
        rw [strings?, slice_of_lt (Nat.lt_of_not_le stringsInside)]
        rfl
      rw [SymbolTableCommand.symbols, outside] at read
      refine ⟨fun _ => "", ?_⟩
      rw [if_neg (fun inside => stringsInside inside.2)]
      split at read <;> cases read <;> rfl
  · rw [SymbolTableCommand.symbols, width, not_contains_of_lt (by omega)] at read
    cases read
    exact ⟨fun _ => "", (if_neg fun inside => symbolsInside inside.1).symm⟩

namespace Image

/-- The lists of the symbols of an image with a symbol table. -/
theorem symbols_sorted {r : Region} {fileOffset : Nat} {i : Image}
    {c : Placed SymbolTableCommand} (run : parse r fileOffset = .ok i)
    (found : i.symbolTable? = some c) :
    Sure i.stringTable ∧ c.value.Records r i.symbols ∧ Symbol.Sorted i.symbols := by
  obtain ⟨-, -, -, -, read⟩ := parse_parts run
  rw [readSymbols, show i.tables.symbolTable? = some c from found] at read
  refine ⟨?_, SymbolTableCommand.records_of_read read, Symbol.sorted i.symbols⟩
  rw [stringTable, symbolTable, found]
  exact sure_ok _

theorem symbols_sorted_three : ∃ i c, parse threeSymbols 0 = .ok i ∧ i.symbolTable? = some c ∧
    Symbol.Sorted i.symbols ∧
    (Symbol.importedFrom i.symbols 2).map (·.name) = ["é", "<InvalidStr>"] ∧
    ∃ before s after, i.symbols = before ++ s :: after ∧ s.Names 0x100001000 ∧ s.name = "a" ∧
      ∀ t ∈ after, ¬ t.Names 0x100001000 := by
  have answer : (parse threeSymbols 0).toOption.any fun i =>
      i.symbolTable?.isSome ∧
        (Symbol.importedFrom i.symbols 2).map (·.name) = ["é", "<InvalidStr>"] ∧
        (SymbolNames.ofSymbols i.symbols).nameAt? 0x100001000 = some "a" := by
    decide +kernel
  obtain ⟨i, parsed, answer⟩ := (Option.any_eq_true _ _).1 answer
  obtain ⟨table, second, named⟩ := of_decide_eq_true answer
  obtain ⟨c, found⟩ := Option.isSome_iff_exists.1 table
  have run := of_toOption_some parsed
  obtain ⟨-, -, sorted⟩ := symbols_sorted run found
  exact ⟨i, c, run, found, sorted, second, (sorted.named _ _).1 named⟩

end Image
end MachImage
