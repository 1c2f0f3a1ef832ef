import MachImage.Image.Symbols
import MachImage.Proofs.Image.Validity
import MachImage.Proofs.StringTable.Tiling
import MachImage.Proofs.Text.Utf8Encoding
/-!
What the symbols of an image are called. A symbol gives an index of the string table, and its name
is read from there to the next NUL. The entries of the table tell the same: the name is the rest of
the entry in which the index lies. If the index is the start of an entry in UTF-8, it is the text of
that entry.
-/
namespace MachImage
open Record

namespace StringTable

/-- What is called by an index of a table: the rest of the entry that has the index among its bytes
or on its NUL. -/
inductive Calls (table : List UInt8) : (index : Nat) → (name : String) → Prop
  | first : Calls table 0 ""
  | outside {index : Nat} (notFirst : index ≠ 0) (behind : table.length ≤ index) :
      Calls table index "<InvalidStrOffset>"
  | unended {index : Nat} (notFirst : index ≠ 0) (before : index < table.length)
      (noNul : 0 ∉ table.drop index) : Calls table index "<InvalidStr>"
  | inside {index : Nat} {e : Entry} (notFirst : index ≠ 0) (entry : e ∈ entries table)
      (start : e.start ≤ index) (stop : index ≤ e.start + e.length) :
      Calls table index (Utf8.decode (e.bytes.drop (index - e.start)))

def nameFrom (table : List UInt8) (index : Nat) : String :=
  if index = 0 then ""
  else if table.length ≤ index then "<InvalidStrOffset>"
  else if 0 ∈ table.drop index then Utf8.decode ((table.drop index).takeWhile (· ≠ 0))
  else "<InvalidStr>"

section
variable {table : List UInt8} {index : Nat} {e : Entry}

theorem drop_of_entry (member : e ∈ entries table) (start : e.start ≤ index)
    (stop : index ≤ e.start + e.length) :
    ∃ behind, table.drop index = e.bytes.drop (index - e.start) ++ 0 :: behind := by
  obtain ⟨-, before, behind, parts, place⟩ := (entries_tiles table).stands member
  rw [Entry.length] at stop
  obtain ⟨k, rfl⟩ : ∃ k, index = before.length + k := ⟨index - before.length, by omega⟩
  have within : before.length + k - e.start = k := by omega
  refine ⟨behind, ?_⟩
  rw [parts, ← List.drop_drop, List.drop_left, within,
    List.drop_append_of_le_length (by omega)]

theorem nameFrom_inside (notFirst : index ≠ 0) (member : e ∈ entries table)
    (start : e.start ≤ index) (stop : index ≤ e.start + e.length) :
    nameFrom table index = Utf8.decode (e.bytes.drop (index - e.start)) := by
  have noNul := ((entries_tiles table).stands member).1
  obtain ⟨behind, parts⟩ := drop_of_entry member start stop
  have before : ¬ table.length ≤ index := by
    intro outside
    rw [List.drop_eq_nil_of_le outside] at parts
    exact List.append_ne_nil_of_right_ne_nil _ (List.cons_ne_nil _ _) parts.symm
  have nul : 0 ∈ table.drop index := by
    rw [parts]
    exact List.mem_append_right _ List.mem_cons_self
  rw [nameFrom, if_neg notFirst, if_neg before, if_pos nul, parts,
    takeWhile_nul fun among => noNul (List.mem_of_mem_drop among)]

theorem calls_iff {name : String} : Calls table index name ↔ nameFrom table index = name := by
  constructor
  · intro calls
    cases calls with
    | first => rfl
    | outside notFirst behind => rw [nameFrom, if_neg notFirst, if_pos behind]
    | unended notFirst before noNul =>
      rw [nameFrom, if_neg notFirst, if_neg (Nat.not_le_of_lt before), if_neg noNul]
    | inside notFirst entry start stop => exact nameFrom_inside notFirst entry start stop
  · rintro rfl
    by_cases notFirst : index ≠ 0
    · by_cases behind : table.length ≤ index
      · rw [nameFrom, if_neg notFirst, if_pos behind]
        exact .outside notFirst behind
      · by_cases nul : 0 ∈ table.drop index
        · obtain ⟨e, member, start, stop⟩ := (entries_tiles table).covers nul
          rw [Nat.zero_add] at start stop
          rw [nameFrom_inside notFirst member start stop]
          exact .inside notFirst member start stop
        · rw [nameFrom, if_neg notFirst, if_neg behind, if_neg nul]
          exact .unended notFirst (Nat.lt_of_not_le behind) nul
    · rw [Decidable.not_not.1 notFirst]
      exact .first

theorem text_of_encode {text : String} (written : e.bytes = Utf8.encode text) : e.text = text := by
  have whole : (Utf8.scan (Utf8.encode text)).all (·.isSome) = true := by
    simp [Utf8.encode, Utf8.scan_encode]
  rw [Entry.text, written, Utf8.decode?, if_pos whole, Utf8.decode_encode]
  rfl

end
end StringTable

open StringTable

theorem nameIn_eq (strings : Region) (index : Nat) :
    nameIn strings index = .ok (nameFrom strings.bytes.toList index) := by
  have length : strings.bytes.toList.length = strings.size := Array.length_toList
  rw [nameIn, nameFrom, length]
  by_cases first : index = 0
  · rw [if_pos first, if_pos first]
  rw [if_neg first, if_neg first]
  by_cases behind : strings.size ≤ index
  · rw [if_pos behind, if_pos behind]
  rw [if_neg behind, if_neg behind, Region.cstring, Region.cstringBytes_eq, Region.stringFrom,
    if_neg (by omega)]
  dsimp only
  rw [Int.toNat_natCast]
  by_cases nul : 0 ∈ strings.bytes.toList.drop index
  · rw [if_pos nul, if_pos nul]
    rfl
  · rw [if_neg nul, if_neg nul]
    rfl

def Symbol.recordedAt (r : Region) (offset : Nat) (name : String) : Symbol where
  name
  rawType := u8 r.bytes (offset + 4)
  sectionNumber := u8 r.bytes (offset + 5)
  description := u16 r.bytes (offset + 6)
  value := u64 r.bytes (offset + 8)

section
variable {r strings : Region} {offset : Nat}

theorem ofEntry_recorded (strings : Region) :
    Symbol.ofEntry strings (Record.decode (r.bytes.extract offset (offset + 16))) =
      .ok (.recordedAt r offset (nameFrom strings.bytes.toList (u32 r.bytes offset))) := by
  have field {start width : Nat} (inside : start + width ≤ 16) :
      unsignedAt (r.bytes.extract offset (offset + 16)) start width =
        unsignedAt r.bytes (offset + start) width := unsignedAt_extract (by omega)
  have index : u32 (r.bytes.extract offset (offset + 16)) 0 = u32 r.bytes offset :=
    field (by decide)
  have type : u8 (r.bytes.extract offset (offset + 16)) 4 = u8 r.bytes (offset + 4) :=
    field (by decide)
  have sectionNumber : u8 (r.bytes.extract offset (offset + 16)) 5 = u8 r.bytes (offset + 5) :=
    field (by decide)
  have description : u16 (r.bytes.extract offset (offset + 16)) 6 = u16 r.bytes (offset + 6) :=
    field (by decide)
  have value : u64 (r.bytes.extract offset (offset + 16)) 8 = u64 r.bytes (offset + 8) :=
    field (by decide)
  rw [Symbol.ofEntry, nameIn_eq]
  simp only [Record.decode, index, type, sectionNumber, description, value]
  rfl

theorem symbols_recorded {c : SymbolTableCommand}
    (symbolsInside : c.symbolOffset + 16 * c.symbolCount ≤ r.size)
    (cut : r.slice c.stringOffset c.stringSize = .ok strings) :
    c.symbols r = .ok ((List.range c.symbolCount).map fun k =>
      .recordedAt r (c.symbolOffset + k * 16)
        (nameFrom strings.bytes.toList (u32 r.bytes (c.symbolOffset + k * 16)))) := by
  have size : Record.size SymbolEntry = 16 := rfl
  have found : c.strings? r = some strings := by
    rw [SymbolTableCommand.strings?, cut]
    rfl
  have inside : c.symbolOffset + c.symbolCount * 16 ≤ r.size := by omega
  have entries : r.records SymbolEntry c.symbolOffset c.symbolCount =
      .ok ((List.range c.symbolCount).map fun k =>
        ⟨Record.decode (r.bytes.extract (c.symbolOffset + k * 16) (c.symbolOffset + k * 16 + 16)),
          r.base + (c.symbolOffset + k * 16 : Nat)⟩) := by
    rw [Region.records_eq]
    refine mapM_of_ok fun k member => ?_
    have before := List.mem_range.1 member
    exact record_of_le (by rw [size]; omega)
  rw [SymbolTableCommand.symbols, size, if_pos (contains_of_le inside), found]
  dsimp only
  rw [entries, ok_bind, List.mapM_map]
  exact mapM_of_ok fun k _ => ofEntry_recorded strings

end

/-- A table that lies in the slice names each symbol as its entries tell. A name is found for every
index whatever the table holds, and if an entry in UTF-8 starts there, it is the text of that
entry. -/
theorem symbols_named :
    (∀ (strings : Region) (index : Nat), ∃ name, nameIn strings index = .ok name ∧
      ∀ other, Calls strings.bytes.toList index other ↔ other = name) ∧
    (∀ (strings : Region), ∀ e ∈ entries strings.bytes.toList, e.start ≠ 0 →
      ∀ text, e.bytes = Utf8.encode text →
        nameIn strings e.start = .ok e.text ∧ e.text = text) ∧
    (∀ (r : Region) (fileOffset : Nat) (i : Image) (c : Placed SymbolTableCommand),
      Image.parse r fileOffset = .ok i → i.symbolTable? = some c →
      c.value.symbolOffset + 16 * c.value.symbolCount ≤ r.size →
      c.value.stringOffset + c.value.stringSize ≤ r.size →
      ∃ table, i.stringTable = .ok table ∧
        table.toList = (r.bytes.toList.drop c.value.stringOffset).take c.value.stringSize ∧
        i.symbols.length = c.value.symbolCount ∧
        ∀ k < c.value.symbolCount, ∃ name,
          i.symbols[k]? = some (.recordedAt r (c.value.symbolOffset + 16 * k) name) ∧
          Calls table.toList (u32 r.bytes (c.value.symbolOffset + 16 * k)) name) := by
  refine ⟨fun strings index => ?_, fun strings e member notFirst text written => ?_, ?_⟩
  · refine ⟨_, nameIn_eq strings index, fun other => ?_⟩
    rw [calls_iff, eq_comm]
  · have start : Calls strings.bytes.toList e.start _ :=
      .inside notFirst member (Nat.le_refl _) (Nat.le_add_right _ _)
    have same := text_of_encode written
    rw [Nat.sub_self, List.drop_zero, written, Utf8.decode_encode, calls_iff] at start
    rw [nameIn_eq, start, same]
    exact ⟨rfl, rfl⟩
  · intro r fileOffset i c run found symbolsInside stringsInside
    obtain ⟨region, -, -, -, named⟩ := parse_parts run
    have cut := slice_of_le stringsInside
    rw [Image.readSymbols, show i.tables.symbolTable? = some c from found] at named
    dsimp only at named
    rw [symbols_recorded symbolsInside cut, Except.ok.injEq] at named
    refine ⟨_, ?_, toList_extract _ _ _, ?_, fun k before => ?_⟩
    · rw [Image.stringTable, Image.symbolTable, found, ok_bind, region,
        SymbolTableCommand.strings?, cut]
      rfl
    · rw [← named, List.length_map, List.length_range]
    · refine ⟨_, ?_, calls_iff.2 rfl⟩
      rw [← named, List.getElem?_map, List.getElem?_range before, Nat.mul_comm 16 k]
      rfl

def threeSymbols : Region := { bytes :=
  #[0xCF, 0xFA, 0xED, 0xFE, 12, 0, 0, 1, 0, 0, 0, 0, 2, 0, 0, 0,
    1, 0, 0, 0, 24, 0, 0, 0, 0, 0, 0, 0, 0, 0, 0, 0,
    2, 0, 0, 0, 24, 0, 0, 0, 56, 0, 0, 0, 3, 0, 0, 0, 104, 0, 0, 0, 8, 0, 0, 0,
    2, 0, 0, 0, 15, 1, 0, 0, 0, 16, 0, 0, 1, 0, 0, 0,
    4, 0, 0, 0, 1, 0, 0, 2, 0, 0, 0, 0, 0, 0, 0, 0,
    7, 0, 0, 0, 1, 0, 0, 2, 0, 0, 0, 0, 0, 0, 0, 0,
    0, 0x5F, 0x61, 0, 0xC3, 0xA9, 0, 0x78] }

theorem symbols_named_three :
    (∃ i c, Image.parse threeSymbols 0 = .ok i ∧ i.symbolTable? = some c ∧
      i.symbols = [.recordedAt threeSymbols 56 "a", .recordedAt threeSymbols 72 "é",
        .recordedAt threeSymbols 88 "<InvalidStr>"]) ∧
    nameIn ⟨#[0, 0x5F, 0x61, 0, 0xC3, 0xA9, 0, 0x78], 104⟩ 4 = .ok "é" := by
  obtain ⟨-, texts, images⟩ := symbols_named
  constructor
  · have answer : (Image.parse threeSymbols 0).toOption.any fun i =>
        (i.symbolTable?.map fun c => (c.value.symbolOffset, c.value.symbolCount,
          c.value.stringOffset, c.value.stringSize)) = some (56, 3, 104, 8) := by
      decide +kernel
    obtain ⟨i, parsed, answer⟩ := (Option.any_eq_true _ _).1 answer
    obtain ⟨c, found, fields⟩ := Option.map_eq_some_iff.1 (of_decide_eq_true answer)
    simp only [Prod.mk.injEq] at fields
    obtain ⟨symbolOffset, symbolCount, stringOffset, stringSize⟩ := fields
    have size : threeSymbols.size = 112 := rfl
    have run := of_toOption_some parsed
    obtain ⟨table, -, bytes, length, each⟩ :=
      images _ 0 i c run found (by omega) (by omega)
    rw [symbolOffset, symbolCount] at each
    rw [stringOffset, stringSize] at bytes
    rw [symbolCount] at length
    have symbol (k : Nat) (before : k < 3) (name : String)
        (called : nameFrom [0, 0x5F, 0x61, 0, 0xC3, 0xA9, 0, 0x78]
          (u32 threeSymbols.bytes (56 + 16 * k)) = name) :
        i.symbols[k]? = some (.recordedAt threeSymbols (56 + 16 * k) name) := by
      obtain ⟨other, here, calls⟩ := each k before
      rw [calls_iff, bytes] at calls
      rw [here, ← calls, ← called]
      rfl
    refine ⟨i, c, run, found, List.ext_getElem? fun k => ?_⟩
    match k with
    | 0 => exact symbol 0 (by decide) "a" (by decide +kernel)
    | 1 => exact symbol 1 (by decide) "é" (by decide +kernel)
    | 2 => exact symbol 2 (by decide) "<InvalidStr>" (by decide +kernel)
    | k + 3 => rw [List.getElem?_eq_none (by omega), List.getElem?_eq_none (by simp)]
  · have member : ⟨4, [0xC3, 0xA9]⟩ ∈ entries [0, 0x5F, 0x61, 0, 0xC3, 0xA9, 0, 0x78] := by
      simp [entries, entriesFrom]
    have written : [0xC3, 0xA9] = Utf8.encode "é" := by decide +kernel
    obtain ⟨named, same⟩ := texts ⟨#[0, 0x5F, 0x61, 0, 0xC3, 0xA9, 0, 0x78], 104⟩ _ member
      (by decide) "é" written
    rwa [same] at named

end MachImage
