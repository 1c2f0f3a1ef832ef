import Mathlib
import MachImage.Proofs.Text.Numerals
import MachImage.Proofs.TypeCode.Locality
/-!
Method encodings put together from encodings of types, each with its offset behind it. The offset
ends up behind the digits in which the type ends, and both are read as one number; only a bitfield
would take them for its width. So every type comes out as it does on its own.
-/
namespace MachImage.TypeCode

def endsInBitfield : TypeCode → Bool
  | .bitfield _ => true
  | .pointer (some t) => endsInBitfield t
  | _ => false

theorem takes_digit {c : Char} (digit : Numeral.isDigit c = true) :
    ∀ t, takes t c = endsInBitfield t
  | .object none [] => by
    have mark : c ≠ '?' ∧ c ≠ '"' := by
      constructor <;> (rintro rfl; revert digit; decide)
    simp [takes, endsInBitfield, mark]
  | .object none (_ :: _) => rfl
  | .object (some _) _ => rfl
  | .block none => by
    have angle : c ≠ '<' := by
      rintro rfl
      revert digit
      decide
    simp [takes, endsInBitfield, angle]
  | .block (some _) => rfl
  | .bitfield _ => digit
  | .pointer (some t) => takes_digit digit t
  | .pointer none => rfl
  | .primitive _ => rfl
  | .unknown _ => rfl
  | .array _ _ => rfl
  | .aggregate _ _ _ => rfl

def lastDigits (s : List Char) : List Char := s.reverse.takeWhile Numeral.isDigit

theorem length_le_lastDigits {run : List Char} (all : ∀ c ∈ run, Numeral.isDigit c = true)
    (before : List Char) : run.length ≤ (lastDigits (before ++ run)).length := by
  have reversed : ∀ c ∈ run.reverse, Numeral.isDigit c = true := fun c member =>
    all c (List.mem_reverse.1 member)
  rw [lastDigits, List.reverse_append, List.takeWhile_append_of_pos reversed, List.length_append,
    List.length_reverse]
  exact Nat.le_add_right _ _

theorem Scans.decimal {value : Option Nat} {run rest : List Char} (scans : Scans run value rest) :
    ∀ c ∈ run, (Numeral.decimal? c).isSome = true := by
  cases value with
  | none =>
    rw [scans.none rfl]
    exact List.forall_mem_nil _
  | some n => exact (Numeral.decimal_of_value (scans.number n rfl).2).1

theorem Scans.joined {value : Option Nat} {run rest offset later : List Char}
    (scans : Scans run value rest) (digits : ∀ c ∈ offset, c.isDigit = true)
    (present : offset ≠ []) (few : run.length + offset.length ≤ Numeral.limit)
    (noDigit : NoDigit later) :
    ∃ n, Gives (TypeCode.digits (run ++ (offset ++ later))) (some n) later := by
  have all : ∀ c ∈ run ++ offset, Numeral.isDigit c = true := by
    intro c member
    rcases List.mem_append.1 member with member | member
    · exact scans.digits c member
    · exact Numeral.isDigit_of_isDigit (digits c member)
  have decimal : ∀ c ∈ run ++ offset, (Numeral.decimal? c).isSome = true := by
    intro c member
    rcases List.mem_append.1 member with member | member
    · exact scans.decimal c member
    · rw [Numeral.decimal?_of_isDigit (digits c member)]
      rfl
  have number := Numeral.value_of_decimal decimal (by rwa [List.length_append])
  rw [← List.append_assoc]
  exact ⟨_, digits_value all noDigit (List.append_ne_nil_of_right_ne_nil run present) number⟩

/-- The encoding of a type, what it is decoded to, and the offset behind it. -/
structure Piece where
  source : String
  type : TypeCode
  offset : String

namespace Piece

/-- A piece that can stand in a method encoding. -/
structure Fits (p : Piece) : Prop where
  decoded : decode p.source = .ok p.type
  begins : NoDigit p.source.toList
  ends : endsInBitfield p.type = false
  present : p.offset ≠ ""
  digits : ∀ c ∈ p.offset.toList, c.isDigit = true
  short : (lastDigits p.source.toList).length + p.offset.length ≤ Numeral.limit

def text (p : Piece) : List Char := p.source.toList ++ p.offset.toList

def joined (ps : List Piece) : String := String.join (ps.map fun p => p.source ++ p.offset)

section
variable {p : Piece} {ps : List Piece} {later : List Char}

theorem toList_joined (ps : List Piece) : (joined ps).toList = ps.flatMap text := by
  rw [joined, String.toList_join, List.flatMap_map]
  simp only [String.toList_append]
  rfl

theorem Fits.gives (fits : p.Fits) (noDigit : NoDigit later) :
    Gives (decodeWithOffset (p.text ++ later)) p.type later := by
  obtain ⟨_, mid, first, value, _, scan, same, rfl⟩ :=
    decodeWithOffset_gives_iff.1 (decode_ok_iff.1 fits.decoded)
  rw [← same] at first
  obtain ⟨run, rfl, scans⟩ := digits_gives_iff.1 scan
  rw [List.append_nil] at first
  obtain ⟨read, whole, again⟩ := decodeOne_settled maxDepth _ _ _ first
  have present : p.offset.toList ≠ [] := mt String.toList_eq_nil_iff.1 fits.present
  have joins : Joins p.type run (run ++ (p.offset.toList ++ later)) := by
    cases run with
    | nil =>
      obtain ⟨d, ds, offset⟩ := List.exists_cons_of_ne_nil present
      have digit : d.isDigit = true := fits.digits d (by rw [offset]; exact List.mem_cons_self)
      rw [offset]
      refine .inl ?_
      rintro _ ⟨⟩
      rw [takes_digit (Numeral.isDigit_of_isDigit digit), fits.ends]
    | cons c run => exact .inr rfl
  have few : run.length + p.offset.toList.length ≤ Numeral.limit := by
    have last := length_le_lastDigits scans.digits read
    have short := fits.short
    rw [← whole] at last
    rw [String.length_toList]
    omega
  obtain ⟨n, scan⟩ := scans.joined fits.digits present few noDigit
  rw [text, whole, List.append_assoc, List.append_assoc]
  exact decodeWithOffset_gives_iff.2 ⟨p.type, _, again _ joins, some n, later, scan, rfl, rfl⟩

theorem noDigit_text (fits : ∀ p ∈ ps, p.Fits) : NoDigit (ps.flatMap text) := by
  cases ps with
  | nil => exact noDigit_nil
  | cons p ps =>
    have first := fits p List.mem_cons_self
    obtain ⟨nonempty, -⟩ := decode_ok_iff.1 first.decoded
    obtain ⟨c, cs, spelled⟩ := List.exists_cons_of_length_pos nonempty
    rw [List.flatMap_cons, text, List.append_assoc]
    apply first.begins.congr
    rw [spelled]
    rfl

theorem decodeAll_pieces (fits : ∀ p ∈ ps, p.Fits) :
    decodeAll (ps.flatMap text) = .ok (ps.map (·.type)) := by
  induction ps with
  | nil => exact decodeAll_nil_iff.2 List.flatMap_nil
  | cons p ps ih =>
    obtain ⟨first, later⟩ := List.forall_mem_cons.1 fits
    exact decodeAll_cons_iff.2 ⟨_, first.gives (noDigit_text later), ih later⟩

end

/-- Encodings of types with an offset behind each make the encoding of a method. -/
theorem decodeSignature_joined (p : Piece) (ps : List Piece) (fits : ∀ q ∈ p :: ps, q.Fits) :
    decodeSignature (joined (p :: ps)) = .ok ⟨p.type, ps.map (·.type)⟩ := by
  apply decodeSignature_ok_iff.2
  rw [toList_joined]
  exact decodeAll_pieces fits

theorem decodeSignature_joined_block :
    decodeSignature "v24r^\x7bS=i\x7d40@?<v>16" =
      .ok ⟨.primitive .void,
        [.pointer (some (.aggregate .struct (some "S") (some [⟨none, .primitive .int⟩]))),
          .block (some ⟨.primitive .void, []⟩)]⟩ := by
  have read_void : ∃ w, decodeWithOffset ['v'] = .ok ⟨.primitive .void, [], w⟩ :=
    ⟨by decide, by cbv⟩
  have read_pointer : ∃ w, decodeWithOffset ['r', '^', '\x7b', 'S', '=', 'i', '\x7d', '4'] =
      .ok ⟨.pointer (some (.aggregate .struct (some "S") (some [⟨none, .primitive .int⟩]))),
        [], w⟩ := ⟨by decide, by cbv⟩
  have read_block : ∃ w, decodeWithOffset ['@', '?', '<', 'v', '>'] =
      .ok ⟨.block (some ⟨.primitive .void, []⟩), [], w⟩ := ⟨by decide, by cbv⟩
  obtain ⟨_, read_void⟩ := read_void
  obtain ⟨_, read_pointer⟩ := read_pointer
  obtain ⟨_, read_block⟩ := read_block
  have void : Fits ⟨"v", .primitive .void, "24"⟩ :=
    ⟨decode_whole (by decide) read_void, by decide, rfl, by decide,
      List.all_eq_true.1 (by decide), by decide⟩
  have pointer : Fits ⟨"r^\x7bS=i\x7d4",
      .pointer (some (.aggregate .struct (some "S") (some [⟨none, .primitive .int⟩]))), "0"⟩ :=
    ⟨decode_whole (by decide) read_pointer, by decide, rfl, by decide,
      List.all_eq_true.1 (by decide), by decide⟩
  have block : Fits ⟨"@?<v>", .block (some ⟨.primitive .void, []⟩), "16"⟩ :=
    ⟨decode_whole (by decide) read_block, by decide, rfl, by decide,
      List.all_eq_true.1 (by decide), by decide⟩
  exact decodeSignature_joined ⟨"v", _, "24"⟩ [⟨"r^\x7bS=i\x7d4", _, "0"⟩, ⟨"@?<v>", _, "16"⟩]
    (List.forall_mem_cons.2 ⟨void, List.forall_mem_cons.2 ⟨pointer,
      List.forall_mem_cons.2 ⟨block, List.forall_mem_nil _⟩⟩⟩)

end Piece

end MachImage.TypeCode
