import Mathlib
import MachImage.Proofs.Image.CommandViews
/-!
Encrypted ranges. For each encryption id an image keeps one range, that of the last command with
this id, and a range of the slice is encrypted if it shares a byte with the range under id 1. Only
the ends of the two are compared, so around an empty range there is an answer without such a byte.
-/
namespace MachImage
open Record

/-- A command at `o` that is large enough to tell a range, with encryption id 1. -/
structure EncryptsAt (bs : Array UInt8) (o : Nat) : Prop where
  code : u32 bs o = 0x2C
  large : 24 ≤ u32 bs (o + 4)
  id : u32 bs (o + 16) = 1

structure LastEncryption (bs : Array UInt8) (k : Nat) : Prop where
  announced : k < u32 bs 16
  encrypts : EncryptsAt bs (commandOffset bs k)
  last : ∀ later, k < later → later < u32 bs 16 → ¬ EncryptsAt bs (commandOffset bs later)

def encryptedBytes (bs : Array UInt8) (o : Nat) : Set Int :=
  Set.Ico (u32 bs (o + 8) : Int) (u32 bs (o + 8) + u32 bs (o + 12))

section
variable {α : Type} {items before after : List α} {x y : α} {k : Nat}

theorem split_at_number (here : items[k]? = some x) :
    ∃ before after, items = before ++ x :: after ∧ before.length = k := by
  obtain ⟨inside, rfl⟩ := List.getElem?_eq_some_iff.1 here
  refine ⟨items.take k, items.drop (k + 1), ?_, List.length_take_of_le (Nat.le_of_lt inside)⟩
  rw [← List.drop_eq_getElem_cons inside, List.take_append_drop]

theorem mem_behind_iff :
    y ∈ after ↔ ∃ l, before.length < l ∧ (before ++ x :: after)[l]? = some y := by
  have behind (n : Nat) : (before ++ x :: after)[before.length + n + 1]? = after[n]? := by
    rw [Nat.add_assoc, List.getElem?_append_right (Nat.le_add_right _ _),
      Nat.add_sub_cancel_left, List.getElem?_cons_succ]
  rw [List.mem_iff_getElem?]
  constructor
  · rintro ⟨n, there⟩
    exact ⟨before.length + n + 1, by omega, (behind n).trans there⟩
  · rintro ⟨l, later, there⟩
    obtain ⟨n, rfl⟩ := Nat.exists_eq_add_of_lt later
    exact ⟨n, (behind n).symm.trans there⟩

end

namespace LoadCommand

theorem kind_encryption (code : Nat) : CommandKind.ofCode code = .encryption ↔ code = 0x2C := by
  constructor
  · intro kind
    simp only [CommandKind.ofCode, kind_ite, reduceCtorEq, and_false, or_false, false_or,
      and_true] at kind
    exact kind.2
  · rintro rfl
    rfl

theorem DecodedAt.encrypts_iff {r : Region} {o : Nat} {command : LoadCommand}
    (decoded : command.DecodedAt r o) :
    EncryptsAt r.bytes o ↔ ∃ c, command = .encryption c ∧ c.value.cryptId = 1 := by
  have kind := decoded.kind
  constructor
  · intro encrypts
    have large : CommandKind.encryption.leastSize ≤ u32 r.bytes (o + 4) := encrypts.large
    rw [(kind_encryption _).2 encrypts.code, if_pos large] at kind
    cases command with
    | encryption c =>
      have id := word_of_record (·.cryptId) 16 (fun _ => rfl) (by decide) decoded.lies
      exact ⟨c, rfl, id.trans encrypts.id⟩
    | _ => cases kind
  · rintro ⟨c, rfl, id⟩
    split at kind
    case isFalse => cases kind
    case isTrue large =>
      rw [← kind] at large
      have told := word_of_record (·.cryptId) 16 (fun _ => rfl) (by decide) decoded.lies
      exact ⟨(kind_encryption _).1 kind.symm, large, told.symm.trans id⟩

theorem DecodedAt.encrypted_range {r : Region} {o : Nat} {c : Placed EncryptionInfo}
    (decoded : DecodedAt r o (.encryption c)) :
    (c.value.cryptOffset, c.value.cryptSize) = (u32 r.bytes (o + 8), u32 r.bytes (o + 12)) :=
  congrArg₂ Prod.mk (word_of_record (·.cryptOffset) 8 (fun _ => rfl) (by decide) decoded.lies)
    (word_of_record (·.cryptSize) 12 (fun _ => rfl) (by decide) decoded.lies)

end LoadCommand

namespace Image

section
variable {r : Region} {fileOffset : Nat} {i : Image}

theorem encrypted?_iff (run : parse r fileOffset = .ok i) (range : Nat × Nat) :
    i.encrypted? = some range ↔ ∃ k, LastEncryption r.bytes k ∧
      range = (u32 r.bytes (commandOffset r.bytes k + 8),
        u32 r.bytes (commandOffset r.bytes k + 12)) := by
  obtain ⟨count, decoded⟩ := commands_decoded run
  rw [encrypted?, encryption_iff]
  constructor
  · rintro ⟨before, c, after, whole, id, told, later⟩
    have here : i.commands[before.length]? = some (.encryption c) := by simp [whole]
    have announced : before.length < u32 r.bytes 16 := by simp [← count, whole]
    have encrypts := (decoded _ _ here).encrypts_iff.2 ⟨c, rfl, id⟩
    refine ⟨before.length, ⟨announced, encrypts, ?_⟩, told.trans (decoded _ _ here).encrypted_range⟩
    intro l behind announced encrypts
    have there := List.getElem?_eq_getElem (count ▸ announced)
    obtain ⟨d, same, id⟩ := (decoded l _ there).encrypts_iff.1 encrypts
    rw [same, whole] at there
    exact later d (mem_behind_iff.2 ⟨l, behind, there⟩) id
  · rintro ⟨k, found, rfl⟩
    have here := List.getElem?_eq_getElem (count ▸ found.announced)
    obtain ⟨c, same, id⟩ := (decoded k _ here).encrypts_iff.1 found.encrypts
    rw [same] at here
    obtain ⟨before, after, whole, rfl⟩ := split_at_number here
    refine ⟨before, c, after, whole, id, (decoded _ _ here).encrypted_range.symm, ?_⟩
    intro d member id
    obtain ⟨l, behind, there⟩ := mem_behind_iff.1 member
    rw [← whole] at there
    have announced : l < u32 r.bytes 16 := count ▸ (List.getElem?_eq_some_iff.1 there).1
    exact found.last l behind announced ((decoded l _ there).encrypts_iff.2 ⟨d, rfl, id⟩)

/-- Ranges that hold a byte each meet where neither ends before the other begins. -/
theorem meet_iff {a b c d : Int} (first : a < b) (second : c < d) :
    (Set.Ico a b ∩ Set.Ico c d).Nonempty ↔ c < b ∧ a < d := by
  rw [Set.Ico_inter_Ico, Set.nonempty_Ico]
  omega

theorem isRangeEncrypted_iff {offset size : Int} : i.isRangeEncrypted offset size = true ↔
    ∃ range, i.encrypted? = some range ∧
      range.1 < offset + size ∧ offset < range.1 + range.2 := by
  unfold isRangeEncrypted
  cases i.encrypted? with
  | none => simp
  | some range => simp

theorem isRangeEncrypted_ends (run : parse r fileOffset = .ok i) {offset size : Int} :
    i.isRangeEncrypted offset size = true ↔ ∃ k, LastEncryption r.bytes k ∧
      (u32 r.bytes (commandOffset r.bytes k + 8) : Int) < offset + size ∧
      offset < u32 r.bytes (commandOffset r.bytes k + 8) +
        u32 r.bytes (commandOffset r.bytes k + 12) := by
  rw [isRangeEncrypted_iff]
  constructor
  · rintro ⟨range, held, ends⟩
    obtain ⟨k, found, rfl⟩ := (encrypted?_iff run range).1 held
    exact ⟨k, found, ends⟩
  · rintro ⟨k, found, ends⟩
    exact ⟨_, (encrypted?_iff run _).2 ⟨k, found, rfl⟩, ends⟩

/-- The range that the command at `o` declares is empty and lies within the bytes in question, with
some of them before it and some behind. -/
structure EmptyWithin (bs : Array UInt8) (o : Nat) (offset size : Int) : Prop where
  empty : u32 bs (o + 12) = 0
  behind : offset < u32 bs (o + 8)
  before : (u32 bs (o + 8) : Int) < offset + size

/-- Around an empty range the ends are in order, yet no byte is shared. Elsewhere the ends decide. -/
theorem meet_iff_ends {bs : Array UInt8} {o : Nat} {offset size : Int} (asked : 1 ≤ size)
    (apart : ¬ EmptyWithin bs o offset size) :
    (Set.Ico offset (offset + size) ∩ encryptedBytes bs o).Nonempty ↔
      (u32 bs (o + 8) : Int) < offset + size ∧ offset < u32 bs (o + 8) + u32 bs (o + 12) := by
  have some : offset < offset + size := by omega
  by_cases empty : u32 bs (o + 12) = 0
  · have none : encryptedBytes bs o = ∅ := by simp [encryptedBytes, empty]
    rw [none, Set.inter_empty, empty]
    constructor
    · exact fun shared => absurd shared Set.not_nonempty_empty
    · rintro ⟨before, behind⟩
      exact absurd ⟨empty, by omega, before⟩ apart
  · exact meet_iff some (by omega)

/-- A range of bytes is encrypted if one of them is among those that the last command to encrypt
declares, unless that command declares none and its place lies within the range. -/
theorem range_encrypted_iff (run : parse r fileOffset = .ok i) {offset size : Int}
    (asked : 1 ≤ size) (apart : ∀ k, LastEncryption r.bytes k →
      ¬ EmptyWithin r.bytes (commandOffset r.bytes k) offset size) :
    i.isRangeEncrypted offset size = true ↔ ∃ k, LastEncryption r.bytes k ∧
      (Set.Ico offset (offset + size) ∩
        encryptedBytes r.bytes (commandOffset r.bytes k)).Nonempty := by
  rw [isRangeEncrypted_ends run]
  refine exists_congr fun k => and_congr_right fun found => ?_
  exact (meet_iff_ends asked (apart k found)).symm

/-- Around the place of an empty range all is encrypted, though no byte of it is declared so. -/
theorem encrypted_around_empty (run : parse r fileOffset = .ok i) {k : Nat}
    (found : LastEncryption r.bytes k) {offset size : Int}
    (within : EmptyWithin r.bytes (commandOffset r.bytes k) offset size) :
    i.isRangeEncrypted offset size = true ∧
      encryptedBytes r.bytes (commandOffset r.bytes k) = ∅ := by
  refine ⟨(isRangeEncrypted_ends run).2 ⟨k, found, within.before, ?_⟩, ?_⟩
  · have behind := within.behind
    omega
  · simp [encryptedBytes, within.empty]

end

def noRange : Array UInt8 :=
  #[0xCF, 0xFA, 0xED, 0xFE, 12, 0, 0, 1, 0, 0, 0, 0, 2, 0, 0, 0,
    1, 0, 0, 0, 24, 0, 0, 0, 0, 0, 0, 0, 0, 0, 0, 0,
    0x2C, 0, 0, 0, 24, 0, 0, 0, 0, 0x50, 0, 0, 0, 0, 0, 0, 1, 0, 0, 0, 0, 0, 0, 0]

def ofNoRange : Image :=
  { region := { bytes := noRange }, fileOffset := 0,
    header := ⟨⟨0xFEEDFACF, 0x100000C, 0, 2, 1, 24, 0, 0⟩, 0⟩,
    commands := [.encryption ⟨⟨0x2C, 24, 0x5000, 0, 1, 0⟩, 32⟩], symbols := [] }

/-- No byte is encrypted, and yet the range around the place of the empty one is. -/
theorem encrypted_around_empty_range :
    parse { bytes := noRange } 0 = .ok ofNoRange ∧
      ofNoRange.isRangeEncrypted 0x4FF0 0x20 = true ∧
      ∀ k, k < u32 noRange 16 → encryptedBytes noRange (commandOffset noRange k) = ∅ := by
  have run : parse { bytes := noRange } 0 = .ok ofNoRange := by with_unfolding_all rfl
  have one : u32 noRange 16 = 1 := by decide +kernel
  have last : LastEncryption noRange 0 :=
    { announced := by rw [one]; decide
      encrypts := ⟨by decide +kernel, by decide +kernel, by decide +kernel⟩
      last := by intro later behind announced; omega }
  have within : EmptyWithin noRange (commandOffset noRange 0) 0x4FF0 0x20 :=
    ⟨by decide +kernel, by decide +kernel, by decide +kernel⟩
  obtain ⟨encrypted, none⟩ := encrypted_around_empty run last within
  refine ⟨run, encrypted, fun k announced => ?_⟩
  obtain rfl : k = 0 := by omega
  exact none

def twoRanges : Array UInt8 :=
  #[0xCF, 0xFA, 0xED, 0xFE, 12, 0, 0, 1, 0, 0, 0, 0, 2, 0, 0, 0,
    2, 0, 0, 0, 48, 0, 0, 0, 0, 0, 0, 0, 0, 0, 0, 0,
    0x2C, 0, 0, 0, 24, 0, 0, 0, 0, 0x40, 0, 0, 0, 0x20, 0, 0, 1, 0, 0, 0, 0, 0, 0, 0,
    0x2C, 0, 0, 0, 24, 0, 0, 0, 0, 0x80, 0, 0, 0, 0x10, 0, 0, 1, 0, 0, 0, 0, 0, 0, 0]

def ofTwoRanges : Image :=
  { region := { bytes := twoRanges }, fileOffset := 0,
    header := ⟨⟨0xFEEDFACF, 0x100000C, 0, 2, 2, 48, 0, 0⟩, 0⟩,
    commands := [.encryption ⟨⟨0x2C, 24, 0x4000, 0x2000, 1, 0⟩, 32⟩,
      .encryption ⟨⟨0x2C, 24, 0x8000, 0x1000, 1, 0⟩, 56⟩],
    symbols := [] }

theorem parse_twoRanges : parse { bytes := twoRanges } 0 = .ok ofTwoRanges := by
  with_unfolding_all rfl

theorem range_encrypted_iff_second :
    parse { bytes := twoRanges } 0 = .ok ofTwoRanges ∧ LastEncryption twoRanges 1 ∧
      (∀ k, LastEncryption twoRanges k →
        ¬ EmptyWithin twoRanges (commandOffset twoRanges k) 0x8FFF 2) ∧
      ofTwoRanges.isRangeEncrypted 0x8FFF 2 = true := by
  have two : u32 twoRanges 16 = 2 := by decide +kernel
  have sizes : ∀ k < 2, 0 < u32 twoRanges (commandOffset twoRanges k + 12) := by decide +kernel
  have last : LastEncryption twoRanges 1 :=
    { announced := by rw [two]; decide
      encrypts := ⟨by decide +kernel, by decide +kernel, by decide +kernel⟩
      last := by intro later behind announced; omega }
  have apart : ∀ k, LastEncryption twoRanges k →
      ¬ EmptyWithin twoRanges (commandOffset twoRanges k) 0x8FFF 2 :=
    fun k found within => absurd within.empty (Nat.ne_of_gt (sizes k (two ▸ found.announced)))
  have lastByte : 0x8FFF ∈ encryptedBytes twoRanges (commandOffset twoRanges 1) :=
    ⟨by decide +kernel, by decide +kernel⟩
  exact ⟨parse_twoRanges, last, apart, (range_encrypted_iff parse_twoRanges (by decide) apart).2
    ⟨1, last, 0x8FFF, ⟨by decide, by decide⟩, lastByte⟩⟩

/-- The range of the first command is forgotten. -/
theorem first_range_forgotten :
    parse { bytes := twoRanges } 0 = .ok ofTwoRanges ∧
      ¬ (ofTwoRanges.isRangeEncrypted 0x5000 0x10 = true ↔ ∃ k, k < u32 twoRanges 16 ∧
        EncryptsAt twoRanges (commandOffset twoRanges k) ∧
          (Set.Ico 0x5000 (0x5000 + 0x10) ∩
            encryptedBytes twoRanges (commandOffset twoRanges k)).Nonempty) := by
  refine ⟨parse_twoRanges, fun same => ?_⟩
  have first : EncryptsAt twoRanges (commandOffset twoRanges 0) :=
    ⟨by decide +kernel, by decide +kernel, by decide +kernel⟩
  have within : 0x5000 ∈ encryptedBytes twoRanges (commandOffset twoRanges 0) :=
    ⟨by decide +kernel, by decide +kernel⟩
  have encrypted := same.2
    ⟨0, by decide +kernel, first, 0x5000, ⟨by decide, by decide⟩, within⟩
  have clear : ofTwoRanges.isRangeEncrypted 0x5000 0x10 = false := by decide +kernel
  rw [clear] at encrypted
  cases encrypted

end Image
end MachImage
