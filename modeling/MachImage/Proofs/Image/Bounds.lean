import MachImage.Image.Command
import MachImage.Proofs.Region.Slices
/-!
Reads inside a region succeed, with the bytes that lie there; reads that leave it are refused. What
can be read of a slice is read in the same way of what the slice was cut from.
-/
namespace MachImage
open Record

section
variable {α : Type} [Record α] {r : Region} {offset size : Nat}

theorem contains_of_le (inside : offset + size ≤ r.size) : r.contains offset size = true := by
  rw [Region.contains_iff]
  omega

theorem not_contains_of_lt (outside : r.size < offset + size) :
    r.contains offset size = false := by
  rw [Bool.eq_false_iff, Ne, Region.contains_iff]
  omega

theorem read_of_le (inside : offset + size ≤ r.size) :
    r.read offset size = .ok (r.bytes.extract offset (offset + size)) := by
  rw [Region.read, contains_of_le inside]
  rfl

theorem read_of_lt (outside : r.size < offset + size) :
    r.read offset size = .error (.outOfBounds offset size r.size) := by
  rw [Region.read, not_contains_of_lt outside]
  rfl

theorem slice_of_le (inside : offset + size ≤ r.size) :
    r.slice offset size =
      .ok { bytes := r.bytes.extract offset (offset + size), base := r.base + offset } := by
  rw [Region.slice, read_of_le inside]
  rfl

theorem slice_of_lt (outside : r.size < offset + size) :
    r.slice offset size = .error (.outOfBounds offset size r.size) := by
  rw [Region.slice, read_of_lt outside]
  rfl

theorem record_of_le (inside : offset + Record.size α ≤ r.size) :
    r.record α offset = .ok
      { value := Record.decode (r.bytes.extract offset (offset + Record.size α)),
        offset := r.base + offset } := by
  rw [Region.record, read_of_le inside]
  rfl

theorem record_of_lt (outside : r.size < offset + Record.size α) :
    r.record α offset = .error (.outOfBounds offset (Record.size α) r.size) := by
  rw [Region.record, read_of_lt outside]
  rfl

theorem records_sure {count : Nat} (inside : offset + count * Record.size α ≤ r.size) :
    Sure (r.records α offset count) := by
  rw [Region.records_eq]
  refine sure_mapM fun i member => ?_
  have before : (i + 1) * Record.size α ≤ count * Record.size α :=
    Nat.mul_le_mul_right _ (List.mem_range.1 member)
  rw [Nat.succ_mul] at before
  rw [record_of_le (by omega)]
  exact sure_ok _

end

section
variable {α : Type} [Record α] {r own : Region} {o n : Nat}

theorem record_of_slice (cut : r.slice o n = .ok own) {k : Nat} {c : Placed α}
    (read : own.record α k = .ok c) : r.record α (o + k : Nat) = .ok c := by
  rw [Int.natCast_add]
  exact ((Region.Reads.record α).slice_iff cut).2 c read

theorem records_of_slice (cut : r.slice o n = .ok own) {k count : Nat}
    {cs : List (Placed α)} (read : own.records α k count = .ok cs) :
    r.records α (o + k) count = .ok cs := by
  rw [Region.records_eq] at read ⊢
  refine mapM_mono (fun i c held => ?_) read
  have held := record_of_slice cut held
  rw [← Nat.add_assoc] at held
  exact held

end

theorem magic_of_le {r : Region} (inside : 4 ≤ r.size) :
    r.word 0 .u32 = .ok (u32 r.bytes 0 : Int) := by
  have read : r.read 0 4 = .ok (r.bytes.extract 0 4) := @read_of_le r 0 4 inside
  simp only [Region.word, WordType.size, Int.cast_ofNat_Int, read]
  rfl

theorem magic_of_lt {r : Region} (short : r.size < 4) :
    r.word 0 .u32 = .error (.outOfBounds 0 4 r.size) := by
  have read : r.read 0 4 = .error (.outOfBounds 0 4 r.size) :=
    @read_of_lt r 0 4 short
  simp only [Region.word, WordType.size, Int.cast_ofNat_Int, read]
  rfl

end MachImage
