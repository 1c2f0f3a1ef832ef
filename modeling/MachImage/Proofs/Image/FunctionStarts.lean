import MachImage.Image.FunctionStarts
import MachImage.Proofs.Cursor.Ahead
import MachImage.Proofs.Image.Bounds
import MachImage.Proofs.Image.Tables
/-!
Function starts, written and read. The distances of ascending addresses are read back as these
addresses, up to the end of the data or to a zero byte. And whatever the data holds, the starts that
are read ascend from the virtual base and are no more than its bytes, so none is lost in a set of
them.
-/
namespace MachImage

/-- How far each address lies behind the one before it, the first behind `base`. -/
def distances : (base : Nat) → List Nat → List Nat
  | _, [] => []
  | base, a :: rest => (a - base) :: distances a rest

/-- The starts that stand ahead of a cursor, counted from an address. -/
inductive ListsStarts : Cursor → (address : Nat) → List Nat → Prop
  | ended {c : Cursor} {address : Nat} (behind : c.atEnd = true) : ListsStarts c address []
  | closed {c next : Cursor} {address : Nat} (going : c.atEnd = false)
      (read : c.unsigned = .ok (0, next)) : ListsStarts c address []
  | start {c next : Cursor} {address distance : Nat} {starts : List Nat} (going : c.atEnd = false)
      (read : c.unsigned = .ok (distance, next)) (moved : distance ≠ 0)
      (later : ListsStarts next (address + distance) starts) :
      ListsStarts c address ((address + distance) :: starts)

section
variable {c : Cursor} {address : Nat} {starts : List Nat}

theorem ListsStarts.read (h : ListsStarts c address starts) :
    startsFrom c address = .ok starts := by
  induction h with
  | ended behind => rw [startsFrom_eq, if_pos behind]
  | closed going read =>
    rw [startsFrom_eq, going, if_neg Bool.false_ne_true, read]
    rfl
  | start going read moved later ih =>
    rw [startsFrom_eq, going, if_neg Bool.false_ne_true, read]
    dsimp only
    rw [if_neg moved, ih]
    rfl

theorem listsStarts_of_read (run : startsFrom c address = .ok starts) :
    ListsStarts c address starts := by
  induction c, address using startsFrom.induct generalizing starts with
  | case1 c address behind =>
    rw [startsFrom_eq, if_pos behind] at run
    cases run
    exact .ended behind
  | case2 c address going e read =>
    rw [startsFrom_eq, if_neg going, read] at run
    cases run
  | case3 c address going next read =>
    rw [startsFrom_eq, if_neg going, read] at run
    cases run
    exact .closed (Bool.eq_false_iff.2 going) read
  | case4 c address going distance next read moved ih =>
    rw [startsFrom_eq, if_neg going, read] at run
    dsimp only at run
    rw [if_neg moved] at run
    cases later : startsFrom next (address + distance) with
    | error e =>
      rw [later] at run
      cases run
    | ok rest =>
      rw [later] at run
      cases run
      exact .start (Bool.eq_false_iff.2 going) read moved (ih later)

theorem ListsStarts.ascends (h : ListsStarts c address starts) :
    (address :: starts).Pairwise (· < ·) := by
  induction h with
  | ended => exact List.pairwise_singleton _ _
  | closed => exact List.pairwise_singleton _ _
  | start going read moved later ih =>
    obtain ⟨first, -⟩ := List.pairwise_cons.1 ih
    refine List.pairwise_cons.2 ⟨List.forall_mem_cons.2 ⟨by omega, fun a member => ?_⟩, ih⟩
    have := first a member
    omega

theorem ListsStarts.length_le (h : ListsStarts c address starts) : starts.length ≤ c.left := by
  induction h with
  | ended => exact Nat.zero_le _
  | closed => exact Nat.zero_le _
  | @start c next _ distance _ going read moved later ih =>
    have less := (c.unsigned_moves _ _ read).2.2
    rw [List.length_cons]
    omega

theorem listsStarts_written {tail : List UInt8}
    (ahead : c.Faces ((distances address starts).flatMap Leb.encodeUnsigned ++ tail))
    (ascends : (address :: starts).Pairwise (· < ·))
    (fits : ∀ d ∈ distances address starts, d < 0x10000000000000000)
    (ends : tail = [] ∨ ∃ rest, tail = 0 :: rest) : ListsStarts c address starts := by
  induction starts generalizing c address with
  | nil =>
    rw [distances, List.flatMap_nil, List.nil_append] at ahead
    rcases ends with rfl | ⟨rest, rfl⟩
    · exact .ended ahead.atEnd
    · have zero : Leb.encodeUnsigned 0 = [0] := by
        rw [Leb.encodeUnsigned, if_pos (by decide)]
        rfl
      have closing : c.Faces (Leb.encodeUnsigned 0 ++ rest) := by rwa [zero]
      exact .closed ahead.atEnd (closing.unsigned (by decide))
  | cons a starts ih =>
    obtain ⟨first, later⟩ := List.pairwise_cons.1 ascends
    have forward := first a List.mem_cons_self
    rw [distances] at ahead fits
    obtain ⟨small, fits⟩ := List.forall_mem_cons.1 fits
    rw [List.flatMap_cons, List.append_assoc] at ahead
    have behind : address + (a - address) = a := by omega
    have rest : ListsStarts (c.forward (Leb.encodeUnsigned (a - address)).length)
        (address + (a - address)) starts := by
      rw [behind]
      exact ih ahead.forward later fits
    have whole := ListsStarts.start (ahead.going (Leb.encodeUnsigned_ne_nil _))
      (ahead.unsigned small) (by omega) rest
    rwa [behind] at whole

end

theorem dropRepeats_of_ascending {starts : List Nat} (ascends : starts.Pairwise (· < ·)) :
    dropRepeats starts = starts := by
  induction starts with
  | nil => rfl
  | cons a starts ih =>
    obtain ⟨first, later⟩ := List.pairwise_cons.1 ascends
    cases starts with
    | nil => rfl
    | cons b rest =>
      have apart := first b List.mem_cons_self
      rw [dropRepeats, if_neg (by omega), ih later]

namespace Image
variable {i : Image} {c : Placed LinkeditData} {starts : List Nat}

theorem functionStarts_of_inside {r : Region} (found : i.functionStarts? = some c)
    (cut : i.region.slice c.value.dataOffset c.value.dataSize = .ok r) :
    i.functionStarts = startsFrom { region := r } i.virtualBase := by
  simp only [functionStarts, found, cut]

theorem slice_of_functionStarts (found : i.functionStarts? = some c)
    (run : i.functionStarts = .ok starts) :
    ∃ r, i.region.slice c.value.dataOffset c.value.dataSize = .ok r := by
  cases cut : i.region.slice c.value.dataOffset c.value.dataSize with
  | error e =>
    simp only [functionStarts, found, cut] at run
    cases run
  | ok r => exact ⟨r, rfl⟩

theorem functions_of_ascending (found : i.functionStarts? = some c)
    (run : i.functionStarts = .ok starts) (ascends : starts.Pairwise (· < ·)) :
    i.functions = .ok starts := by
  have sorted : starts.Pairwise fun a b => decide (a ≤ b) = true :=
    ascends.imp fun before => decide_eq_true (Nat.le_of_lt before)
  rw [functions, found, run]
  simp only [Option.isNone_some, Bool.false_eq_true, if_false, Except.map,
    List.mergeSort_of_pairwise sorted, dropRepeats_of_ascending ascends]

/-- Distances that fit 64 bits, written into the range of the command, are read back as the
addresses that they were taken of. Behind them the range ends, or a zero byte ends them. Whatever
else the range holds, the starts that are read ascend from the virtual base, and there are no more
of them than bytes. All of them are functions of the image. -/
theorem functionStarts_of_distances (found : i.functionStarts? = some c) :
    (∀ (starts : List Nat) (tail : List UInt8), (i.virtualBase :: starts).Pairwise (· < ·) →
      (∀ d ∈ distances i.virtualBase starts, d < 0x10000000000000000) →
      (tail = [] ∨ ∃ rest, tail = 0 :: rest) →
      c.value.dataOffset + c.value.dataSize ≤ i.region.size →
      (i.region.bytes.toList.drop c.value.dataOffset).take c.value.dataSize =
        (distances i.virtualBase starts).flatMap Leb.encodeUnsigned ++ tail →
      i.functionStarts = .ok starts ∧ i.functions = .ok starts) ∧
    (∀ starts, i.functionStarts = .ok starts → (i.virtualBase :: starts).Pairwise (· < ·) ∧
      starts.length ≤ c.value.dataSize ∧ i.functions = .ok starts) := by
  constructor
  · intro starts tail ascends fits ends inside bytes
    have cut := slice_of_le inside
    rw [← toList_extract] at bytes
    have ahead : Cursor.Faces { region := ⟨i.region.bytes.extract c.value.dataOffset
        (c.value.dataOffset + c.value.dataSize), i.region.base + c.value.dataOffset⟩ } _ :=
      ⟨Int.le_refl 0, bytes⟩
    have lists := listsStarts_written ahead ascends fits ends
    have run := (functionStarts_of_inside found cut).trans lists.read
    exact ⟨run, functions_of_ascending found run ascends.of_cons⟩
  · intro starts run
    obtain ⟨r, cut⟩ := slice_of_functionStarts found run
    have lists := listsStarts_of_read ((functionStarts_of_inside found cut).symm.trans run)
    have few := lists.length_le
    have length := Region.size_of_slice cut
    refine ⟨lists.ascends, ?_, functions_of_ascending found run lists.ascends.of_cons⟩
    rw [Cursor.left] at few
    dsimp only at few
    omega

def ofStarts (bytes : Array UInt8) : Image :=
  { region := { bytes }, fileOffset := 0, header := ⟨Record.decode #[], 0⟩,
    commands := [.linkedit ⟨⟨0x26, 16, 1, 6⟩, 32⟩], symbols := [] }

theorem functionStarts_of_distances_two :
    (ofStarts #[7, 0x80, 0x20, 0x80, 0x01, 0, 0xFF]).functionStarts =
      .ok [0x100001000, 0x100001080] ∧
    (ofStarts #[7, 0x90, 0x80, 0x00, 0x10, 0x80, 0x00]).functionStarts =
      .ok [0x100000010, 0x100000020] ∧
    (ofStarts #[7, 0x90, 0x80, 0x00, 0x10, 0x80, 0x00]).functions =
      .ok [0x100000010, 0x100000020] := by
  have command (bytes : Array UInt8) :
      (ofStarts bytes).functionStarts? = some ⟨⟨0x26, 16, 1, 6⟩, 32⟩ := by
    rw [functionStarts?, linkedit_eq, Index.getElem?_ofListFirst]
    rfl
  obtain ⟨write, -⟩ :=
    functionStarts_of_distances (command #[7, 0x80, 0x20, 0x80, 0x01, 0, 0xFF])
  obtain ⟨-, read⟩ :=
    functionStarts_of_distances (command #[7, 0x90, 0x80, 0x00, 0x10, 0x80, 0x00])
  have written := write [0x100001000, 0x100001080] [0, 0xFF] (by decide) (by decide)
    (.inr ⟨_, rfl⟩) (by decide) (by decide +kernel)
  have run : (ofStarts #[7, 0x90, 0x80, 0x00, 0x10, 0x80, 0x00]).functionStarts =
      .ok [0x100000010, 0x100000020] := of_toOption_some (by decide +kernel)
  exact ⟨written.1, run, (read _ run).2.2⟩

end Image
end MachImage
