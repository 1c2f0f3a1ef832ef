import MachImage.Cursor
import MachImage.Proofs.Leb.Encoding
import MachImage.Proofs.Region.Strings
/-!
What a cursor reads depends on the bytes ahead of it. If they begin with the written form of a byte,
a number or a string, the read gives it back and the cursor is left in front of the bytes behind.
-/
namespace MachImage
namespace Cursor

/-- The bytes from the cursor to the end of its region are `bs`. -/
structure Faces (c : Cursor) (bs : List UInt8) : Prop where
  inside : 0 ≤ c.offset
  bytes : c.region.bytes.toList.drop c.offset.toNat = bs

def forward (c : Cursor) (n : Nat) : Cursor := { c with offset := c.offset + n }

section
variable {c : Cursor} {b : UInt8} {xs bs : List UInt8}

theorem faces_start (bs : List UInt8) (base : Int) :
    Faces { region := { bytes := bs.toArray, base } } bs :=
  ⟨Int.le_refl 0, rfl⟩

theorem Faces.forward (h : c.Faces (xs ++ bs)) : (c.forward xs.length).Faces bs := by
  refine ⟨by have := h.inside; simp only [Cursor.forward]; omega, ?_⟩
  have place : (c.offset + xs.length).toNat = c.offset.toNat + xs.length := by
    have := h.inside
    omega
  simp only [Cursor.forward]
  rw [place, ← List.drop_drop, h.bytes, List.drop_left]

theorem Faces.next (h : c.Faces (b :: bs)) : (c.forward 1).Faces bs := @Faces.forward c [b] bs h

theorem Faces.length (h : c.Faces bs) : bs.length = c.region.size - c.offset.toNat := by
  rw [← h.bytes, List.length_drop, Array.length_toList, Region.size]

theorem Faces.atEnd (h : c.Faces bs) : c.atEnd = bs.isEmpty := by
  have length := h.length
  have inside := h.inside
  cases bs with
  | nil =>
    simp only [List.length_nil, Cursor.atEnd, List.isEmpty_nil, decide_eq_true_eq] at *
    omega
  | cons b bs =>
    simp only [List.length_cons, Cursor.atEnd, List.isEmpty_cons, decide_eq_false_iff_not] at *
    omega

theorem Faces.going (h : c.Faces (xs ++ bs)) (some : xs ≠ []) : c.atEnd = false := by
  rw [h.atEnd, List.isEmpty_eq_false_iff]
  exact List.append_ne_nil_of_left_ne_nil some bs

theorem Faces.contains (h : c.Faces (b :: bs)) : c.region.contains c.offset 1 = true := by
  have length := h.length
  have inside := h.inside
  rw [Region.contains_iff]
  rw [List.length_cons] at length
  omega

theorem Faces.extract (h : c.Faces bs) (n : Nat) :
    (c.region.bytes.extract c.offset.toNat (c.offset.toNat + n)).toList = bs.take n := by
  rw [toList_extract, h.bytes]

theorem Faces.byte (h : c.Faces (b :: bs)) : c.byte = .ok (b, c.forward 1) := by
  have first := h.extract 1
  have stop : (c.offset + 1).toNat = c.offset.toNat + 1 := by
    have := h.inside
    omega
  rw [Cursor.byte, peek, Region.byte, Region.read, h.contains, if_pos rfl, stop,
    ← @Array.toArray_toList _ (c.region.bytes.extract _ _), first]
  rfl

theorem Faces.slice (h : c.Faces (xs ++ bs)) (some : xs ≠ []) :
    ∃ part, c.region.slice c.offset xs.length = .ok part ∧ part.bytes.toList = xs := by
  have positive := List.length_pos_iff.2 some
  have length := h.length
  have inside := h.inside
  rw [List.length_append] at length
  have contains : c.region.contains c.offset xs.length = true := by
    rw [Region.contains_iff]
    omega
  have stop : (c.offset + xs.length).toNat = c.offset.toNat + xs.length := by omega
  refine ⟨⟨c.region.bytes.extract c.offset.toNat (c.offset.toNat + xs.length),
    c.region.base + c.offset⟩, ?_, ?_⟩
  · rw [Region.slice, Region.read, contains, if_pos rfl, stop]
    rfl
  · rw [h.extract, List.take_left]

theorem Faces.window (h : c.Faces (xs ++ bs)) (some : 0 < xs.length) (short : xs.length ≤ 10) :
    Leb.window c.region c.offset = xs ++ bs.take (10 - xs.length) := by
  cases xs with
  | nil => cases some
  | cons b xs =>
    rw [Leb.window, h.contains, if_pos rfl, h.extract, List.take_append,
      List.take_of_length_le short]

theorem Faces.unsigned {n : Nat} (h : c.Faces (Leb.encodeUnsigned n ++ bs))
    (fits : n < 0x10000000000000000) :
    c.unsigned = .ok (n, c.forward (Leb.encodeUnsigned n).length) := by
  obtain ⟨some, short⟩ := Leb.length_encodeUnsigned fits
  rw [Cursor.unsigned, Leb.readUnsigned, h.window some short, Leb.unsigned_written fits]
  rfl

theorem Faces.signed {n : Int} (h : c.Faces (Leb.encodeSigned n ++ bs))
    (fits : -0x8000000000000000 ≤ n ∧ n < 0x8000000000000000) :
    c.signed = .ok (n, c.forward (Leb.encodeSigned n).length) := by
  obtain ⟨some, short⟩ := Leb.length_encodeSigned fits
  rw [Cursor.signed, Leb.readSigned, h.window some short, Leb.signed_written fits]
  rfl

theorem Faces.cstringBytes (h : c.Faces (xs ++ 0 :: bs)) (noNul : 0 ∉ xs) :
    c.cstringBytes = .ok (xs, c.forward (xs.length + 1)) := by
  have inside : ¬ (c.offset < 0 ∨ c.region.size ≤ c.offset) := by
    have length := h.length
    have start := h.inside
    rw [List.length_append, List.length_cons] at length
    omega
  have text : c.region.cstringBytes c.offset = .ok xs := by
    rw [Region.cstringBytes_eq, Region.stringFrom, if_neg inside, h.bytes]
    simp only [takeWhile_nul noNul]
    simp
  rw [Cursor.cstringBytes, text]
  simp only [Except.map, Cursor.forward, Int.natCast_add, Int.add_assoc]
  rfl

theorem Faces.cstring (h : c.Faces (xs ++ 0 :: bs)) (noNul : 0 ∉ xs) :
    c.cstring = .ok (Utf8.decode xs, c.forward (xs.length + 1)) := by
  rw [Cursor.cstring, h.cstringBytes noNul]
  rfl

theorem Faces.behindString (h : c.Faces (xs ++ 0 :: bs)) :
    (c.forward (xs.length + 1)).Faces bs := by
  have all : c.Faces ((xs ++ [0]) ++ bs) := by rwa [List.append_assoc]
  have behind := all.forward
  rwa [List.length_append] at behind

end
end Cursor
end MachImage
