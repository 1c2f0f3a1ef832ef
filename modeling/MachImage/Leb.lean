import MachImage.Region
/-!
Little-endian base 128. A number is a run of bytes with seven bits each, the least first, and
every byte but the last has its high bit set. `encodeUnsigned` and `encodeSigned` write the
shortest run of a number of any size. Reading takes at most ten bytes. An unsigned number must fit
64 bits; a signed one extends bit 6 of its last byte, and a run of ten bytes keeps its low 64 bits
as two's complement.
-/
namespace MachImage.Leb

def payload (b : UInt8) : Nat := b.toNat % 128

def continues (b : UInt8) : Bool := 128 ≤ b.toNat

def encodeUnsigned (n : Nat) : List UInt8 :=
  if n < 128 then [UInt8.ofNat n]
  else UInt8.ofNat (n % 128 + 128) :: encodeUnsigned (n / 128)
termination_by n

/-- A last byte shows the sign in its bit 6, so it holds -64 to 63. -/
def encodeSigned (n : Int) : List UInt8 :=
  if -64 ≤ n ∧ n < 64 then [UInt8.ofNat (n % 128).toNat]
  else UInt8.ofNat ((n % 128).toNat + 128) :: encodeSigned (n / 128)
termination_by n.natAbs

def encodeUnsigned? (n : Int) : Except Fault (List UInt8) :=
  if n < 0 then .error (.misuse (.negativeUnsigned n)) else .ok (encodeUnsigned n.toNat)

def unsigned (shift : Nat) : List UInt8 → Option (Nat × Nat)
  | [] => none
  | b :: bs =>
    let part := payload b <<< shift
    if 64 ≤ shift ∨ 0x10000000000000000 ≤ part then none
    else if continues b then
      (unsigned (shift + 7) bs).map fun (n, used) => (part + n, used + 1)
    else some (part, 1)

def extend (shift total : Nat) (last : UInt8) : Int :=
  if shift < 64 then
    if 64 ≤ payload last then (total : Int) - (1 <<< shift : Nat) else total
  else twosComplement 64 (total % 0x10000000000000000)

def signed (shift total : Nat) : List UInt8 → Option (Int × Nat)
  | [] => none
  | b :: bs =>
    let total := total + payload b <<< shift
    if 64 ≤ shift then none
    else if continues b then
      (signed (shift + 7) total bs).map fun (n, used) => (n, used + 1)
    else some (extend (shift + 7) total b, 1)

def window (r : Region) (offset : Int) : List UInt8 :=
  if r.contains offset 1 then (r.bytes.extract offset.toNat (offset.toNat + 10)).toList else []

def readUnsigned (r : Region) (offset : Int) : Except Fault (Nat × Int) :=
  match unsigned 0 (window r offset) with
  | some (n, used) => .ok (n, offset + used)
  | none => .error (.unsignedLeb offset)

def readSigned (r : Region) (offset : Int) : Except Fault (Int × Int) :=
  match signed 0 0 (window r offset) with
  | some (n, used) => .ok (n, offset + used)
  | none => .error (.signedLeb offset)

theorem unsigned_used {shift n used : Nat} {bs : List UInt8}
    (h : unsigned shift bs = some (n, used)) : 0 < used ∧ used ≤ bs.length := by
  induction bs generalizing shift n used with
  | nil => simp [unsigned] at h
  | cons b bs ih =>
    simp only [unsigned] at h
    split at h
    · simp at h
    · split at h
      · obtain ⟨⟨m, u⟩, hm, he⟩ := Option.map_eq_some_iff.1 h
        simp only [Prod.mk.injEq] at he
        have := ih hm
        simp only [List.length_cons]
        omega
      · simp only [Option.some.injEq, Prod.mk.injEq] at h
        simp only [List.length_cons]
        omega

theorem signed_used {shift total used : Nat} {n : Int} {bs : List UInt8}
    (h : signed shift total bs = some (n, used)) : 0 < used ∧ used ≤ bs.length := by
  induction bs generalizing shift total n used with
  | nil => simp [signed] at h
  | cons b bs ih =>
    simp only [signed] at h
    split at h
    · simp at h
    · split at h
      · obtain ⟨⟨m, u⟩, hm, he⟩ := Option.map_eq_some_iff.1 h
        simp only [Prod.mk.injEq] at he
        have := ih hm
        simp only [List.length_cons]
        omega
      · simp only [Option.some.injEq, Prod.mk.injEq] at h
        simp only [List.length_cons]
        omega

theorem window_length_pos {r : Region} {offset : Int} (h : 0 < (window r offset).length) :
    0 ≤ offset ∧ offset + (window r offset).length ≤ r.size := by
  unfold window at *
  split at h
  next inside =>
    rw [if_pos inside]
    rw [Region.contains_iff] at inside
    simp only [Array.length_toList, Array.size_extract, Region.size] at *
    omega
  next => simp at h

theorem readUnsigned_moves {r : Region} {offset next : Int} {n : Nat}
    (h : readUnsigned r offset = .ok (n, next)) :
    0 ≤ offset ∧ offset < next ∧ next ≤ r.size := by
  unfold readUnsigned at h
  split at h
  next m used hm =>
    have hu := unsigned_used hm
    have hw := @window_length_pos r offset (by omega)
    simp only [Except.ok.injEq, Prod.mk.injEq] at h
    omega
  next => simp at h

theorem readSigned_moves {r : Region} {offset next n : Int}
    (h : readSigned r offset = .ok (n, next)) :
    0 ≤ offset ∧ offset < next ∧ next ≤ r.size := by
  unfold readSigned at h
  split at h
  next m used hm =>
    have hu := signed_used hm
    have hw := @window_length_pos r offset (by omega)
    simp only [Except.ok.injEq, Prod.mk.injEq] at h
    omega
  next => simp at h

end MachImage.Leb
