import MachImage.Leb
/-!
Numbers that were written in base 128 are read back, whatever bytes follow them: the unsigned ones
below 2^64 and the signed ones of 64 bits. Reading looks at ten bytes, and none of these numbers
takes more.
-/
namespace MachImage.Leb

theorem last_byte {n : Nat} (small : n < 128) :
    payload (UInt8.ofNat n) = n ∧ continues (UInt8.ofNat n) = false := by
  simp only [payload, continues, UInt8.toNat_ofNat_of_lt' (by omega : n < 256),
    decide_eq_false_iff_not]
  omega

theorem inner_byte {n : Nat} (small : n < 128) :
    payload (UInt8.ofNat (n + 128)) = n ∧ continues (UInt8.ofNat (n + 128)) = true := by
  simp only [payload, continues, UInt8.toNat_ofNat_of_lt' (by omega : n + 128 < 256),
    decide_eq_true_eq]
  omega

theorem encodeUnsigned_ne_nil (n : Nat) : encodeUnsigned n ≠ [] := by
  rw [encodeUnsigned]
  split
  · exact List.cons_ne_nil _ _
  · exact List.cons_ne_nil _ _

theorem unsigned_used_le {shift n used : Nat} {bs : List UInt8}
    (h : unsigned shift bs = some (n, used)) : shift + 7 * used ≤ 70 := by
  induction bs generalizing shift n used with
  | nil => simp [unsigned] at h
  | cons b bs ih =>
    simp only [unsigned] at h
    split at h
    · simp at h
    · split at h
      · obtain ⟨⟨m, u⟩, later, same⟩ := Option.map_eq_some_iff.1 h
        simp only [Prod.mk.injEq] at same
        have := ih later
        omega
      · simp only [Option.some.injEq, Prod.mk.injEq] at h
        omega

theorem signed_used_le {shift total used : Nat} {n : Int} {bs : List UInt8}
    (h : signed shift total bs = some (n, used)) : shift + 7 * used ≤ 70 := by
  induction bs generalizing shift total n used with
  | nil => simp [signed] at h
  | cons b bs ih =>
    simp only [signed] at h
    split at h
    · simp at h
    · split at h
      · obtain ⟨⟨m, u⟩, later, same⟩ := Option.map_eq_some_iff.1 h
        simp only [Prod.mk.injEq] at same
        have := ih later
        omega
      · simp only [Option.some.injEq, Prod.mk.injEq] at h
        omega

def weight : Nat → Nat
  | 0 => 1
  | k + 1 => 128 * weight k

theorem shiftLeft_eq (n k : Nat) : n <<< (7 * k) = n * weight k := by
  induction k with
  | zero => exact (Nat.mul_one n).symm
  | succ k ih =>
    rw [Nat.mul_succ, Nat.shiftLeft_add, ih, weight, Nat.shiftLeft_eq]
    grind

theorem weight_ten {k : Nat} (h : 10 ≤ k) : 0x10000000000000000 ≤ weight k := by
  induction h with
  | refl => decide
  | step _ ih => exact Nat.le_trans ih (Nat.le_mul_of_pos_left _ (by decide))

theorem mul_weight (n k : Nat) :
    n * weight k = n % 128 * weight k + n / 128 * weight (k + 1) := by
  calc n * weight k = (n % 128 + 128 * (n / 128)) * weight k := by rw [Nat.mod_add_div]
    _ = n % 128 * weight k + n / 128 * (128 * weight k) := by grind

theorem unsigned_encode (n k : Nat) (rest : List UInt8) (start : k ≤ 9)
    (fits : n * weight k < 0x10000000000000000) :
    unsigned (7 * k) (encodeUnsigned n ++ rest) =
      some (n * weight k, (encodeUnsigned n).length) := by
  induction n using encodeUnsigned.induct generalizing k with
  | case1 n small =>
    obtain ⟨value, ends⟩ := last_byte small
    rw [encodeUnsigned, if_pos small]
    simp only [List.cons_append, List.nil_append, unsigned, shiftLeft_eq, value, ends,
      List.length_singleton]
    rw [if_neg (by omega)]
    rfl
  | case2 n big ih =>
    obtain ⟨value, goes⟩ := inner_byte (Nat.mod_lt n (by decide : 0 < 128))
    rw [mul_weight] at fits
    have later : n / 128 * weight (k + 1) < 0x10000000000000000 := by omega
    have next : k + 1 ≤ 9 := by
      have least : weight (k + 1) ≤ n / 128 * weight (k + 1) :=
        Nat.le_mul_of_pos_left _ (by omega)
      have bound := @weight_ten (k + 1)
      omega
    rw [encodeUnsigned, if_neg big]
    simp only [List.cons_append, unsigned, shiftLeft_eq, value, goes, List.length_cons, if_true]
    rw [if_neg (by omega), ← Nat.mul_succ, ih (k + 1) next later, mul_weight n k]
    rfl

theorem emod_weight (n : Int) (k : Nat) :
    n * weight k = (n % 128).toNat * weight k + (n / 128 : Int) * weight (k + 1) := by
  have low : ((n % 128).toNat : Int) = n % 128 :=
    Int.toNat_of_nonneg (Int.emod_nonneg n (by decide))
  rw [low, weight, Int.natCast_mul]
  calc n * weight k = (n % 128 + 128 * (n / 128)) * weight k := by rw [Int.emod_add_mul_ediv]
    _ = n % 128 * weight k + n / 128 * ((128 : Nat) * weight k) := by grind

theorem run_lt {n : Int} {k total : Nat} (lower : total < weight k) :
    total + (n % 128).toNat * weight k < weight (k + 1) := by
  have low : (n % 128).toNat + 1 ≤ 128 := by omega
  calc total + (n % 128).toNat * weight k < ((n % 128).toNat + 1) * weight k := by
        rw [Nat.add_mul, Nat.one_mul, Nat.add_comm]
        exact Nat.add_lt_add_left lower _
    _ ≤ 128 * weight k := Nat.mul_le_mul_right _ low

theorem extend_short {n : Int} {k total : Nat} {last : UInt8} (short : k < 9)
    (small : -64 ≤ n ∧ n < 64) (value : payload last = (n % 128).toNat) :
    extend (7 * (k + 1)) (total + (n % 128).toNat * weight k) last = total + n * weight k := by
  rw [extend, if_pos (by omega), value, emod_weight, shiftLeft_eq, Int.natCast_add,
    Int.natCast_mul]
  by_cases negative : n < 0
  · have borrow : n / 128 = -1 := by omega
    rw [if_pos (by omega), borrow]
    omega
  · have whole : n / 128 = 0 := by omega
    rw [if_neg (by omega), whole]
    omega

theorem weight_nine : weight 9 = 0x8000000000000000 := rfl

theorem tenth_sign {n : Int} {total : Nat} (lower : total < weight 9)
    (least : -0x8000000000000000 ≤ total + n * weight 9)
    (most : total + n * weight 9 < 0x8000000000000000) : n = 0 ∨ n = -1 := by
  rw [weight_nine] at lower least most
  omega

/-- The tenth byte has one bit left for the sign, so it is all zeros or all ones. -/
theorem extend_long {n : Int} {total : Nat} (last : UInt8) (lower : total < weight 9)
    (sign : n = 0 ∨ n = -1) :
    extend (7 * (9 + 1)) (total + (n % 128).toNat * weight 9) last = total + n * weight 9 := by
  rw [extend, if_neg (by decide), twosComplement]
  rw [weight_nine] at lower ⊢
  rcases sign with rfl | rfl
  · rw [if_pos (by omega)]
    omega
  · rw [if_neg (by omega)]
    omega

theorem signed_encode (n : Int) (k total : Nat) (rest : List UInt8) (start : k ≤ 9)
    (lower : total < weight k) (least : -0x8000000000000000 ≤ total + n * weight k)
    (most : total + n * weight k < 0x8000000000000000) :
    signed (7 * k) total (encodeSigned n ++ rest) =
      some (total + n * weight k, (encodeSigned n).length) := by
  induction n using encodeSigned.induct generalizing k total with
  | case1 n small =>
    obtain ⟨value, ends⟩ := @last_byte (n % 128).toNat (by omega)
    rw [encodeSigned, if_pos small]
    simp only [List.cons_append, List.nil_append, signed, shiftLeft_eq, value, ends,
      List.length_singleton]
    rw [if_neg (by omega), if_neg Bool.false_ne_true, ← Nat.mul_succ]
    by_cases short : k < 9
    · rw [extend_short short small value]
    · obtain rfl : k = 9 := by omega
      rw [extend_long _ lower (tenth_sign lower least most)]
  | case2 n big ih =>
    obtain ⟨value, goes⟩ := @inner_byte (n % 128).toNat (by omega)
    have next : k + 1 ≤ 9 := by
      have notLast : k ≠ 9 := by
        rintro rfl
        have sign := tenth_sign lower least most
        omega
      omega
    have grown : (total : Int) + n * weight k =
        (total + (n % 128).toNat * weight k : Nat) + (n / 128 : Int) * weight (k + 1) := by
      rw [emod_weight, Int.natCast_add, Int.natCast_mul, Int.add_assoc]
    rw [grown] at least most
    have later := ih (k + 1) _ next (run_lt lower) least most
    rw [encodeSigned, if_neg big]
    simp only [List.cons_append, signed, shiftLeft_eq, value, goes, List.length_cons, if_true]
    rw [if_neg (by omega), grown, ← Nat.mul_succ, later]
    rfl

section
variable {n : Nat} (fits : n < 0x10000000000000000)
include fits

theorem unsigned_written (rest : List UInt8) :
    unsigned 0 (encodeUnsigned n ++ rest) = some (n, (encodeUnsigned n).length) := by
  have written := unsigned_encode n 0 rest (by decide) (by rwa [weight, Nat.mul_one])
  rwa [weight, Nat.mul_one] at written

theorem length_encodeUnsigned :
    0 < (encodeUnsigned n).length ∧ (encodeUnsigned n).length ≤ 10 := by
  have read := unsigned_written fits []
  have some := unsigned_used read
  have short := unsigned_used_le read
  omega

end

section
variable {n : Int} (fits : -0x8000000000000000 ≤ n ∧ n < 0x8000000000000000)
include fits

theorem signed_written (rest : List UInt8) :
    signed 0 0 (encodeSigned n ++ rest) = some (n, (encodeSigned n).length) := by
  have whole : ((0 : Nat) : Int) + n * (weight 0 : Nat) = n := by
    rw [weight]
    omega
  have written := signed_encode n 0 0 rest (by decide) (by decide) (by omega) (by omega)
  rwa [whole] at written

theorem length_encodeSigned : 0 < (encodeSigned n).length ∧ (encodeSigned n).length ≤ 10 := by
  have read := signed_written fits []
  have some := signed_used read
  have short := signed_used_le read
  omega

end

end MachImage.Leb
