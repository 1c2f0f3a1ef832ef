import MachImage.Proofs.Leb.Runs
/-!
What becomes of signed numbers that are wider than 64 bits. A run of ten bytes has seventy bits, and
reading keeps the low 64 of them, so a number is exact if its tenth byte only repeats the sign. A
number of seventy bits or fewer is read back in the 64 bits of two's complement, and a wider one is
refused.
-/
namespace MachImage.Leb

/-- A tenth byte is the sign and nothing else: none of its seven bits is set, or all of them. -/
def KeepsSign (run : List UInt8) : Prop :=
  ∀ last, run.length = 10 → run.getLast? = some last → payload last = 0 ∨ payload last = 127

section
variable {run : List UInt8}

theorem signedTotal_last (h : IsRun run) : ∃ last low k, run.getLast? = some last ∧
    run.length = k + 1 ∧ low < weight k ∧ signedTotal run = low + signedTotal [last] * weight k := by
  induction run with
  | nil => exact absurd h not_isRun_nil
  | cons b run ih =>
    rw [isRun_cons] at h
    split at h
    · obtain ⟨last, low, k, ends, length, below, value⟩ := ih h
      have digit := payload_lt b
      refine ⟨last, payload b + 128 * low, k + 1, ?_, ?_, ?_, ?_⟩
      · rw [List.getLast?_cons, ends, Option.getD_some]
      · rw [List.length_cons, length]
      · rw [weight]
        omega
      · rw [signedTotal_cons h, value, weight]
        grind
    · subst h
      refine ⟨b, 0, 0, rfl, rfl, by decide, ?_⟩
      rw [weight]
      omega

theorem signedTotal_digit (b : UInt8) :
    -64 ≤ signedTotal [b] ∧ signedTotal [b] < 64 ∧
      (signedTotal [b] = 0 ∨ signedTotal [b] = -1 ↔ payload b = 0 ∨ payload b = 127) := by
  have digit := payload_lt b
  rw [signedTotal_singleton]
  split <;> omega

theorem weight_le_nine {k : Nat} (few : k ≤ 9) : weight k ≤ 0x8000000000000000 := by
  rw [← weight_nine, weight_eq_pow, weight_eq_pow]
  exact Nat.pow_le_pow_right (by decide) few

theorem signedTotal_of_short (h : IsRun run) (few : run.length < 10) :
    -0x8000000000000000 ≤ signedTotal run ∧ signedTotal run < 0x8000000000000000 := by
  obtain ⟨last, low, k, -, length, below, value⟩ := signedTotal_last h
  obtain ⟨least, most, -⟩ := signedTotal_digit last
  have inside : 128 * weight k ≤ 0x8000000000000000 := @weight_le_nine (k + 1) (by omega)
  have lower : -64 * (weight k : Int) ≤ signedTotal [last] * weight k :=
    Int.mul_le_mul_of_nonneg_right least (Int.natCast_nonneg _)
  have upper : signedTotal [last] * (weight k : Int) ≤ 63 * weight k :=
    Int.mul_le_mul_of_nonneg_right (by omega) (Int.natCast_nonneg _)
  omega

theorem keepsSign_of_ten (h : IsRun run) (ten : run.length = 10) :
    KeepsSign run ↔ -0x8000000000000000 ≤ signedTotal run ∧
      signedTotal run < 0x8000000000000000 := by
  obtain ⟨last, low, k, ends, length, below, value⟩ := signedTotal_last h
  obtain ⟨-, -, sign⟩ := signedTotal_digit last
  obtain rfl : k = 9 := by omega
  have kept : KeepsSign run ↔ payload last = 0 ∨ payload last = 127 := by
    constructor
    · intro keeps
      exact keeps last ten ends
    · intro same other _ found
      rw [ends, Option.some.injEq] at found
      rwa [← found]
  rw [weight_nine] at below value
  rw [kept, ← sign, value]
  omega

/-- A run of at most ten bytes is a number of 64 bits exactly if its sign is kept. -/
theorem keepsSign_iff (h : IsRun run) (short : run.length ≤ 10) :
    KeepsSign run ↔ -0x8000000000000000 ≤ signedTotal run ∧
      signedTotal run < 0x8000000000000000 := by
  by_cases ten : run.length = 10
  · exact keepsSign_of_ten h ten
  · exact ⟨fun _ => signedTotal_of_short h (by omega), fun _ _ whole => absurd whole ten⟩

theorem signedValue_eq (h : IsRun run) (short : run.length ≤ 10) :
    signedValue 0 0 run = (signedTotal run).bmod 0x10000000000000000 := by
  rw [signedValue, Nat.zero_add]
  split
  · next few =>
    have fits := signedTotal_of_short h few
    rw [Int.bmod_eq_of_le_mul_two (by omega) (by omega), weight]
    omega
  · have ten : run.length = 10 := by omega
    rw [weight, twosComplement, Int.bmod_def, signedTotal, ten]
    split <;> split <;> split <;> omega

theorem bmod_eq_iff (n : Int) : n.bmod 0x10000000000000000 = n ↔
    -0x8000000000000000 ≤ n ∧ n < 0x8000000000000000 := by
  rw [Int.bmod_def]
  split <;> omega

end

theorem encodeSigned_run (n : Int) :
    IsRun (encodeSigned n) ∧ signedTotal (encodeSigned n) = n := by
  induction n using encodeSigned.induct with
  | case1 n small =>
    obtain ⟨value, ends⟩ := @last_byte (n % 128).toNat (by omega)
    rw [encodeSigned, if_pos small, signedTotal_singleton, value]
    refine ⟨isRun_singleton ends, ?_⟩
    split <;> omega
  | case2 n big ih =>
    obtain ⟨value, goes⟩ := @inner_byte (n % 128).toNat (by omega)
    rw [encodeSigned, if_neg big, isRun_cons, if_pos goes, signedTotal_cons ih.1, value, ih.2]
    exact ⟨ih.1, by omega⟩

theorem length_encodeSigned_le_iff {n : Int} {k : Nat} :
    (encodeSigned n).length ≤ k + 1 ↔ -64 * weight k ≤ n ∧ n < 64 * weight k := by
  induction n using encodeSigned.induct generalizing k with
  | case1 n small =>
    have positive : 0 < weight k := by
      rw [weight_eq_pow]
      exact Nat.pow_pos (by decide)
    rw [encodeSigned, if_pos small, List.length_singleton]
    omega
  | case2 n big ih =>
    rw [encodeSigned, if_neg big, List.length_cons]
    cases k with
    | zero =>
      have some := (encodeSigned_run (n / 128)).1.length_pos
      rw [weight]
      omega
    | succ k =>
      rw [Nat.add_le_add_iff_right, ih, weight]
      omega

section
variable {r : Region} {offset next : Int} {run : List UInt8}

theorem readSigned_fault {e : Fault} (failed : readSigned r offset = .error e) :
    e = .signedLeb offset := by
  unfold readSigned at failed
  split at failed
  · cases failed
  · exact (Except.error.inj failed).symm

theorem readSigned_run (spans : Spans r offset next run) (h : IsRun run) :
    readSigned r offset =
      if run.length ≤ 10 then .ok ((signedTotal run).bmod 0x10000000000000000, next)
      else .error (.signedLeb offset) := by
  split
  · next short =>
    exact readSigned_eq_ok_iff.2 ⟨run, spans, h, short, (signedValue_eq h short).symm⟩
  · next long =>
    cases read : readSigned r offset with
    | error e => rw [readSigned_fault read]
    | ok answer =>
      obtain ⟨other, stands, k, short, -⟩ := readSigned_eq_ok_iff.1 read
      rw [k.unique h stands.bytes spans.bytes] at short
      exact absurd short long

theorem Spans.unique {other : List UInt8} (spans : Spans r offset next run)
    (stands : Spans r offset next other) : run = other := by
  have length : run.length = other.length := by
    have first := spans.behind
    have second := stands.behind
    omega
  exact (List.prefix_of_prefix_length_le spans.bytes stands.bytes (by omega)).eq_of_length length

end

/-- A signed number is read exactly where a run of ten bytes at most stands, as what 64 bits keep of
its total, and whatever else stands there is refused with its offset. It is the total itself exactly
if the tenth byte only repeats the sign, which is to say that the total has 64 bits. A written number
is read back in 64 bits if it has no more than seventy, and is refused if it has. -/
theorem signed_of_run (r : Region) (offset : Int) :
    (∀ n next, readSigned r offset = .ok (n, next) ↔
      ∃ run, Spans r offset next run ∧ IsRun run ∧ run.length ≤ 10 ∧
        n = (signedTotal run).bmod 0x10000000000000000) ∧
    (∀ e, readSigned r offset = .error e → e = .signedLeb offset) ∧
    (∀ n next run, readSigned r offset = .ok (n, next) → Spans r offset next run →
      (n = signedTotal run ↔ KeepsSign run) ∧
      (KeepsSign run ↔
        -0x8000000000000000 ≤ signedTotal run ∧ signedTotal run < 0x8000000000000000)) ∧
    (∀ n next, Spans r offset next (encodeSigned n) → readSigned r offset =
      if -0x200000000000000000 ≤ n ∧ n < 0x200000000000000000 then
        .ok (n.bmod 0x10000000000000000, next)
      else .error (.signedLeb offset)) := by
  have accepted (n next : Int) : readSigned r offset = .ok (n, next) ↔
      ∃ run, Spans r offset next run ∧ IsRun run ∧ run.length ≤ 10 ∧
        n = (signedTotal run).bmod 0x10000000000000000 := by
    rw [readSigned_eq_ok_iff]
    constructor
    · rintro ⟨run, spans, h, short, value⟩
      exact ⟨run, spans, h, short, value.trans (signedValue_eq h short)⟩
    · rintro ⟨run, spans, h, short, value⟩
      exact ⟨run, spans, h, short, value.trans (signedValue_eq h short).symm⟩
  refine ⟨accepted, fun _ => readSigned_fault, ?_, ?_⟩
  · intro n next run read spans
    obtain ⟨other, stands, h, short, value⟩ := (accepted n next).1 read
    rw [← spans.unique stands] at h short value
    have range := keepsSign_iff h short
    rw [value, bmod_eq_iff]
    exact ⟨range.symm, range⟩
  · intro n next spans
    obtain ⟨h, value⟩ := encodeSigned_run n
    have range := @length_encodeSigned_le_iff n 9
    have widest : ((weight 9 : Nat) : Int) = 0x8000000000000000 := rfl
    rw [widest] at range
    rw [readSigned_run spans h, value]
    simp only [range]
    rfl

theorem signed_of_run_least :
    readSigned ⟨#[0x80, 0x80, 0x80, 0x80, 0x80, 0x80, 0x80, 0x80, 0x80, 0x7f], 0⟩ 0 =
      .ok (-0x8000000000000000, 10) ∧
    KeepsSign [0x80, 0x80, 0x80, 0x80, 0x80, 0x80, 0x80, 0x80, 0x80, 0x7f] ∧
    readSigned ⟨([0x05] ++ encodeSigned 0x200000000000000000 ++ []).toArray, 0⟩ 1 =
      .error (.signedLeb 1) := by
  obtain ⟨-, -, kept, -⟩ :=
    signed_of_run ⟨#[0x80, 0x80, 0x80, 0x80, 0x80, 0x80, 0x80, 0x80, 0x80, 0x7f], 0⟩ 0
  have read : readSigned ⟨#[0x80, 0x80, 0x80, 0x80, 0x80, 0x80, 0x80, 0x80, 0x80, 0x7f], 0⟩ 0 =
      .ok (-0x8000000000000000, 10) := rfl
  have spans : Spans ⟨#[0x80, 0x80, 0x80, 0x80, 0x80, 0x80, 0x80, 0x80, 0x80, 0x7f], 0⟩ 0 10
      [0x80, 0x80, 0x80, 0x80, 0x80, 0x80, 0x80, 0x80, 0x80, 0x7f] :=
    ⟨by decide, by decide, by decide⟩
  obtain ⟨-, -, -, written⟩ :=
    signed_of_run ⟨([0x05] ++ encodeSigned 0x200000000000000000 ++ []).toArray, 0⟩ 1
  have wide := written _ _ (spans_between [0x05] (encodeSigned 0x200000000000000000) [] 0)
  rw [if_neg (by decide)] at wide
  exact ⟨read, (kept _ _ _ read spans).1.1 (by decide), wide⟩

/-- A number of 66 bits is written in ten bytes, and read back as zero. -/
theorem tenth_byte_dropped :
    encodeSigned 0x10000000000000000 =
      [0x80, 0x80, 0x80, 0x80, 0x80, 0x80, 0x80, 0x80, 0x80, 0x02] ∧
    signedTotal [0x80, 0x80, 0x80, 0x80, 0x80, 0x80, 0x80, 0x80, 0x80, 0x02] =
      0x10000000000000000 ∧
    readSigned ⟨#[0x80, 0x80, 0x80, 0x80, 0x80, 0x80, 0x80, 0x80, 0x80, 0x02], 0⟩ 0 =
      .ok (0, 10) := by
  refine ⟨?_, by decide, rfl⟩
  simp [encodeSigned]

end MachImage.Leb
