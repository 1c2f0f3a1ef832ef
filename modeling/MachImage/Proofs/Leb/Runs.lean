import Mathlib.Data.Nat.Digits.Defs
import MachImage.Proofs.Cursor.Ahead
/-!
Which bytes are a number. A run is bytes of which the last, and no other, ends a number. Its total
weighs each byte 128 times as much as the one before it, and the signed total takes the sign from
bit 6 of the last byte. Reading accepts exactly the runs of ten bytes at most whose total is in
range, and no run is shorter than the written form of its total.
-/
namespace MachImage.Leb

structure IsRun (bs : List UInt8) : Prop where
  inner : ∀ b ∈ bs.dropLast, continues b = true
  last : bs.getLast?.map continues = some false

def total (bs : List UInt8) : Nat := Nat.ofDigits 128 (bs.map payload)

def isNegative (bs : List UInt8) : Bool := bs.getLast?.any (64 ≤ payload ·)

def signedTotal (bs : List UInt8) : Int :=
  if isNegative bs then total bs - (128 ^ bs.length : Nat) else total bs

/-- The region has `run` at `offset`, and `next` is the offset behind it. -/
structure Spans (r : Region) (offset next : Int) (run : List UInt8) : Prop where
  inside : 0 ≤ offset
  bytes : run <+: r.bytes.toList.drop offset.toNat
  behind : next = offset + run.length

section
variable {b : UInt8} {bs run other : List UInt8}

theorem not_isRun_nil : ¬ IsRun [] := fun h => nomatch h.last

theorem IsRun.length_pos (h : IsRun bs) : 0 < bs.length := by
  cases bs with
  | nil => exact absurd h not_isRun_nil
  | cons b bs => exact Nat.succ_pos _

theorem isRun_cons : IsRun (b :: bs) ↔ if continues b then IsRun bs else bs = [] := by
  cases bs with
  | nil =>
    cases goes : continues b with
    | true => exact ⟨fun h => absurd h.last (by simp [goes]), fun h => absurd h not_isRun_nil⟩
    | false => exact ⟨fun _ => rfl, fun _ => ⟨by simp, by simp [goes]⟩⟩
  | cons c cs =>
    have parts : IsRun (b :: c :: cs) ↔ continues b = true ∧ IsRun (c :: cs) := by
      constructor
      · intro h
        obtain ⟨first, inner⟩ := List.forall_mem_cons.1 h.inner
        exact ⟨first, inner, h.last⟩
      · rintro ⟨first, h⟩
        exact ⟨List.forall_mem_cons.2 ⟨first, h.inner⟩, h.last⟩
    rw [parts]
    cases continues b <;> simp

theorem isRun_singleton (ends : continues b = false) : IsRun [b] := by
  simp [isRun_cons, ends]

theorem IsRun.unique (h : IsRun run) (k : IsRun other) (left : run <+: bs) (right : other <+: bs) :
    run = other := by
  induction bs generalizing run other with
  | nil =>
    rw [List.prefix_nil.1 left, List.prefix_nil.1 right]
  | cons b bs ih =>
    rcases List.prefix_cons_iff.1 left with rfl | ⟨run, rfl, inLeft⟩
    · exact absurd h not_isRun_nil
    rcases List.prefix_cons_iff.1 right with rfl | ⟨other, rfl, inRight⟩
    · exact absurd k not_isRun_nil
    rw [isRun_cons] at h k
    split at h
    · next goes =>
      rw [if_pos goes] at k
      rw [ih h k inLeft inRight]
    · next ends =>
      rw [if_neg ends] at k
      rw [h, k]

theorem exists_run_cons {p : List UInt8 → Prop} :
    (∃ run, run <+: b :: bs ∧ IsRun run ∧ p run) ↔
      ∃ run, run <+: bs ∧ IsRun (b :: run) ∧ p (b :: run) := by
  constructor
  · rintro ⟨whole, bytes, h, holds⟩
    rcases List.prefix_cons_iff.1 bytes with rfl | ⟨run, rfl, later⟩
    · exact absurd h not_isRun_nil
    · exact ⟨run, later, h, holds⟩
  · rintro ⟨run, bytes, h, holds⟩
    exact ⟨b :: run, List.cons_prefix_cons.2 ⟨rfl, bytes⟩, h, holds⟩

theorem total_cons (b : UInt8) (bs : List UInt8) : total (b :: bs) = payload b + 128 * total bs :=
  Nat.ofDigits_cons

theorem payload_lt (b : UInt8) : payload b < 128 := Nat.mod_lt _ (by decide)

theorem signedTotal_singleton (b : UInt8) :
    signedTotal [b] = if 64 ≤ payload b then (payload b : Int) - 128 else payload b := by
  simp [signedTotal, isNegative, total]

theorem signedTotal_cons (h : IsRun bs) :
    signedTotal (b :: bs) = payload b + 128 * signedTotal bs := by
  have sign : isNegative (b :: bs) = isNegative bs := by
    cases bs with
    | nil => exact absurd h not_isRun_nil
    | cons c cs => rfl
  have larger : 128 ^ (b :: bs).length = 128 * 128 ^ bs.length := Nat.pow_succ'
  simp only [signedTotal, sign, total_cons, larger]
  split <;> omega

end

theorem ofNat_payload {b : UInt8} :
    UInt8.ofNat (if continues b then payload b + 128 else payload b) = b := by
  have size := b.toNat_lt
  have value : (if continues b then payload b + 128 else payload b) = b.toNat := by
    simp only [continues, payload, decide_eq_true_eq]
    split <;> omega
  rw [value, UInt8.ofNat_toNat]

theorem encodeUnsigned_run (n : Nat) : IsRun (encodeUnsigned n) ∧ total (encodeUnsigned n) = n := by
  induction n using encodeUnsigned.induct with
  | case1 n small =>
    obtain ⟨value, ends⟩ := last_byte small
    rw [encodeUnsigned, if_pos small]
    exact ⟨isRun_singleton ends, by simp [total, value]⟩
  | case2 n big ih =>
    obtain ⟨value, goes⟩ := inner_byte (Nat.mod_lt n (by decide : 0 < 128))
    rw [encodeUnsigned, if_neg big, isRun_cons, if_pos goes, total_cons, value, ih.2]
    exact ⟨ih.1, Nat.mod_add_div n 128⟩

theorem encodeUnsigned_shortest {run : List UInt8} (h : IsRun run) :
    (encodeUnsigned (total run)).length ≤ run.length ∧
    ((encodeUnsigned (total run)).length = run.length → encodeUnsigned (total run) = run) := by
  induction run with
  | nil => exact absurd h not_isRun_nil
  | cons b run ih =>
    have low := payload_lt b
    have byte := @ofNat_payload b
    rw [total_cons]
    rw [isRun_cons] at h
    split at h
    · next goes =>
      rw [if_pos goes] at byte
      obtain ⟨shorter, same⟩ := ih h
      have positive := h.length_pos
      rw [encodeUnsigned]
      split
      · refine ⟨by simp, fun equal => ?_⟩
        simp only [List.length_cons, List.length_nil] at equal
        omega
      · have digit : (payload b + 128 * total run) % 128 = payload b := by omega
        have later : (payload b + 128 * total run) / 128 = total run := by omega
        rw [digit, later, byte, List.length_cons, List.length_cons]
        refine ⟨by omega, fun equal => ?_⟩
        rw [same (by omega)]
    · next ends =>
      rw [if_neg ends] at byte
      subst h
      have single : encodeUnsigned (payload b + 128 * total []) = [b] := by
        rw [total, List.map_nil, Nat.ofDigits_nil, Nat.mul_zero, Nat.add_zero, encodeUnsigned,
          if_pos low, byte]
      rw [single]
      exact ⟨Nat.le_refl _, fun _ => rfl⟩

theorem encodeSigned_shortest {run : List UInt8} (h : IsRun run) :
    (encodeSigned (signedTotal run)).length ≤ run.length := by
  induction run with
  | nil => exact absurd h not_isRun_nil
  | cons b run ih =>
    have low := payload_lt b
    rw [isRun_cons] at h
    split at h
    · next goes =>
      have later : (payload b + 128 * signedTotal run) / 128 = signedTotal run := by omega
      rw [signedTotal_cons h, encodeSigned]
      split
      · simp
      · rw [later, List.length_cons, List.length_cons]
        exact Nat.succ_le_succ (ih h)
    · next ends =>
      subst h
      have small : -64 ≤ signedTotal [b] ∧ signedTotal [b] < 64 := by
        rw [signedTotal_singleton]
        split <;> omega
      rw [encodeSigned, if_pos small]
      exact Nat.le_refl _

theorem window_eq (r : Region) (offset : Int) :
    window r offset = if 0 ≤ offset then (r.bytes.toList.drop offset.toNat).take 10 else [] := by
  have cut := toList_extract r.bytes offset.toNat 10
  rw [window, cut]
  by_cases start : 0 ≤ offset
  · rw [if_pos start]
    by_cases inside : r.contains offset 1 = true
    · rw [if_pos inside]
    · rw [Region.contains_iff, Region.size] at inside
      have none : r.bytes.toList.drop offset.toNat = [] := by
        rw [List.drop_eq_nil_iff, Array.length_toList]
        omega
      rw [if_neg (by rwa [Region.contains_iff, Region.size]), none]
      rfl
  · rw [if_neg start, if_neg]
    rw [Region.contains_iff]
    exact fun inside => start inside.1

theorem spans_iff {r : Region} {offset next : Int} {run : List UInt8} (some : 0 < run.length) :
    Spans r offset next run ∧ run.length ≤ 10 ↔
      run <+: window r offset ∧ next = offset + run.length := by
  rw [window_eq]
  split
  · next start =>
    rw [List.prefix_take_iff]
    exact ⟨fun ⟨h, short⟩ => ⟨⟨h.bytes, short⟩, h.behind⟩,
      fun ⟨⟨bytes, short⟩, behind⟩ => ⟨⟨start, bytes, behind⟩, short⟩⟩
  · next start =>
    constructor
    · exact fun ⟨h, _⟩ => absurd h.inside start
    · rintro ⟨bytes, -⟩
      rw [List.prefix_nil.1 bytes] at some
      cases some

theorem weight_eq_pow (k : Nat) : weight k = 128 ^ k := by
  induction k with
  | zero => rfl
  | succ k ih => rw [weight, ih, Nat.pow_succ']

/-- Below the tenth group a number of 64 bits has room for whole groups only. -/
theorem weight_dvd {k : Nat} (h : k ≤ 9) : weight k ∣ 0x10000000000000000 := by
  have power : weight k ∣ weight 9 := by
    rw [weight_eq_pow, weight_eq_pow]
    exact Nat.pow_dvd_pow 128 h
  exact power.trans ⟨2, rfl⟩

theorem groups_lt {k p m : Nat} (start : k + 1 ≤ 9) (low : p < 128)
    (fits : m * weight (k + 1) < 0x10000000000000000) :
    p * weight k + m * weight (k + 1) < 0x10000000000000000 := by
  obtain ⟨c, whole⟩ := weight_dvd start
  have positive : 0 < weight k := by
    rw [weight_eq_pow]
    exact Nat.pow_pos (by decide)
  have below : p * weight k < weight (k + 1) := Nat.mul_lt_mul_of_pos_right low positive
  rw [whole, Nat.mul_comm] at fits
  have room : m + 1 ≤ c := Nat.lt_of_mul_lt_mul_left fits
  calc p * weight k + m * weight (k + 1)
      < weight (k + 1) + m * weight (k + 1) := Nat.add_lt_add_right below _
    _ = weight (k + 1) * (m + 1) := by rw [Nat.mul_comm m, Nat.mul_succ, Nat.add_comm]
    _ ≤ weight (k + 1) * c := Nat.mul_le_mul_left _ room
    _ = 0x10000000000000000 := whole.symm

theorem total_weight (b : UInt8) (run : List UInt8) (k : Nat) :
    total (b :: run) * weight k = payload b * weight k + total run * weight (k + 1) := by
  rw [total_cons, weight]
  grind

theorem unsigned_eq_some_iff {k n used : Nat} {bs : List UInt8} :
    unsigned (7 * k) bs = some (n, used) ↔
      ∃ run, run <+: bs ∧ IsRun run ∧ k + run.length ≤ 10 ∧ n = total run * weight k ∧
        n < 0x10000000000000000 ∧ used = run.length := by
  induction bs generalizing k n used with
  | nil =>
    constructor
    · intro h
      cases h
    · rintro ⟨run, bytes, h, -⟩
      rw [List.prefix_nil.1 bytes] at h
      exact absurd h not_isRun_nil
  | cons b bs ih =>
    simp only [exists_run_cons, total_weight, List.length_cons]
    simp only [unsigned, shiftLeft_eq, isRun_cons]
    split
    · next refused =>
      constructor
      · rintro ⟨⟩
      · rintro ⟨run, -, -, short, rfl, fits, -⟩
        omega
    · next room =>
      split
      · next goes =>
        have groups : 7 * k + 7 = 7 * (k + 1) := rfl
        rw [groups]
        constructor
        · intro read
          obtain ⟨⟨m, u⟩, later, same⟩ := Option.map_eq_some_iff.1 read
          obtain ⟨run, bytes, h, short, rfl, fits, rfl⟩ := ih.1 later
          cases same
          have positive := h.length_pos
          refine ⟨run, bytes, h, by omega, rfl, ?_, rfl⟩
          exact groups_lt (by omega) (payload_lt b) fits
        · rintro ⟨run, bytes, h, short, rfl, fits, rfl⟩
          rw [ih.2 ⟨run, bytes, h, by omega, rfl, by omega, rfl⟩]
          rfl
      · constructor
        · intro read
          cases read
          exact ⟨[], List.nil_prefix, rfl, by simp; omega, by simp [total], by omega, rfl⟩
        · rintro ⟨run, -, rfl, -, rfl, -, rfl⟩
          simp [total]

/-- What a run says behind `k` groups of the value `low`. The tenth group leaves 64 bits. -/
def signedValue (k low : Nat) (run : List UInt8) : Int :=
  if k + run.length < 10 then low + signedTotal run * weight k
  else twosComplement 64 ((low + total run * weight k) % 0x10000000000000000)

theorem signedValue_singleton (k low : Nat) (b : UInt8) :
    signedValue k low [b] = extend (7 * (k + 1)) (low + payload b * weight k) b := by
  have single : total [b] = payload b := by simp [total]
  rw [signedValue, extend, signedTotal_singleton, single, List.length_singleton]
  by_cases short : k + 1 < 10
  · have groups : 7 * (k + 1) < 64 := by omega
    rw [if_pos short, if_pos groups, shiftLeft_eq, Nat.one_mul, weight, Int.natCast_add,
      Int.natCast_mul, Int.natCast_mul]
    by_cases negative : 64 ≤ payload b
    · rw [if_pos negative, if_pos negative]
      grind
    · rw [if_neg negative, if_neg negative]
  · have groups : ¬ 7 * (k + 1) < 64 := by omega
    rw [if_neg short, if_neg groups]

theorem signedValue_cons {k low : Nat} {b : UInt8} {run : List UInt8} (h : IsRun run) :
    signedValue k low (b :: run) = signedValue (k + 1) (low + payload b * weight k) run := by
  have places : k + (b :: run).length = k + 1 + run.length := by
    rw [List.length_cons]
    omega
  have whole : low + total (b :: run) * weight k =
      low + payload b * weight k + total run * weight (k + 1) := by
    rw [total_weight, Nat.add_assoc]
  rw [signedValue, signedValue, places, whole, signedTotal_cons h, weight, Int.natCast_add,
    Int.natCast_mul, Int.natCast_mul]
  split <;> grind

theorem signed_eq_some_iff {k low used : Nat} {n : Int} {bs : List UInt8} :
    signed (7 * k) low bs = some (n, used) ↔
      ∃ run, run <+: bs ∧ IsRun run ∧ k + run.length ≤ 10 ∧ n = signedValue k low run ∧
        used = run.length := by
  induction bs generalizing k low n used with
  | nil =>
    constructor
    · intro h
      cases h
    · rintro ⟨run, bytes, h, -⟩
      rw [List.prefix_nil.1 bytes] at h
      exact absurd h not_isRun_nil
  | cons b bs ih =>
    have groups : 7 * k + 7 = 7 * (k + 1) := rfl
    simp only [exists_run_cons, List.length_cons]
    simp only [signed, shiftLeft_eq, isRun_cons, groups]
    split
    · next refused =>
      constructor
      · rintro ⟨⟩
      · rintro ⟨run, -, -, short, -⟩
        omega
    · next room =>
      split
      · next goes =>
        constructor
        · intro read
          obtain ⟨⟨m, u⟩, later, same⟩ := Option.map_eq_some_iff.1 read
          obtain ⟨run, bytes, h, short, rfl, rfl⟩ := ih.1 later
          cases same
          exact ⟨run, bytes, h, by omega, (signedValue_cons h).symm, rfl⟩
        · rintro ⟨run, bytes, h, short, rfl, rfl⟩
          rw [signedValue_cons h, ih.2 ⟨run, bytes, h, by omega, rfl, rfl⟩]
          rfl
      · constructor
        · intro read
          cases read
          exact ⟨[], List.nil_prefix, rfl, by simp; omega,
            (signedValue_singleton k low b).symm, rfl⟩
        · rintro ⟨run, -, rfl, -, rfl, rfl⟩
          rw [signedValue_singleton]
          rfl

section
variable {r : Region} {offset next : Int}

theorem readUnsigned_eq_ok_iff {n : Nat} :
    readUnsigned r offset = .ok (n, next) ↔
      ∃ run, Spans r offset next run ∧ IsRun run ∧ run.length ≤ 10 ∧ n = total run ∧
        n < 0x10000000000000000 := by
  constructor
  · intro read
    unfold readUnsigned at read
    split at read
    · next m used found =>
      cases read
      obtain ⟨run, bytes, h, -, value, fits, rfl⟩ := (@unsigned_eq_some_iff 0 _ _ _).1 found
      obtain ⟨spans, short⟩ := (spans_iff h.length_pos).2 ⟨bytes, rfl⟩
      rw [weight, Nat.mul_one] at value
      exact ⟨run, spans, h, short, value, fits⟩
    · cases read
  · rintro ⟨run, spans, h, short, rfl, fits⟩
    obtain ⟨bytes, rfl⟩ := (spans_iff h.length_pos).1 ⟨spans, short⟩
    have found : unsigned 0 (window r offset) = some (total run, run.length) := by
      apply (@unsigned_eq_some_iff 0 _ _ _).2
      exact ⟨run, bytes, h, by omega, by rw [weight, Nat.mul_one], fits, rfl⟩
    rw [readUnsigned, found]

theorem readSigned_eq_ok_iff {n : Int} :
    readSigned r offset = .ok (n, next) ↔
      ∃ run, Spans r offset next run ∧ IsRun run ∧ run.length ≤ 10 ∧ n = signedValue 0 0 run := by
  constructor
  · intro read
    unfold readSigned at read
    split at read
    · next m used found =>
      cases read
      obtain ⟨run, bytes, h, -, value, rfl⟩ := (@signed_eq_some_iff 0 _ _ _ _).1 found
      obtain ⟨spans, short⟩ := (spans_iff h.length_pos).2 ⟨bytes, rfl⟩
      exact ⟨run, spans, h, short, value⟩
    · cases read
  · rintro ⟨run, spans, h, short, rfl⟩
    obtain ⟨bytes, rfl⟩ := (spans_iff h.length_pos).1 ⟨spans, short⟩
    have found : signed 0 0 (window r offset) = some (signedValue 0 0 run, run.length) := by
      apply (@signed_eq_some_iff 0 _ _ _ _).2
      exact ⟨run, bytes, h, by omega, rfl, rfl⟩
    rw [readSigned, found]

theorem readUnsigned_fault {e : Fault} (failed : readUnsigned r offset = .error e) :
    e = .unsignedLeb offset := by
  unfold readUnsigned at failed
  split at failed
  · cases failed
  · exact (Except.error.inj failed).symm

theorem spans_between (before run behind : List UInt8) (base : Int) :
    Spans ⟨(before ++ run ++ behind).toArray, base⟩ before.length (before.length + run.length)
      run := by
  refine ⟨Int.natCast_nonneg _, ?_, rfl⟩
  rw [Int.toNat_natCast, List.append_assoc, List.drop_left]
  exact List.prefix_append run behind

theorem signedValue_bounds (run : List UInt8) (whole : ¬ run.length < 10) :
    -0x8000000000000000 ≤ signedValue 0 0 run ∧ signedValue 0 0 run < 0x8000000000000000 := by
  rw [signedValue, Nat.zero_add, if_neg whole, twosComplement]
  split <;> omega

end

/-- An unsigned number is read exactly where a run of ten bytes at most has a total of 64 bits, and
whatever else stands there is refused with its offset. So a written number is read back wherever it
stands if it fits 64 bits, and no other run for it is as short. -/
theorem unsigned_of_run :
    (∀ r offset n next, readUnsigned r offset = .ok (n, next) ↔
      ∃ run, Spans r offset next run ∧ IsRun run ∧ run.length ≤ 10 ∧ n = total run ∧
        n < 0x10000000000000000) ∧
    (∀ r offset e, readUnsigned r offset = .error e → e = .unsignedLeb offset) ∧
    (∀ before behind base n,
      readUnsigned ⟨(before ++ encodeUnsigned n ++ behind).toArray, base⟩ before.length =
        if n < 0x10000000000000000 then .ok (n, before.length + (encodeUnsigned n).length)
        else .error (.unsignedLeb before.length)) ∧
    (∀ r offset n next, readUnsigned r offset = .ok (n, next) →
      offset + (encodeUnsigned n).length ≤ next ∧
      (offset + (encodeUnsigned n).length = next → Spans r offset next (encodeUnsigned n))) := by
  refine ⟨fun _ _ _ _ => readUnsigned_eq_ok_iff, fun _ _ _ => readUnsigned_fault, ?_, ?_⟩
  · intro before behind base n
    obtain ⟨written, value⟩ := encodeUnsigned_run n
    have spans := spans_between before (encodeUnsigned n) behind base
    split
    · next fits =>
      have short := (length_encodeUnsigned fits).2
      exact readUnsigned_eq_ok_iff.2 ⟨_, spans, written, short, value.symm, fits⟩
    · next wide =>
      cases read : readUnsigned _ _ with
      | error e => rw [readUnsigned_fault read]
      | ok answer =>
        obtain ⟨run, stands, h, -, sum, fits⟩ := readUnsigned_eq_ok_iff.1 read
        rw [h.unique written stands.bytes spans.bytes, value] at sum
        rw [sum] at fits
        exact absurd fits wide
  · intro r offset n next read
    obtain ⟨run, spans, h, -, rfl, -⟩ := readUnsigned_eq_ok_iff.1 read
    obtain ⟨shorter, same⟩ := encodeUnsigned_shortest h
    have behind := spans.behind
    refine ⟨by omega, fun equal => ?_⟩
    rwa [same (by omega)]

theorem unsigned_of_run_padded :
    readUnsigned ⟨#[0xff, 0x80, 0x80, 0x00, 0x05], 7⟩ 1 = .ok (0, 4) ∧
    1 + (encodeUnsigned 0).length ≤ (4 : Int) ∧
    readUnsigned ⟨([0x00] ++ encodeUnsigned 0x10000000000000000 ++ []).toArray, 0⟩ 1 =
      .error (.unsignedLeb 1) := by
  obtain ⟨accepted, -, written, shortest⟩ := unsigned_of_run
  have read : readUnsigned ⟨#[0xff, 0x80, 0x80, 0x00, 0x05], 7⟩ 1 = .ok (0, 4) := by
    apply (accepted _ _ _ _).2
    have h : IsRun [0x80, 0x80, 0x00] := by
      rw [isRun_cons, if_pos (by decide), isRun_cons, if_pos (by decide)]
      exact isRun_singleton (by decide)
    exact ⟨_, ⟨by decide, by decide, by decide⟩, h, by decide, by decide, by decide⟩
  have wide := written [0x00] [] 0 0x10000000000000000
  rw [if_neg (by decide)] at wide
  exact ⟨read, (shortest _ _ _ _ read).1, wide⟩

/-- A signed number of 64 bits is read back wherever it was written, and whatever is read as some
number takes at least as many bytes as that number when it is written. -/
theorem signed_of_written :
    (∀ n : Int, -0x8000000000000000 ≤ n ∧ n < 0x8000000000000000 → ∀ before behind base,
      readSigned ⟨(before ++ encodeSigned n ++ behind).toArray, base⟩ before.length =
        .ok (n, before.length + (encodeSigned n).length)) ∧
    (∀ r offset n next, readSigned r offset = .ok (n, next) →
      0 ≤ offset ∧ offset + (encodeSigned n).length ≤ next ∧ next ≤ r.size) := by
  constructor
  · intro n fits before behind base
    obtain ⟨some, short⟩ := length_encodeSigned fits
    have spans := spans_between before (encodeSigned n) behind base
    obtain ⟨⟨rest, cut⟩, -⟩ := (spans_iff some).1 ⟨spans, short⟩
    rw [readSigned, ← cut, signed_written fits]
  · intro r offset n next read
    have inside := readSigned_moves read
    refine ⟨inside.1, ?_, inside.2.2⟩
    obtain ⟨run, spans, h, short, rfl⟩ := readSigned_eq_ok_iff.1 read
    have enough : (encodeSigned (signedValue 0 0 run)).length ≤ run.length := by
      by_cases whole : run.length < 10
      · have value : signedValue 0 0 run = signedTotal run := by
          rw [signedValue, Nat.zero_add, if_pos whole, weight]
          omega
        rw [value]
        exact encodeSigned_shortest h
      · have few := (length_encodeSigned (signedValue_bounds run whole)).2
        omega
    rw [spans.behind]
    omega

theorem signed_of_written_least :
    readSigned ⟨([0xff] ++ encodeSigned (-0x8000000000000000) ++ [0x05]).toArray, 0⟩ 1 =
      .ok (-0x8000000000000000, 1 + (encodeSigned (-0x8000000000000000)).length) ∧
    readSigned ⟨#[0xff, 0xff, 0x7f], 0⟩ 0 = .ok (-1, 3) ∧
    0 + (encodeSigned (-1)).length ≤ (3 : Int) := by
  obtain ⟨written, shortest⟩ := signed_of_written
  have read : readSigned ⟨#[0xff, 0xff, 0x7f], 0⟩ 0 = .ok (-1, 3) := by
    apply readSigned_eq_ok_iff.2
    have h : IsRun [0xff, 0xff, 0x7f] := by
      rw [isRun_cons, if_pos (by decide), isRun_cons, if_pos (by decide)]
      exact isRun_singleton (by decide)
    exact ⟨_, ⟨by decide, by decide, by decide⟩, h, by decide, by decide⟩
  exact ⟨written _ (by decide) [0xff] [0x05] 0, read, (shortest _ _ _ _ read).2.1⟩

end MachImage.Leb
