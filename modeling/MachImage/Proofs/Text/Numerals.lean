import MachImage.Text.Numeral
/-!
A number that is written in decimal digits is read back from them, and a number that was read from
digits of any script takes no more digits to write.
-/
namespace MachImage.Numeral

theorem decimal?_of_isDigit {c : Char} (h : c.isDigit = true) :
    decimal? c = some (c.toNat - '0'.toNat) := by
  have range : 0x30 ≤ c.toNat ∧ c.toNat < 0x30 + 10 := by
    simp only [Char.isDigit, Bool.and_eq_true, decide_eq_true_eq, ge_iff_le, UInt32.le_iff_toNat_le] at h
    exact ⟨h.1, Nat.lt_succ_of_le h.2⟩
  rw [decimal?, zeros, List.find?_cons_of_pos (by simp [range])]
  rfl

theorem isDigit_of_isDigit {c : Char} (h : c.isDigit = true) : isDigit c = true := by
  rw [isDigit, decimal?_of_isDigit h]
  rfl

theorem valueFrom_digits {cs : List Char} (digits : ∀ c ∈ cs, c.isDigit = true) (acc : Nat) :
    valueFrom acc (cs.filterMap decimal?) = Nat.ofDigitChars 10 cs acc := by
  induction cs generalizing acc with
  | nil => rfl
  | cons c cs ih =>
    have rest : ∀ d ∈ cs, d.isDigit = true := fun d member =>
      digits d (List.mem_cons_of_mem c member)
    rw [List.filterMap_cons, decimal?_of_isDigit (digits c List.mem_cons_self)]
    exact ih rest _

theorem value_of_decimal {cs : List Char} (all : ∀ c ∈ cs, (decimal? c).isSome = true)
    (short : cs.length ≤ limit) : value cs = .ok (valueFrom 0 (cs.filterMap decimal?)) := by
  have run : cs.takeWhile (fun c => (decimal? c).isSome) = cs := by
    simpa using @List.takeWhile_append_of_pos _ (fun c => (decimal? c).isSome) _ [] all
  rw [value, run, if_neg (Nat.not_lt_of_le short), if_neg (Nat.lt_irrefl _)]

theorem decimal_of_value {cs : List Char} {n : Nat} (h : value cs = .ok n) :
    (∀ c ∈ cs, (decimal? c).isSome = true) ∧ cs.length ≤ limit := by
  have within := List.takeWhile_prefix (fun c => (decimal? c).isSome) (l := cs)
  simp only [value] at h
  split at h
  · cases h
  next short =>
  split at h
  · cases h
  next whole =>
  have run := within.eq_of_length (Nat.le_antisymm within.length_le (Nat.le_of_not_lt whole))
  refine ⟨fun c member => ?_, ?_⟩
  · rw [← run] at member
    exact List.all_eq_true.1 List.all_takeWhile c member
  · rw [run] at short
    exact Nat.le_of_not_lt short

theorem value_toDigits {n : Nat} (short : (Nat.toDigits 10 n).length ≤ limit) :
    value (Nat.toDigits 10 n) = .ok n := by
  have digits : ∀ c ∈ Nat.toDigits 10 n, c.isDigit = true := fun c member =>
    Nat.isDigit_of_mem_toDigits (by decide) (by decide) member
  have all : ∀ c ∈ Nat.toDigits 10 n, (decimal? c).isSome = true := by
    intro c member
    rw [decimal?_of_isDigit (digits c member)]
    rfl
  rw [value_of_decimal all short, valueFrom_digits digits, Nat.ofDigitChars_ten_toDigits]

theorem length_toDigits_le {n : Nat} (word : n < 0x10000000000000000) :
    (Nat.toDigits 10 n).length ≤ limit := by
  have twenty : (Nat.toDigits 10 n).length ≤ 20 :=
    (Nat.length_toDigits_le_iff (by decide) (by decide)).2 (Nat.lt_trans word (by decide))
  exact Nat.le_trans twenty (by decide)

theorem write?_of_short {n : Nat} (short : (Nat.toDigits 10 n).length ≤ limit) :
    write? n = some (String.ofList (Nat.toDigits 10 n)) := by
  have shown : toString n = String.ofList (Nat.toDigits 10 n) := Nat.toString_eq_ofList_toDigits
  have nonnegative : ¬ (n : Int) < 0 := by omega
  rw [write?, Int.natAbs_natCast, shown, String.length_ofList]
  rw [if_neg (Nat.not_lt_of_le short), if_neg nonnegative]

theorem decimal?_lt {c : Char} {d : Nat} (h : decimal? c = some d) : d < 10 := by
  obtain ⟨z, found, rfl⟩ := Option.map_eq_some_iff.1 h
  have range := List.find?_some found
  simp only [Bool.and_eq_true, decide_eq_true_eq] at range
  omega

theorem valueFrom_lt {ds : List Nat} (digits : ∀ d ∈ ds, d < 10) (acc : Nat) :
    valueFrom acc ds < (acc + 1) * Nat.pow 10 ds.length := by
  induction ds generalizing acc with
  | nil => exact Nat.lt_of_lt_of_eq (Nat.lt_succ_self acc) (Nat.mul_one _).symm
  | cons d ds ih =>
    obtain ⟨small, digits⟩ := List.forall_mem_cons.1 digits
    have rest := ih digits (10 * acc + d)
    have room : 10 * acc + d + 1 ≤ (acc + 1) * 10 := by omega
    calc valueFrom acc (d :: ds)
        < (10 * acc + d + 1) * Nat.pow 10 ds.length := rest
      _ ≤ (acc + 1) * 10 * Nat.pow 10 ds.length := Nat.mul_le_mul_right _ room
      _ = (acc + 1) * Nat.pow 10 (d :: ds).length := by
        rw [Nat.mul_assoc, Nat.mul_comm 10]
        rfl

theorem length_of_value {cs : List Char} {n : Nat} (some : cs ≠ []) (h : value cs = .ok n) :
    (Nat.toDigits 10 n).length ≤ cs.length ∧ cs.length ≤ limit := by
  obtain ⟨all, short⟩ := decimal_of_value h
  cases (value_of_decimal all short).symm.trans h
  refine ⟨?_, short⟩
  have digits : ∀ d ∈ cs.filterMap decimal?, d < 10 := by
    intro d member
    obtain ⟨c, -, found⟩ := List.mem_filterMap.1 member
    exact decimal?_lt found
  have fewer : (cs.filterMap decimal?).length ≤ cs.length := List.length_filterMap_le _ _
  have bound := valueFrom_lt digits 0
  rw [Nat.one_mul] at bound
  apply (Nat.length_toDigits_le_iff (by decide) (List.length_pos_iff.2 some)).2
  exact Nat.lt_of_lt_of_le bound (Nat.pow_le_pow_right (by decide) fewer)

end MachImage.Numeral
