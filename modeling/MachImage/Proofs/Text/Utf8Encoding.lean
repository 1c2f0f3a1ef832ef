import MachImage.Text.Utf8
/-!
Text that was written in UTF-8 is read back, and it has a NUL byte only where it has the character.
A lead byte holds the top bits of its character and bounds the byte behind it; those bounds leave
out no character, for a character that takes two bytes or more is neither too small nor a surrogate.
-/
namespace MachImage.Utf8

def encode (s : String) : List UInt8 := s.toList.flatMap String.utf8EncodeChar

def inner (n : Nat) : UInt8 := UInt8.ofNat (n + 0x80)

theorem toNat_inner {n : Nat} (six : n < 64) : (inner n).toNat = n + 0x80 :=
  UInt8.toNat_ofNat_of_lt' (by omega : n + 0x80 < 256)

/-- What is read of a character with `more` bytes to come. -/
def continued (bits : Nat) (bs : List UInt8) : Nat → List (Option Char)
  | 0 => some (Char.ofNat bits) :: scan bs
  | more + 1 => scanFrom (some ⟨bits, 0x80, 0xBF, more⟩) bs

theorem scanFrom_inner {bits n : Nat} {low high : UInt8} (more : Nat) (bs : List UInt8)
    (six : n < 64) (above : low.toNat ≤ n + 0x80) (below : n + 0x80 ≤ high.toNat) :
    scanFrom (some ⟨bits, low, high, more⟩) (inner n :: bs) =
      continued (bits * 64 + n) bs more := by
  have bounds : low ≤ inner n ∧ inner n ≤ high := by
    rw [UInt8.le_iff_toNat_le, UInt8.le_iff_toNat_le, toNat_inner six]
    exact ⟨above, below⟩
  have low : (inner n).toNat % 64 = n := by
    rw [toNat_inner six]
    omega
  rw [scanFrom, if_pos bounds, low]
  cases more with
  | zero => rfl
  | succ more => rfl

theorem scanFrom_plain {bits n : Nat} (more : Nat) (bs : List UInt8) (six : n < 64) :
    scanFrom (some ⟨bits, 0x80, 0xBF, more⟩) (inner n :: bs) =
      continued (bits * 64 + n) bs more := by
  have bounds : 0x80 ≤ n + 0x80 ∧ n + 0x80 ≤ 0xBF := by omega
  exact scanFrom_inner more bs six bounds.1 bounds.2

def Admits (first : UInt8) (bits second more : Nat) : Prop :=
  ∃ low high, lead first = .starts ⟨bits, low, high, more⟩ ∧
    low.toNat ≤ second + 0x80 ∧ second + 0x80 ≤ high.toNat

theorem Admits.scan {first : UInt8} {bits second more : Nat} (h : Admits first bits second more)
    (six : second < 64) (bs : List UInt8) :
    scan (first :: inner second :: bs) = continued (bits * 64 + second) bs more := by
  obtain ⟨low, high, starts, above, below⟩ := h
  rw [Utf8.scan, scanFrom, starts]
  exact scanFrom_inner more bs six above below

theorem admits_two {n : Nat} (h : 0x80 ≤ n) (k : n < 0x800) :
    Admits (UInt8.ofNat (n / 64 + 0xC0)) (n / 64) (n % 64) 0 := by
  have first := UInt8.toNat_ofNat_of_lt' (by omega : n / 64 + 0xC0 < 256)
  refine ⟨0x80, 0xBF, ?_, ?_⟩
  · simp only [lead, first]
    rw [if_neg (by omega), if_neg (by omega), if_pos (by omega), Nat.add_sub_cancel]
  · show 0x80 ≤ n % 64 + 0x80 ∧ n % 64 + 0x80 ≤ 0xBF
    omega

theorem admits_three {n : Nat} (h : 0x800 ≤ n) (k : n < 0x10000)
    (character : n < 0xD800 ∨ 0xDFFF < n) :
    Admits (UInt8.ofNat (n / 4096 + 0xE0)) (n / 4096) (n / 64 % 64) 1 := by
  have first := UInt8.toNat_ofNat_of_lt' (by omega : n / 4096 + 0xE0 < 256)
  unfold Admits
  simp only [lead, first]
  rw [if_neg (by omega), if_neg (by omega), if_neg (by omega)]
  by_cases low : n / 4096 = 0
  · rw [if_pos (by omega), low]
    refine ⟨0xA0, 0xBF, rfl, ?_⟩
    show 0xA0 ≤ n / 64 % 64 + 0x80 ∧ n / 64 % 64 + 0x80 ≤ 0xBF
    omega
  · rw [if_neg (by omega)]
    by_cases surrogates : n / 4096 = 0xD
    · rw [if_pos (by omega), surrogates]
      refine ⟨0x80, 0x9F, rfl, ?_⟩
      show 0x80 ≤ n / 64 % 64 + 0x80 ∧ n / 64 % 64 + 0x80 ≤ 0x9F
      omega
    · rw [if_neg (by omega), if_pos (by omega), Nat.add_sub_cancel]
      refine ⟨0x80, 0xBF, rfl, ?_⟩
      show 0x80 ≤ n / 64 % 64 + 0x80 ∧ n / 64 % 64 + 0x80 ≤ 0xBF
      omega

theorem admits_four {n : Nat} (h : 0x10000 ≤ n) (k : n < 0x110000) :
    Admits (UInt8.ofNat (n / 262144 + 0xF0)) (n / 262144) (n / 4096 % 64) 2 := by
  have first := UInt8.toNat_ofNat_of_lt' (by omega : n / 262144 + 0xF0 < 256)
  unfold Admits
  simp only [lead, first]
  rw [if_neg (by omega), if_neg (by omega), if_neg (by omega), if_neg (by omega),
    if_neg (by omega), if_neg (by omega)]
  by_cases low : n / 262144 = 0
  · rw [if_pos (by omega), low]
    refine ⟨0x90, 0xBF, rfl, ?_⟩
    show 0x90 ≤ n / 4096 % 64 + 0x80 ∧ n / 4096 % 64 + 0x80 ≤ 0xBF
    omega
  · rw [if_neg (by omega)]
    by_cases top : n / 262144 = 4
    · rw [if_neg (by omega), if_pos (by omega), top]
      refine ⟨0x80, 0x8F, rfl, ?_⟩
      show 0x80 ≤ n / 4096 % 64 + 0x80 ∧ n / 4096 % 64 + 0x80 ≤ 0x8F
      omega
    · rw [if_pos (by omega), Nat.add_sub_cancel]
      refine ⟨0x80, 0xBF, rfl, ?_⟩
      show 0x80 ≤ n / 4096 % 64 + 0x80 ∧ n / 4096 % 64 + 0x80 ≤ 0xBF
      omega

inductive Written (n : Nat) : List UInt8 → Prop
  | one : n < 0x80 → Written n [UInt8.ofNat n]
  | two : 0x80 ≤ n → n < 0x800 → Written n [UInt8.ofNat (n / 64 + 0xC0), inner (n % 64)]
  | three : 0x800 ≤ n → n < 0x10000 → (n < 0xD800 ∨ 0xDFFF < n) →
      Written n [UInt8.ofNat (n / 4096 + 0xE0), inner (n / 64 % 64), inner (n % 64)]
  | four : 0x10000 ≤ n → n < 0x110000 → Written n [UInt8.ofNat (n / 262144 + 0xF0),
      inner (n / 4096 % 64), inner (n / 64 % 64), inner (n % 64)]

theorem written_char (c : Char) : Written c.toNat (String.utf8EncodeChar c) := by
  have character : c.toNat.isValidChar := c.valid
  unfold Nat.isValidChar at character
  change Written c.toNat (if c.toNat ≤ 0x7F then _ else if c.toNat ≤ 0x7FF then _ else
    if c.toNat ≤ 0xFFFF then _ else _)
  split
  · exact .one (by omega)
  · split
    · have top : c.toNat / 64 % 32 = c.toNat / 64 := by omega
      rw [show c.val.toNat = c.toNat from rfl, top]
      exact .two (by omega) (by omega)
    · split
      · have top : c.toNat / 4096 % 16 = c.toNat / 4096 := by omega
        rw [show c.val.toNat = c.toNat from rfl, top]
        exact .three (by omega) (by omega) (by omega)
      · have top : c.toNat / 262144 % 8 = c.toNat / 262144 := by omega
        rw [show c.val.toNat = c.toNat from rfl, top]
        exact .four (by omega) (by omega)

theorem Written.scan {n : Nat} {bs : List UInt8} (h : Written n bs) (rest : List UInt8) :
    scan (bs ++ rest) = some (Char.ofNat n) :: scan rest := by
  cases h with
  | one small =>
    have byte := UInt8.toNat_ofNat_of_lt' (by omega : n < 256)
    have read := scan_ascii (b := UInt8.ofNat n) (by omega) rest
    rwa [byte] at read
  | two above below =>
    have bits : n / 64 * 64 + n % 64 = n := by omega
    have read := (admits_two above below).scan (by omega) rest
    rwa [bits] at read
  | three above below character =>
    have bits : (n / 4096 * 64 + n / 64 % 64) * 64 + n % 64 = n := by omega
    have read := (admits_three above below character).scan (by omega) (inner (n % 64) :: rest)
    rwa [continued, scanFrom_plain 0 rest (by omega), bits] at read
  | four above below =>
    have bits : ((n / 262144 * 64 + n / 4096 % 64) * 64 + n / 64 % 64) * 64 + n % 64 = n := by omega
    have read := (admits_four above below).scan (by omega)
      (inner (n / 64 % 64) :: inner (n % 64) :: rest)
    rwa [continued, scanFrom_plain 1 _ (by omega), continued, scanFrom_plain 0 rest (by omega),
      bits] at read

theorem scan_encode (cs : List Char) : scan (cs.flatMap String.utf8EncodeChar) = cs.map some := by
  induction cs with
  | nil => rfl
  | cons c cs ih =>
    rw [List.flatMap_cons, (written_char c).scan, ih, Char.ofNat_toNat, List.map_cons]

theorem decode_encode (s : String) : decode (encode s) = s := by
  have characters : (s.toList.map some).map (·.getD '\uFFFD') = s.toList := by
    rw [List.map_map]
    exact List.map_id s.toList
  rw [decode, encode, scan_encode, characters, String.ofList_toList]

theorem Written.nul {n : Nat} {bs : List UInt8} (h : Written n bs) (nul : 0 ∈ bs) : n = 0 := by
  have zero {m : Nat} (byte : m < 256) (same : 0 = UInt8.ofNat m) : m = 0 := by
    rw [← UInt8.toNat_ofNat_of_lt' byte, ← same]
    rfl
  cases h with
  | one small => exact zero (by omega) (List.mem_singleton.1 nul)
  | two above below =>
    simp only [List.mem_cons, List.not_mem_nil, or_false, inner] at nul
    rcases nul with first | second
    · have := zero (by omega) first
      omega
    · have := zero (by omega) second
      omega
  | three above below character =>
    simp only [List.mem_cons, List.not_mem_nil, or_false, inner] at nul
    rcases nul with first | second | third
    · have := zero (by omega) first
      omega
    · have := zero (by omega) second
      omega
    · have := zero (by omega) third
      omega
  | four above below =>
    simp only [List.mem_cons, List.not_mem_nil, or_false, inner] at nul
    rcases nul with first | second | third | fourth
    · have := zero (by omega) first
      omega
    · have := zero (by omega) second
      omega
    · have := zero (by omega) third
      omega
    · have := zero (by omega) fourth
      omega

theorem encode_noNul {s : String} (h : '\x00' ∉ s.toList) : 0 ∉ encode s := by
  intro nul
  obtain ⟨c, member, byte⟩ := List.mem_flatMap.1 nul
  have zero := (written_char c).nul byte
  have same : c = '\x00' := by
    rw [← Char.ofNat_toNat c, zero]
  exact h (same ▸ member)

end MachImage.Utf8
