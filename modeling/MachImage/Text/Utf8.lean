/-!
UTF-8. `scan` reads bytes as a sequence of characters and faults: a fault stands for a longest
prefix that could still have become a character, or for one byte that can start none. `decode`
puts U+FFFD in the place of each fault, `decode?` accepts only bytes without one.
-/
namespace MachImage.Utf8

/-- A character that has begun: its bits so far, the bounds of the next byte, and how many
ordinary continuation bytes follow that one. -/
structure Pending where
  bits : Nat
  low : UInt8
  high : UInt8
  more : Nat

inductive Lead where
  | whole (c : Char)
  | starts (p : Pending)
  | never

/-- The narrow second bytes after E0, ED, F0 and F4 keep out overlong forms, surrogates and
values past the last code point. -/
def lead (b : UInt8) : Lead :=
  let n := b.toNat
  if n < 0x80 then .whole (Char.ofNat n)
  else if n < 0xC2 then .never
  else if n < 0xE0 then .starts ⟨n - 0xC0, 0x80, 0xBF, 0⟩
  else if n = 0xE0 then .starts ⟨0, 0xA0, 0xBF, 1⟩
  else if n = 0xED then .starts ⟨0xD, 0x80, 0x9F, 1⟩
  else if n < 0xF0 then .starts ⟨n - 0xE0, 0x80, 0xBF, 1⟩
  else if n = 0xF0 then .starts ⟨0, 0x90, 0xBF, 2⟩
  else if n < 0xF4 then .starts ⟨n - 0xF0, 0x80, 0xBF, 2⟩
  else if n = 0xF4 then .starts ⟨4, 0x80, 0x8F, 2⟩
  else .never

/-- The states of a scan: between characters, or inside one. `none` in the result is a fault. -/
def scanFrom : Option Pending → List UInt8 → List (Option Char)
  | none, [] => []
  | some _, [] => [none]
  | none, b :: bs =>
    match lead b with
    | .whole c => some c :: scanFrom none bs
    | .starts p => scanFrom (some p) bs
    | .never => none :: scanFrom none bs
  | some p, b :: bs =>
    if p.low ≤ b ∧ b ≤ p.high then
      let bits := p.bits * 64 + b.toNat % 64
      match p.more with
      | 0 => some (Char.ofNat bits) :: scanFrom none bs
      | more + 1 => scanFrom (some ⟨bits, 0x80, 0xBF, more⟩) bs
    else
      none :: match lead b with
        | .whole c => some c :: scanFrom none bs
        | .starts q => scanFrom (some q) bs
        | .never => none :: scanFrom none bs

def scan (bs : List UInt8) : List (Option Char) := scanFrom none bs

def decode (bs : List UInt8) : String :=
  String.ofList ((scan bs).map (·.getD '\uFFFD'))

def decode? (bs : List UInt8) : Option String :=
  if (scan bs).all (·.isSome) then some (decode bs) else none

@[simp] theorem scan_nil : scan [] = [] := rfl

theorem scan_ascii {b : UInt8} (h : b.toNat < 0x80) (bs : List UInt8) :
    scan (b :: bs) = some (Char.ofNat b.toNat) :: scan bs := by
  simp [scan, scanFrom, lead, h]

/-- After a fault the scan goes on as if from the byte that broke the character. -/
theorem scanFrom_fault (p : Pending) (b : UInt8) (bs : List UInt8)
    (h : ¬ (p.low ≤ b ∧ b ≤ p.high)) :
    scanFrom (some p) (b :: bs) = none :: scanFrom none (b :: bs) := by
  simp [scanFrom, h]

end MachImage.Utf8
