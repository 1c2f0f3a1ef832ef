import MachImage.Text.Quoted
/-!
Numerals. A digit of any script counts: `zeros` holds the zero of each run of ten decimal digits,
`otherDigits` the superscripts and circled digits, which are digits and belong to no such run. A
numeral made of decimal digits has a value; one that holds another digit has none. Neither
reading nor writing goes past `limit` digits.
-/
namespace MachImage.Numeral

def zeros : List Nat := [
  0x30, 0x660, 0x6F0, 0x7C0, 0x966, 0x9E6, 0xA66, 0xAE6, 0xB66, 0xBE6, 0xC66, 0xCE6, 0xD66,
  0xDE6, 0xE50, 0xED0, 0xF20, 0x1040, 0x1090, 0x17E0, 0x1810, 0x1946, 0x19D0, 0x1A80, 0x1A90,
  0x1B50, 0x1BB0, 0x1C40, 0x1C50, 0xA620, 0xA8D0, 0xA900, 0xA9D0, 0xA9F0, 0xAA50, 0xABF0, 0xFF10,
  0x104A0, 0x10D30, 0x11066, 0x110F0, 0x11136, 0x111D0, 0x112F0, 0x11450, 0x114D0, 0x11650,
  0x116C0, 0x11730, 0x118E0, 0x11950, 0x11C50, 0x11D50, 0x11DA0, 0x16A60, 0x16AC0, 0x16B50,
  0x1D7CE, 0x1D7D8, 0x1D7E2, 0x1D7EC, 0x1D7F6, 0x1E140, 0x1E2F0, 0x1E950, 0x1FBF0]

def otherDigits : List (Nat × Nat) := [
  (0xB2, 0xB3), (0xB9, 0xB9), (0x1369, 0x1371), (0x19DA, 0x19DA), (0x2070, 0x2070),
  (0x2074, 0x2079), (0x2080, 0x2089), (0x2460, 0x2468), (0x2474, 0x247C), (0x2488, 0x2490),
  (0x24EA, 0x24EA), (0x24F5, 0x24FD), (0x24FF, 0x24FF), (0x2776, 0x277E), (0x2780, 0x2788),
  (0x278A, 0x2792), (0x10A40, 0x10A43), (0x10E60, 0x10E68), (0x11052, 0x1105A),
  (0x1F100, 0x1F10A)]

def decimal? (c : Char) : Option Nat :=
  (zeros.find? fun z => z ≤ c.toNat && c.toNat < z + 10).map (c.toNat - ·)

def isDigit (c : Char) : Bool :=
  (decimal? c).isSome || otherDigits.any fun r => r.1 ≤ c.toNat && c.toNat ≤ r.2

def limit : Nat := 4300

inductive Fault where
  | notDecimal (numeral : String)
  | tooLong (digits : Nat)

/-- A numeral quoted in a message is cut to 200 characters. -/
def Fault.message : Fault → String
  | .notDecimal numeral =>
    "invalid literal for int() with base 10: " ++
      String.ofList ((Quoted.text numeral).toList.take 200)
  | .tooLong digits =>
    s!"Exceeds the limit ({limit} digits) for integer string conversion: value has {digits} " ++
      "digits; use sys.set_int_max_str_digits() to increase the limit"

def valueFrom (acc : Nat) (ds : List Nat) : Nat := ds.foldl (fun n d => 10 * n + d) acc

/-- The leading decimal digits are counted first, so a run of them past the limit is refused
before any other digit is looked at. -/
def value (cs : List Char) : Except Fault Nat :=
  let run := cs.takeWhile fun c => (decimal? c).isSome
  if limit < run.length then .error (.tooLong run.length)
  else if run.length < cs.length then .error (.notDecimal (String.ofList cs))
  else .ok (valueFrom 0 (cs.filterMap decimal?))

def write? (n : Int) : Option String :=
  let s := toString n.natAbs
  if limit < s.length then none else some (if n < 0 then "-" ++ s else s)

def tooWide : String :=
  s!"Exceeds the limit ({limit} digits) for integer string conversion; use " ++
    "sys.set_int_max_str_digits() to increase the limit"

end MachImage.Numeral
