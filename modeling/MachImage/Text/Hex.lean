/-!
Hexadecimal text, in lower case. A number carries the mark `0x` behind its sign; a byte has two
digits. `padded` fills the digits of a number with zeros on the left.
-/
namespace MachImage.Hex

def digits (n : Nat) : String := String.ofList (Nat.toDigits 16 n)

def number (n : Int) : String :=
  if n < 0 then "-0x" ++ digits n.natAbs else "0x" ++ digits n.toNat

def padded (width n : Nat) : String :=
  String.ofList (List.replicate (width - (Nat.toDigits 16 n).length) '0') ++ digits n

def byte (b : UInt8) : String := padded 2 b.toNat

def bytes (bs : List UInt8) : String := String.join (bs.map byte)

end MachImage.Hex
