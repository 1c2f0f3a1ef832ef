import MachImage.Text.Hex
import MachImage.Text.Printable
/-!
Quoted text. A text stands between single quotes, unless it holds a single quote and no double
one. The quote in use, the backslash, newline, return and tab are escaped by a backslash; a
character that does not show is written by its code, as `\x`, `\u` or `\U` and two, four or eight
digits. Bytes are quoted alike behind a `b`, where only 0x20 to 0x7E show.
-/
namespace MachImage.Quoted

def quoteFor (single double : Bool) : Char :=
  if single && !double then '"' else '\''

def common (quote c : Char) : Option String :=
  if c = quote || c = '\\' then some (String.ofList ['\\', c])
  else if c = '\n' then some "\\n"
  else if c = '\r' then some "\\r"
  else if c = '\t' then some "\\t"
  else none

def coded (n : Nat) : String :=
  if n < 0x100 then "\\x" ++ Hex.padded 2 n
  else if n < 0x10000 then "\\u" ++ Hex.padded 4 n
  else "\\U" ++ Hex.padded 8 n

def char (quote c : Char) : String :=
  match common quote c with
  | some s => s
  | none => if Printable.isPrintable c then c.toString else coded c.toNat

def byte (quote : Char) (b : UInt8) : String :=
  match common quote (Char.ofNat b.toNat) with
  | some s => s
  | none =>
    if 0x20 ≤ b ∧ b < 0x7F then (Char.ofNat b.toNat).toString else "\\x" ++ Hex.byte b

def text (s : String) : String :=
  let cs := s.toList
  let quote := quoteFor (cs.contains '\'') (cs.contains '"')
  quote.toString ++ String.join (cs.map (char quote)) ++ quote.toString

def bytes (bs : List UInt8) : String :=
  let quote := quoteFor (bs.contains 0x27) (bs.contains 0x22)
  "b" ++ quote.toString ++ String.join (bs.map (byte quote)) ++ quote.toString

def texts (ss : List String) : String :=
  "[" ++ ", ".intercalate (ss.map text) ++ "]"

end MachImage.Quoted
