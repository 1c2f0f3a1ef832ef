import MachImage.Image.Command
/-!
Symbols. A symbol has its name from the string table, and its kind from the bits of its type. A
table that lies outside the slice holds no symbols.
-/
namespace MachImage

structure Symbol where
  name : String
  (rawType sectionNumber description value : Nat)

namespace Symbol

def type (s : Symbol) : Nat := s.rawType &&& 0x0E

def isExternal (s : Symbol) : Bool := s.rawType &&& 0x01 ≠ 0

def isUndefined (s : Symbol) : Bool := s.type = 0

def isInSection (s : Symbol) : Bool := s.type = 0x0E

def isAbsolute (s : Symbol) : Bool := s.type = 0x02

def isDebug (s : Symbol) : Bool := s.rawType &&& 0xE0 ≠ 0

def libraryOrdinal (s : Symbol) : Nat := s.description >>> 8 % 0x100

end Symbol

/-- The name at an index of a string table. Index 0 is the empty name. -/
def nameIn (strings : Region) (index : Nat) : Except Fault String :=
  if index = 0 then .ok ""
  else if strings.size ≤ index then .ok "<InvalidStrOffset>"
  else match strings.cstring index with
    | .error (.unterminated _) => .ok "<InvalidStr>"
    | read => read

def Symbol.ofEntry (strings : Region) (e : SymbolEntry) : Except Fault Symbol :=
  (nameIn strings e.nameIndex).map fun name =>
    { name, rawType := e.type, sectionNumber := e.sectionNumber, description := e.description,
      value := e.value }

def SymbolTableCommand.strings? (c : SymbolTableCommand) (r : Region) : Option Region :=
  (r.slice c.stringOffset c.stringSize).toOption

def SymbolTableCommand.symbols (c : SymbolTableCommand) (r : Region) :
    Except Fault (List Symbol) :=
  if r.contains c.symbolOffset (c.symbolCount * Record.size SymbolEntry : Nat) then
    match c.strings? r with
    | none => .ok []
    | some strings => do
      let entries ← r.records SymbolEntry c.symbolOffset c.symbolCount
      entries.mapM fun e => Symbol.ofEntry strings e.value
  else .ok []

end MachImage
