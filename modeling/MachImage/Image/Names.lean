import MachImage.Image.Symbols
import MachImage.Index
import MachImage.StringTable
/-!
Names of symbols, sorted by what they are for. Debug symbols and symbols without a name are left
out of the names an image imports and exports; an address is named by the last symbol that is
defined there.
-/
namespace MachImage

structure SymbolNames where
  imported : List String
  /-- By the address of the symbol. -/
  exported : Index String

namespace SymbolNames

def ofSymbols (symbols : List Symbol) : SymbolNames :=
  let named := symbols.filter fun s => s.name ≠ "" && !s.isDebug
  { imported := (named.filter fun s => s.isUndefined && s.isExternal).map (·.name)
    exported := .ofList ((named.filter (·.isInSection)).map fun s => (s.value, s.name)) }

def nameAt? (n : SymbolNames) (address : Int) : Option String :=
  if address < 0 then none else n.exported[address.toNat]?

end SymbolNames

def Symbol.importedFrom (symbols : List Symbol) (ordinal : Int) : List Symbol :=
  symbols.filter fun s => s.isUndefined && s.isExternal && s.libraryOrdinal = ordinal

end MachImage
