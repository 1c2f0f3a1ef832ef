import MachImage.Image.Basic
/-!
The symbol table of an image and what leads into it. The dynamic table names ranges of symbols by
index, and the indirect table lists symbols by number.
-/
namespace MachImage

structure DynamicRanges where
  localSymbols : Option (Nat × Nat)
  externalSymbols : Option (Nat × Nat)
  undefinedSymbols : Option (Nat × Nat)
  (indirectOffset indirectCount : Nat)

namespace Image

def stringTable (i : Image) : Except Fault (Array UInt8) := do
  let c ← i.symbolTable
  return match c.value.strings? i.region with
    | some strings => strings.bytes
    | none => #[]

def indexRange (start count : Nat) : Option (Nat × Nat) :=
  if count = 0 then none else some (start, start + count)

def dynamicRanges (i : Image) : Except Fault DynamicRanges := do
  let c := (← i.dynamicTable).value
  return {
    localSymbols := indexRange c.localIndex c.localCount
    externalSymbols := indexRange c.externalIndex c.externalCount
    undefinedSymbols := indexRange c.undefinedIndex c.undefinedCount
    indirectOffset := c.indirectOffset
    indirectCount := c.indirectCount }

/-- Words read until the first that lies outside, which fails the whole. -/
def words (r : Region) : (offset count : Nat) → Except Fault (List Nat)
  | _, 0 => .ok []
  | offset, count + 1 => do
    let n ← r.word offset .u32
    return n.toNat :: (← words r (offset + 4) count)

def indirectSymbols (i : Image) : Except Fault (List Nat) := do
  let c := (← i.dynamicTable).value
  words i.region c.indirectOffset c.indirectCount

end Image

def Symbol.main? (symbols : List Symbol) : Option Symbol :=
  symbols.find? fun s => (s.name = "main" || s.name = "_main") && s.isInSection && s.isExternal

def Symbol.start? (symbols : List Symbol) : Option Symbol :=
  ["start", "_start"].findSome? fun name =>
    symbols.find? fun s => s.name = name && (s.isInSection || s.isAbsolute) && s.isExternal

def Image.isEntered (i : Image) : Bool :=
  i.entryPoint?.isSome && (i.segmentNamed? "__TEXT").isSome

/-- Where the runtime enters an image that has an entry point and a text segment. -/
def Image.startAmong? (i : Image) (symbols : List Symbol) : Option Symbol :=
  if i.isEntered then Symbol.start? symbols else none

end MachImage
