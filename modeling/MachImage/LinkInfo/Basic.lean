import MachImage.Attempt
import MachImage.Image.Basic
import MachImage.LinkInfo.Rebase
import MachImage.LinkInfo.Binding
import MachImage.LinkInfo.Export
/-!
The link info of an image: five streams, each read on its own, so that damage to one says nothing
about the others. A stream of no bytes holds nothing. No stream may list more slots than
the segments have room for, and one more. Bindings by address tell which symbol is to be found at
each slot; of two bindings of a slot the later one counts.
-/
namespace MachImage

structure LinkInfo where
  rebases : Except Fault (List Rebase)
  bindings : Except Fault (List Binding)
  weakBindings : Except Fault (List Binding)
  lazyBindings : Except Fault (List Binding)
  exports : Except Fault (List Export)

structure BoundSymbol where
  address : Nat
  ordinal : Int
  (name dylibName : String)

namespace Image

def recordLimit (i : Image) : Nat :=
  i.segments.foldl (fun total s => total + s.vmSize) 0 / Slot.size + 1

def stream {α : Type} (i : Image) (name : String) (offset size : Nat)
    (read : Region → Except Fault (List α)) : Except Fault (List α) :=
  if size = 0 then .ok []
  else match i.region.slice offset size with
    | .ok r => read r
    | .error _ => .error (.corrupt (.streamOutside name offset size))

def slotAddress (i : Image) (segmentIndex segmentOffset : Nat) : Except Fault Nat :=
  (i.segmentAt segmentIndex).map fun s => s.address + segmentOffset

/-- A binding whose segment is missing has no address. -/
def boundSymbol? (i : Image) (b : Binding) : Option (Nat × BoundSymbol) :=
  match i.slotAddress b.segmentIndex b.segmentOffset with
  | .ok address => some (address, ⟨address, b.ordinal, b.symbol, i.dylibNameAt b.ordinal⟩)
  | .error _ => none

def boundSymbols (i : Image) (bs : List Binding) : Index BoundSymbol :=
  .ofList (bs.filterMap i.boundSymbol?)

end Image

namespace LinkInfo

def ofCommand (i : Image) (c : LinkInfoCommand) : Except Fault LinkInfo := do
  let limit := i.recordLimit
  return {
    rebases := ← report
      (i.stream "rebase" c.rebaseOffset c.rebaseSize (Rebase.ofStream limit))
    bindings := ← report
      (i.stream "bind" c.bindOffset c.bindSize (Binding.ofStream limit false))
    weakBindings := ← report
      (i.stream "weak_bind" c.weakBindOffset c.weakBindSize (Binding.ofStream limit false))
    lazyBindings := ← report
      (i.stream "lazy_bind" c.lazyBindOffset c.lazyBindSize (Binding.ofStream limit true))
    exports := ← report
      (i.stream "export" c.exportOffset c.exportSize Export.ofStream) }

def ofImage (i : Image) : Except Fault LinkInfo := do
  ofCommand i (← i.linkInfo).value

def records {α : Type} (stream : Except Fault (List α)) : List α := stream.toOption.getD []

def fault? {α : Type} : Except Fault α → Option Fault
  | .ok _ => none
  | .error e => some e

def faults (l : LinkInfo) : List (String × Fault) :=
  [("rebase", fault? l.rebases), ("bind", fault? l.bindings),
   ("weak_bind", fault? l.weakBindings), ("lazy_bind", fault? l.lazyBindings),
   ("export", fault? l.exports)].filterMap fun (name, e) => e.map (name, ·)

def allBindings (l : LinkInfo) : List Binding :=
  records l.bindings ++ records l.weakBindings ++ records l.lazyBindings

end LinkInfo
end MachImage
