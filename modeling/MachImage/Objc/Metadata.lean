import MachImage.Objc.Registry
/-!
The runtime metadata of a whole image. Five sections list what there is; each list is followed in
order, and what cannot be read is left out. Of two classes or protocols of one name the first is
kept, whatever the passes over the classes have put into the other one.
-/
namespace MachImage.Objc

structure Metadata where
  classes : Table String Class
  protocols : Table String Protocol
  categories : List ForeignCategory
  selectorReferences : List SelectorReference

def readProtocols (i : Image) : Except Fault (Table String Protocol) := do
  let found ← gather (fun p => (protocolAt i p).map some) (targets (← readSlots i protocolSection))
  return .ofListFirst (found.map fun q => (q.name, q))

def readCategories (i : Image) : Except Fault (List Category) := do
  gather (categoryAt i) (targets (← readSlots i categorySection))

def readSelectors (i : Image) : Except Fault (List SelectorReference) := do
  gather (selectorAt i) (← readSlots i selectorSection)

open Halting in
def Pass.extract (i : Image) (demangler : Demangler) : Pass Metadata := do
  let present := sectionNames.filter fun name => (i.dataSection? name).isSome
  if present = [] then throw .noRuntimeData
  if classSection ∈ present ∧ constantSection ∉ present then throw .noConstantData
  let protocols ← ofResult (readProtocols i)
  enterClasses i demangler
  let cs ← ofResult (readCategories i)
  nameSuperclasses i demangler
  fillBodies i
  let categories ← mergeCategories i demangler cs
  let selectorReferences ← ofResult (readSelectors i)
  let recorded := (← get).classes.values
  return {
    classes := .ofListFirst (recorded.map fun c => (c.name, c))
    protocols, categories, selectorReferences }

namespace Metadata

def ofImage (i : Image) (demangler : Demangler) : Except Fault Metadata :=
  ((Pass.extract i demangler).outcome {}).1

def withoutIvars (m : Metadata) : List Class :=
  m.classes.values.map fun c => { c with body := { c.body with ivars := [] } }

def implementations (m : Metadata) (selector : String) : List Int :=
  ((m.classes.values.flatMap (·.body.selectors)).filter fun method =>
    method.name = selector ∧ method.implementation ≠ 0).map (·.implementation)

def referenceOf? (m : Metadata) (selector : String) : Option SelectorReference :=
  m.selectorReferences.find? (·.selector = selector)

def text (m : Metadata) : String :=
  s!"<ObjcMetadata classes={m.classes.length} protocols={m.protocols.length}" ++
    s!" categories={m.categories.length} selrefs={m.selectorReferences.length}>"

end Metadata

end MachImage.Objc
