import MachImage.Demangler
import MachImage.Objc.EntryList
/-!
What one address says. A declaration is a class whose two records and whose name can be read. It
can be followed to the body of its class, whether or not the image lists the class. Protocols,
categories and selector references are read whole or not at all.
-/
namespace MachImage.Objc

structure Declaration where
  address : Nat
  record : ClassRecord
  data : ClassData
  /-- As it is written, perhaps mangled. -/
  rawName : String

/-- The address of a class's data, whose two low bits are kept for flags. -/
def dataAddress (r : ClassRecord) : Nat := r.data / 4 * 4

def isSwift (r : ClassRecord) : Bool := r.data % 4 ≠ 0

def classRecordAt (i : Image) (address : Nat) : Except Fault (ClassRecord × ClassData) := do
  let r := (← i.recordAt ClassRecord address).value
  return (r, (← i.recordAt ClassData (dataAddress r)).value)

namespace Declaration

def read (i : Image) (address : Nat) : Except Fault (Option Declaration) := do
  let (record, data) ← classRecordAt i address
  if data.name = 0 then return none
  return some { address, record, data, rawName := ← i.stringAt data.name }

def at? (i : Image) (address : Nat) : Option Declaration := (read i address).toOption.join

def mangled? (d : Declaration) : Option String :=
  if isSwift d.record then some d.rawName else none

def name (demangler : Demangler) (d : Declaration) : String :=
  match d.mangled? with
  | some m => demangler.shown m
  | none => d.rawName

def superclass? (d : Declaration) : Option Nat :=
  if d.record.superclass = 0 then none else some d.record.superclass

end Declaration

def foreignName : String := "<External>"

def classNameAt (i : Image) (demangler : Demangler) (address : Nat) : Except Fault String := do
  match (← attempt (Declaration.read i address)).join with
  | some d => return d.name demangler
  | none => return foreignName

/-- The size from which on a protocol holds class properties, behind its other fields. -/
def classPropertiesEnd : Nat := 0x60

def protocolAt (i : Image) (address : Nat) : Except Fault Protocol := do
  let p := (← i.recordAt ProtocolRecord address).value
  let slot := address + classPropertiesEnd - pointerSize
  return {
    name := ← stringOr i p.name "?PROTOCOL?"
    address
    bases := ← protocolNames i p.protocols
    instanceMethods := ← Method.list false i p.instanceMethods
    classMethods := ← Method.list true i p.classMethods
    optionalInstanceMethods := ← Method.list false i p.optionalInstanceMethods
    optionalClassMethods := ← Method.list true i p.optionalClassMethods
    instanceProperties := ← Property.list i p.instanceProperties
    classProperties := ←
      if p.size < classPropertiesEnd then pure [] else do Property.list i (← i.pointerAt slot) }

def categoryAt (i : Image) (address : Nat) : Except Fault (Option Category) := do
  let c := (← i.recordAt CategoryRecord address).value
  if c.name = 0 then return none
  return some {
    name := ← i.stringAt c.name
    target := if c.baseClass = 0 then none else some c.baseClass
    instanceMethods := ← Method.list false i c.instanceMethods
    classMethods := ← Method.list true i c.classMethods
    protocols := ← protocolNames i c.protocols
    properties := ← Property.list i c.instanceProperties }

def selectorAt (i : Image) (slot : Nat × Nat) : Except Fault (Option SelectorReference) :=
  let (place, literal) := slot
  if literal = 0 then .ok none
  else (i.stringAt literal).map fun selector => some { selector, slot := place, literal }

end MachImage.Objc
