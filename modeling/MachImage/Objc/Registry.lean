import MachImage.Halting
import MachImage.Objc.Listing
/-!
The classes of an image while they are found out about. A first pass enters every class of the class
list that can be read under its address, with its name alone. A second pass goes over these classes,
names their superclasses and fills in their bodies. At last each category is merged into the class
that it names, or handed back if no such class was entered.
-/
namespace MachImage.Objc

def Declaration.entered (demangler : Demangler) (d : Declaration) : Class where
  name := d.name demangler
  address := d.address
  isSwift := isSwift d.record
  superclass := none
  body := {}

structure Registry where
  /-- By address, in the order of the class list. -/
  classes : Table Nat Class := []
  /-- The superclasses that have not been named yet, by the address of the class below. -/
  pending : Table Nat Nat := []
  /-- The data of metaclasses, by address, as far as it was read. -/
  metaclasses : Table Nat ClassData := []

namespace Registry

def updateClass (p : Nat) (f : Class → Class) (t : Registry) : Registry :=
  { t with classes := t.classes.update p f }

def updateBody (p : Nat) (f : Body → Body) : Registry → Registry :=
  updateClass p fun c => { c with body := f c.body }

def enter (demangler : Demangler) (d : Declaration) (t : Registry) : Registry :=
  { t with
    classes := t.classes ++ [(d.address, d.entered demangler)]
    pending := t.pending ++ (d.superclass?.map fun q => (d.address, q)).toList }

end Registry

abbrev Pass (α : Type) := Halting Registry Fault α

namespace Pass
open Halting Registry

section
variable (i : Image) (demangler : Demangler)

/-- An address that was entered before is not read again. -/
def enterClass (p : Nat) : Pass Unit := do
  if ((← get).classes.get? p).isNone then
    match (← ofResult (attempt (Declaration.read i p))).join with
    | some d => modify (enter demangler d)
    | none => return

def enterClasses : Pass Unit := do
  forM (targets (← ofResult (readSlots i classSection))) (enterClass i demangler)

/-- The name of a class that was entered, or else what the address says. -/
def className (p : Nat) : Pass String := do
  match (← get).classes.get? p with
  | some c => return c.name
  | none => ofResult (classNameAt i demangler p)

def nameSuperclass (p : Nat) : Pass Unit := do
  match (← get).pending.get? p with
  | none => return
  | some q =>
    modify fun t => { t with pending := t.pending.erase p }
    let name ← className i demangler q
    modify (updateClass p fun c => { c with superclass := some name })

def nameSuperclasses : Pass Unit := do
  forM (← get).classes.keys (nameSuperclass i demangler)

def fillList {α : Type} (p : Nat) (read : Except Fault (List α)) (set : List α → Body → Body) :
    Pass Unit := do
  let entries ← ofResult read
  modify (updateBody p (set entries))

def fillInstance (p : Nat) (d : ClassData) : Pass Unit := do
  fillList p (Method.list false i d.methods) fun xs b => { b with instanceMethods := xs }
  fillList p (Property.list i d.properties) fun xs b => { b with properties := xs }
  fillList p (protocolNames i d.protocols) fun xs b => { b with protocols := xs }
  fillList p (Ivar.list i d.ivars) fun xs b => { b with ivars := xs }

/-- Metaclasses may be shared, and each is read once. -/
def metaclassData (metaclass : Nat) : Pass ClassData := do
  match (← get).metaclasses.get? metaclass with
  | some d => return d
  | none =>
    let (_, d) ← ofResult (classRecordAt i metaclass)
    modify fun t => { t with metaclasses := t.metaclasses ++ [(metaclass, d)] }
    return d

/-- Class methods and class properties are those that the metaclass holds for its instances. -/
def fillClass (p metaclass : Nat) : Pass Unit := do
  if metaclass ≠ 0 then
    modify (updateBody p fun b => { b with metaclass := some metaclass })
    let d ← metaclassData i metaclass
    fillList p (Method.list true i d.methods) fun xs b => { b with classMethods := xs }
    fillList p (Property.list i d.properties) fun xs b => { b with classProperties := xs }

/-- A fault ends the filling of this body, and what was filled in before it stays. -/
def fillBody (p : Nat) : Pass Unit := do
  let own : Pass ClassRecord := do
    let (r, d) ← ofResult (classRecordAt i p)
    fillInstance i p d
    return r
  match ← own.attempted with
  | none => return
  | some r =>
    let _ ← (fillClass i p r.metaclass).attempted

def fillBodies : Pass Unit := do
  forM (← get).classes.keys (fillBody i)

/-- Merges a category, or hands it back with what its class is called. -/
def mergeCategory (c : Category) : Pass (Option ForeignCategory) := do
  let apart (className : String) : ForeignCategory :=
    { category := { c with target := none }, className }
  match c.target with
  | none => return some (apart foreignName)
  | some p =>
    match (← get).classes.get? p with
    | none => return some (apart (← className i demangler p))
    | some _ =>
      modify (updateBody p fun b => b.extend c)
      return none

def mergeCategories : List Category → Pass (List ForeignCategory)
  | [] => return []
  | c :: cs => do
    let apart ← mergeCategory i demangler c
    let others ← mergeCategories cs
    return apart.toList ++ others

end
end Pass
end MachImage.Objc
