import MachImage.Text.Quoted
/-!
What the Objective-C runtime is told of classes, protocols and categories, with names in place of
addresses, and the short text of each.
-/
namespace MachImage.Objc

structure Method where
  name : String
  typeEncoding : String
  /-- Zero where a method is only declared. -/
  implementation : Int
  isClassMethod : Bool

structure Property where
  name : String
  attributes : String

structure Ivar where
  name : String
  typeEncoding : String
  offset : Nat
  size : Nat
  alignment : Nat

structure SelectorReference where
  selector : String
  slot : Nat
  literal : Nat

structure Protocol where
  name : String
  address : Nat
  bases : List String := []
  instanceMethods : List Method := []
  classMethods : List Method := []
  optionalInstanceMethods : List Method := []
  optionalClassMethods : List Method := []
  instanceProperties : List Property := []
  classProperties : List Property := []

structure Body where
  metaclass : Option Nat := none
  instanceMethods : List Method := []
  classMethods : List Method := []
  properties : List Property := []
  classProperties : List Property := []
  ivars : List Ivar := []
  protocols : List String := []

structure Class where
  name : String
  address : Nat
  isSwift : Bool
  /-- A root class has none. -/
  superclass : Option String
  body : Body

structure Category where
  name : String
  /-- Where the extended class lies, if the category says so and has not been resolved. -/
  target : Option Nat
  instanceMethods : List Method := []
  classMethods : List Method := []
  protocols : List String := []
  properties : List Property := []
  /-- Categories list no properties of the class itself. -/
  classProperties : List Property := []

structure ForeignCategory where
  category : Category
  className : String

def Body.selectors (b : Body) : List Method := b.instanceMethods ++ b.classMethods

def adopt (names more : List String) : List String :=
  more.foldl (fun known name => if name ∈ known then known else known ++ [name]) names

/-- The body with what a category adds. Each list keeps its order, and the addition comes last. -/
def Body.extend (b : Body) (c : Category) : Body :=
  { b with
    instanceMethods := b.instanceMethods ++ c.instanceMethods
    classMethods := b.classMethods ++ c.classMethods
    properties := b.properties ++ c.properties
    classProperties := b.classProperties ++ c.classProperties
    protocols := adopt b.protocols c.protocols }

def Method.text (m : Method) : String :=
  let sign := if m.isClassMethod then "+" else "-"
  let place := if m.implementation = 0 then "NaN" else Hex.number m.implementation
  s!"<{sign}[{m.name}] {m.typeEncoding} at {place}>"

def Property.text (p : Property) : String := s!"<@property {p.name} {p.attributes}>"

def Ivar.text (v : Ivar) : String := s!"<@ivar {v.typeEncoding} {v.name}, off @ {v.offset}>"

def SelectorReference.text (s : SelectorReference) : String :=
  s!"<ObjcSelref source={Hex.number s.slot} dest={Hex.number s.literal} sel={s.selector}>"

def Protocol.methods (p : Protocol) : List Method :=
  p.instanceMethods ++ p.classMethods ++ p.optionalInstanceMethods ++ p.optionalClassMethods

def Protocol.text (p : Protocol) : String :=
  s!"<@protocol {p.name} sel_count={p.methods.length} base_protocols={Quoted.texts p.bases}>"

def Class.heading (c : Class) : String :=
  match c.superclass with
  | some s => s!"{c.name} : {s}"
  | none => s!"{c.name} : None"

def Class.title (c : Class) : String := s!"ObjcClass({c.heading})"

def Class.text (c : Class) : String :=
  let b := c.body
  s!"<@class {c.heading} sel_count={b.selectors.length} ivar_count={b.ivars.length}" ++
    s!" protocol_count={b.protocols.length}>"

def ForeignCategory.fullName (f : ForeignCategory) : String :=
  s!"{f.className} ({f.category.name})"

def ForeignCategory.title (f : ForeignCategory) : String := s!"ObjcCategory({f.fullName})"

def ForeignCategory.text (f : ForeignCategory) : String :=
  let c := f.category
  let methods := c.instanceMethods.length + c.classMethods.length
  s!"<@category {f.fullName} sel_count={methods} protocol_count={c.protocols.length}>"

theorem extend_instanceMethods (b : Body) (cs : List Category) :
    (cs.foldl Body.extend b).instanceMethods =
      b.instanceMethods ++ cs.flatMap (·.instanceMethods) := by
  induction cs generalizing b with
  | nil => simp
  | cons c cs ih => simp [ih, Body.extend]

theorem extend_classMethods (b : Body) (cs : List Category) :
    (cs.foldl Body.extend b).classMethods = b.classMethods ++ cs.flatMap (·.classMethods) := by
  induction cs generalizing b with
  | nil => simp
  | cons c cs ih => simp [ih, Body.extend]

theorem extend_properties (b : Body) (cs : List Category) :
    (cs.foldl Body.extend b).properties = b.properties ++ cs.flatMap (·.properties) := by
  induction cs generalizing b with
  | nil => simp
  | cons c cs ih => simp [ih, Body.extend]

end MachImage.Objc
