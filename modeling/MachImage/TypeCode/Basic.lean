/-!
Type codes: what a type encoding of the runtime says. Pointers and arrays have an element, structs
and unions may have their members, blocks may have their signature. A code can be built without
the parts that its encoding needs; decoding never builds one like that.
-/
namespace MachImage

inductive Primitive where
  | char | unsignedChar | short | unsignedShort | int | unsignedInt | long | unsignedLong
  | longLong | unsignedLongLong | float | double | longDouble | bool | void | cString
  | classObject | selector
  deriving DecidableEq

namespace Primitive

def all : List Primitive :=
  [.char, .unsignedChar, .short, .unsignedShort, .int, .unsignedInt, .long, .unsignedLong,
   .longLong, .unsignedLongLong, .float, .double, .longDouble, .bool, .void, .cString,
   .classObject, .selector]

def code : Primitive → Char
  | .char => 'c'
  | .unsignedChar => 'C'
  | .short => 's'
  | .unsignedShort => 'S'
  | .int => 'i'
  | .unsignedInt => 'I'
  | .long => 'l'
  | .unsignedLong => 'L'
  | .longLong => 'q'
  | .unsignedLongLong => 'Q'
  | .float => 'f'
  | .double => 'd'
  | .longDouble => 'D'
  | .bool => 'B'
  | .void => 'v'
  | .cString => '*'
  | .classObject => '#'
  | .selector => ':'

def spelling : Primitive → String
  | .char => "char"
  | .unsignedChar => "unsigned char"
  | .short => "short"
  | .unsignedShort => "unsigned short"
  | .int => "int"
  | .unsignedInt => "unsigned int"
  | .long => "long"
  | .unsignedLong => "unsigned long"
  | .longLong => "long long"
  | .unsignedLongLong => "unsigned long long"
  | .float => "float"
  | .double => "double"
  | .longDouble => "long double"
  | .bool => "BOOL"
  | .void => "void"
  | .cString => "char *"
  | .classObject => "Class"
  | .selector => "SEL"

def ofCode? (c : Char) : Option Primitive := all.find? (·.code = c)

theorem ofCode?_code (p : Primitive) : ofCode? p.code = some p := by
  cases p <;> decide

theorem code_of_ofCode? {c : Char} {p : Primitive} (h : ofCode? c = some p) : p.code = c := by
  simpa using List.find?_some h

end Primitive

inductive AggregateForm where
  | struct | union
  deriving DecidableEq

namespace AggregateForm

def spelling : AggregateForm → String
  | .struct => "struct"
  | .union => "union"

def openChar : AggregateForm → Char
  | .struct => '\x7b'
  | .union => '('

def closeChar : AggregateForm → Char
  | .struct => '\x7d'
  | .union => ')'

end AggregateForm

structure Member (α : Type) where
  name : Option String
  type : α

structure Signature (α : Type) where
  returns : α
  arguments : List α

inductive TypeCode where
  | primitive (p : Primitive)
  | unknown (name : Option String)
  | object (name : Option String) (protocols : List String)
  | block (signature : Option (Signature TypeCode))
  | pointer (element : Option TypeCode)
  | array (element : Option TypeCode) (count : Int)
  | aggregate (form : AggregateForm) (name : Option String)
      (members : Option (List (Member TypeCode)))
  | bitfield (width : Int)

abbrev MethodSignature := Signature TypeCode

def Signature.explicit {α : Type} (s : Signature α) : List α := s.arguments.drop 2

end MachImage
