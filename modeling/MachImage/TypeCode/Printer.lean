import MachImage.Fault
import MachImage.TypeCode.Basic
/-!
Two ways to write a type code: as the encoding that decodes to it, without qualifiers and offsets,
and as it is declared in source. Both fail on a pointer or array without an element.
-/
namespace MachImage.TypeCode

def written (n : Int) : Except Fault String :=
  match Numeral.write? n with
  | some s => .ok s
  | none => .error (.misuse .wideNumber)

def noElement (kind : String) : Except Fault String := .error (.misuse (.noElement kind))

def missingName : String := "None"

mutual

def encoding : TypeCode → Except Fault String
  | .primitive p => .ok p.code.toString
  | .unknown name =>
    match name with
    | some s => .ok (if s = "" then "?" else s)
    | none => .ok "?"
  | .object name protocols =>
    match name, protocols with
    | none, [] => .ok "@"
    | _, _ =>
      let list := String.join (protocols.map fun p => "<" ++ p ++ ">")
      .ok ("@\"" ++ name.getD "" ++ list ++ "\"")
  | .block none => .ok "@?"
  | .block (some ⟨returns, arguments⟩) => do
    let first ← encoding returns
    return "@?<" ++ first ++ (← encodings arguments) ++ ">"
  | .pointer none => noElement "POINTER"
  | .pointer (some t) => do return "^" ++ (← encoding t)
  | .array element count => do
    let count ← written count
    match element with
    | none => noElement "ARRAY"
    | some t => return "[" ++ count ++ (← encoding t) ++ "]"
  | .aggregate form name none =>
    .ok (form.openChar.toString ++ name.getD missingName ++ form.closeChar.toString)
  | .aggregate form name (some members) => do
    return form.openChar.toString ++ name.getD missingName ++ "=" ++
      (← memberEncodings members) ++ form.closeChar.toString
  | .bitfield width => do return "b" ++ (← written width)

def encodings : List TypeCode → Except Fault String
  | [] => .ok ""
  | t :: ts => do return (← encoding t) ++ (← encodings ts)

def memberEncodings : List (Member TypeCode) → Except Fault String
  | [] => .ok ""
  | ⟨none, t⟩ :: ms => do return (← encoding t) ++ (← memberEncodings ms)
  | ⟨some name, t⟩ :: ms => do
    return "\"" ++ name ++ "\"" ++ (← encoding t) ++ (← memberEncodings ms)

end

def signatureEncoding (s : MethodSignature) : Except Fault String := do
  return (← encoding s.returns) ++ (← encodings s.arguments)

/-- A pointer to what cannot be known is a pointer to a function. -/
def isUnknown : TypeCode → Bool
  | .unknown _ => true
  | _ => false

mutual

def declaration : TypeCode → Except Fault String
  | .primitive p => .ok p.spelling
  | .unknown name =>
    match name with
    | some s => .ok ("/*?" ++ (if s = "" then "?" else s) ++ "?*/")
    | none => .ok "/*???*/"
  | .object name protocols =>
    let list := if protocols = [] then "" else "<" ++ ", ".intercalate protocols ++ ">"
    match name with
    | none => .ok ("id" ++ list)
    | some s => .ok (s ++ list ++ " *")
  | .block none => .ok "void (^)(void)"
  | .block (some ⟨returns, arguments⟩) => do
    let list ← match arguments with
      | [] => pure []
      | _ :: rest => declarations rest
    let list := if list.isEmpty then "void" else ", ".intercalate list
    return (← declaration returns) ++ " (^)(" ++ list ++ ")"
  | .pointer none => noElement "POINTER"
  | .pointer (some t) => do
    if t.isUnknown then return "void *"
    let pointee ← declaration t
    return if pointee.endsWith "*" then pointee ++ "*" else pointee ++ " *"
  | .array none _ => noElement "ARRAY"
  | .array (some t) count => do
    let element ← declaration t
    return element ++ "[" ++ (← written count) ++ "]"
  | .aggregate form name _ =>
    match name with
    | none => .ok (form.spelling ++ " <anonymous>")
    | some s =>
      .ok (form.spelling ++ " " ++ if s = "" || s = "?" then "<anonymous>" else s)
  | .bitfield width => do return "unsigned int /* bitfield :" ++ (← written width) ++ " */"

def declarations : List TypeCode → Except Fault (List String)
  | [] => .ok []
  | t :: ts => do return (← declaration t) :: (← declarations ts)

end

end MachImage.TypeCode
