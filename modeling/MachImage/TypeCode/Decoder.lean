import MachImage.Fault
import MachImage.TypeCode.Basic
/-!
Decoding of type encodings, from left to right. `decodeOne` decodes one type nested at most a
given number of levels deep; what stands inside a type is decoded with one level less. Each step
leaves a shorter rest, and a failure tells how many characters were left where it arose, which
gives its position in the whole.
-/
namespace MachImage.TypeCode

inductive Failure where
  | encoding (cause : EncodingFault) (left : Nat)
  | numeral (cause : Numeral.Fault)
  /-- No frame is left for a call. -/
  | stack

/-- A value and the rest behind it, which is shorter than `bound`. -/
structure Parsed (α : Type) (bound : Nat) where
  value : α
  rest : List Char
  shorter : rest.length < bound

abbrev Step (α : Type) := (s : List Char) → Except Failure (Parsed α s.length)

abbrev Result (α : Type) (s : List Char) := Except Failure (Parsed α (s.length + 1))

def fail {α : Type} (cause : EncodingFault) (left : Nat) : Except Failure α :=
  .error (.encoding cause left)

theorem length_dropWhile_le (p : Char → Bool) (s : List Char) :
    (s.dropWhile p).length ≤ s.length :=
  (List.dropWhile_sublist p).length_le

/-- Const, in, inout, out, bycopy, byref, oneway, atomic and complex. -/
def qualifiers : List Char := ['r', 'n', 'N', 'o', 'O', 'R', 'V', 'A', 'j']

def digits (s : List Char) : Result (Option Nat) s :=
  let run := s.takeWhile Numeral.isDigit
  let rest := s.dropWhile Numeral.isDigit
  have shorter : rest.length < s.length + 1 :=
    Nat.lt_succ_of_le (length_dropWhile_le Numeral.isDigit s)
  if run.isEmpty then .ok ⟨none, rest, shorter⟩
  else match Numeral.value run with
    | .ok n => .ok ⟨some n, rest, shorter⟩
    | .error e => .error (.numeral e)

def until? (stop : Char) (s : List Char) : Option (Parsed String s.length) :=
  match h : s.dropWhile (· ≠ stop) with
  | [] => none
  | c :: rest =>
    some ⟨String.ofList (s.takeWhile (· ≠ stop)), rest, by
      have := length_dropWhile_le (· ≠ stop) s
      simp only [h, List.length_cons] at this
      omega⟩

/-- The texts between a `<` and the next `>` with neither of them in between. `inside` is the text
since the last `<`, the last character first. -/
def protocolNames (inside : Option (List Char)) : List Char → List String
  | [] => []
  | c :: rest =>
    if c = '<' then protocolNames (some []) rest
    else match inside with
      | none => protocolNames none rest
      | some run =>
        if c = '>' then String.ofList run.reverse :: protocolNames none rest
        else protocolNames (some (c :: run)) rest

/-- A class name may be followed by protocols, and either may be missing. -/
def quotedObject (quoted : String) : TypeCode :=
  let cs := quoted.toList
  let name := cs.takeWhile (· ≠ '<')
  .object (if name.isEmpty then none else some (String.ofList name)) (protocolNames none cs)

/-- The types up to a `>`, each with the offset behind it. `opened` counts from the `<`. -/
def blockTypes (one : Step TypeCode) (opened : Nat) :
    (s : List Char) → Result (List TypeCode) s
  | [] => fail .openBlock opened
  | c :: rest => do
    if c = '>' then return ⟨[], rest, by rw [List.length_cons]; omega⟩
    let t ← one (c :: rest)
    let offset ← digits t.rest
    have := t.shorter
    have := offset.shorter
    let more ← blockTypes one opened offset.rest
    have := more.shorter
    return ⟨t.value :: more.value, more.rest, by omega⟩
termination_by s => s.length
decreasing_by simp only [List.length_cons] at *; omega

def decodeBlock (one : Step TypeCode) (s : List Char) : Result TypeCode s :=
  match s with
  | '<' :: rest => do
    let types ← blockTypes one (rest.length + 1) rest
    have := types.shorter
    let signature := match types.value with
      | [] => none
      | returns :: arguments => some ⟨returns, arguments⟩
    return ⟨.block signature, types.rest, by simp only [List.length_cons]; omega⟩
  | s => .ok ⟨.block none, s, by omega⟩

def decodeObject (one : Step TypeCode) (s : List Char) : Result TypeCode s :=
  match s with
  | '?' :: rest => do
    let b ← decodeBlock one rest
    have := b.shorter
    return ⟨b.value, b.rest, by simp only [List.length_cons]; omega⟩
  | '"' :: rest =>
    match until? '"' rest with
    | none => fail .openClassName (rest.length + 1)
    | some quoted =>
      .ok ⟨quotedObject quoted.value, quoted.rest, by
        have := quoted.shorter
        simp only [List.length_cons]
        omega⟩
  | s => .ok ⟨.object none [], s, by omega⟩

def decodeBitfield (s : List Char) : Result TypeCode s := do
  let width ← digits s
  match width.value with
  | none => fail .bitfieldWidth s.length
  | some n => return ⟨.bitfield n, width.rest, width.shorter⟩

def decodeArray (one : Step TypeCode) (s : List Char) : Result TypeCode s := do
  let count ← digits s
  have := count.shorter
  match count.value with
  | none => fail .arrayCount s.length
  | some n =>
    let t ← one count.rest
    have := t.shorter
    match h : t.rest with
    | ']' :: rest =>
      return ⟨.array (some t.value) n, rest, by
        simp only [h, List.length_cons] at this
        omega⟩
    | rest => fail .arrayClose rest.length

def openAggregate : AggregateForm → EncodingFault
  | .struct => .openStruct
  | .union => .openUnion

def decodeMembers (one : Step TypeCode) (form : AggregateForm) (opened : Nat) :
    (s : List Char) → Result (List (Member TypeCode)) s
  | [] => fail (openAggregate form) opened
  | c :: rest => do
    if c = form.closeChar then return ⟨[], rest, by rw [List.length_cons]; omega⟩
    let name : Parsed (Option String) (rest.length + 2) ←
      if c = '"' then
        match until? '"' rest with
        | none => fail .openFieldName opened
        | some quoted => pure ⟨some quoted.value, quoted.rest, by have := quoted.shorter; omega⟩
      else pure ⟨none, c :: rest, by simp⟩
    have := name.shorter
    let t ← one name.rest
    have := t.shorter
    let more ← decodeMembers one form opened t.rest
    have := more.shorter
    return ⟨⟨name.value, t.value⟩ :: more.value, more.rest, by
      simp only [List.length_cons]; omega⟩
termination_by s => s.length
decreasing_by simp only [List.length_cons] at *; omega

def inName (form : AggregateForm) (c : Char) : Bool := c ≠ '=' && c ≠ form.closeChar

def decodeAggregate (one : Step TypeCode) (form : AggregateForm) (s : List Char) :
    Result TypeCode s :=
  let opened := s.length + 1
  let name := String.ofList (s.takeWhile (inName form))
  match h : s.dropWhile (inName form) with
  | [] => fail (openAggregate form) opened
  | c :: rest => do
    have := length_dropWhile_le (inName form) s
    have : rest.length < s.length := by
      simp only [h, List.length_cons] at this
      omega
    if c = form.closeChar then return ⟨.aggregate form (some name) none, rest, by omega⟩
    let ms ← decodeMembers one form opened rest
    have := ms.shorter
    return ⟨.aggregate form (some name) (some ms.value), ms.rest, by omega⟩

def decodeBody (one : Step TypeCode) (c : Char) (s : List Char) : Result TypeCode s :=
  match Primitive.ofCode? c with
  | some p => .ok ⟨.primitive p, s, by omega⟩
  | none =>
    if c = '@' then decodeObject one s
    else if c = '^' then do
      let t ← one s
      return ⟨.pointer (some t.value), t.rest, Nat.lt_succ_of_lt t.shorter⟩
    else if c = '[' then decodeArray one s
    else if c = AggregateForm.struct.openChar then decodeAggregate one .struct s
    else if c = AggregateForm.union.openChar then decodeAggregate one .union s
    else if c = 'b' then decodeBitfield s
    else .ok ⟨.unknown (some c.toString), s, by omega⟩

inductive Reader : Char → (Step TypeCode → (s : List Char) → Result TypeCode s) → Prop
  | primitive (p : Primitive) :
    Reader p.code fun _ s => .ok ⟨.primitive p, s, Nat.lt_succ_self _⟩
  | object : Reader '@' decodeObject
  | pointer : Reader '^' fun one => decodeBody one '^'
  | array : Reader '[' decodeArray
  | aggregate (form : AggregateForm) : Reader form.openChar fun one => decodeAggregate one form
  | bitfield : Reader 'b' fun _ => decodeBitfield
  | unknown (c : Char) (noPrimitive : Primitive.ofCode? c = none)
    (other : c ∉ ['@', '^', '[', '\x7b', '(', 'b']) :
    Reader c fun _ s => .ok ⟨.unknown (some c.toString), s, Nat.lt_succ_self _⟩

theorem decodeBody_reader (c : Char) :
    ∃ f, Reader c f ∧ ∀ one s, decodeBody one c s = f one s := by
  cases code : Primitive.ofCode? c with
  | some p =>
    rw [← Primitive.code_of_ofCode? code]
    refine ⟨_, .primitive p, fun one s => ?_⟩
    unfold decodeBody
    rw [Primitive.ofCode?_code]
  | none =>
    by_cases listed : c ∈ ['@', '^', '[', '\x7b', '(', 'b']
    · simp only [List.mem_cons, List.not_mem_nil, or_false] at listed
      rcases listed with rfl | rfl | rfl | rfl | rfl | rfl
      · exact ⟨_, .object, fun one s => rfl⟩
      · exact ⟨_, .pointer, fun one s => rfl⟩
      · exact ⟨_, .array, fun one s => rfl⟩
      · exact ⟨_, .aggregate .struct, fun one s => rfl⟩
      · exact ⟨_, .aggregate .union, fun one s => rfl⟩
      · exact ⟨_, .bitfield, fun one s => rfl⟩
    · refine ⟨_, .unknown c code listed, fun one s => ?_⟩
      simp only [List.mem_cons, List.not_mem_nil, or_false, not_or] at listed
      unfold decodeBody
      rw [code]
      simp [listed, AggregateForm.openChar]

def qualified (body : Char → (s : List Char) → Result TypeCode s) : Step TypeCode := fun s =>
  match h : s.dropWhile (qualifiers.contains ·) with
  | [] => fail .unexpectedEnd 0
  | c :: rest => do
    let t ← body c rest
    have := length_dropWhile_le (qualifiers.contains ·) s
    have := t.shorter
    return ⟨t.value, t.rest, by simp only [h, List.length_cons] at *; omega⟩

/-- A type and its offset in the frame, which says nothing about the type. -/
def withOffset (one : Step TypeCode) : Step TypeCode := fun s => do
  let t ← one s
  let offset ← digits t.rest
  have := t.shorter
  have := offset.shorter
  return ⟨t.value, offset.rest, by omega⟩

def row (one : Step TypeCode) (s : List Char) : Except Failure (List TypeCode) :=
  if s.isEmpty then .ok []
  else do
    let t ← one s
    have := t.shorter
    return t.value :: (← row one t.rest)
termination_by s.length

def single (one : Step TypeCode) (s : List Char) : Except Failure TypeCode := do
  let t ← one s
  if t.rest.isEmpty then return t.value else fail .trailingData t.rest.length

def signature (one : Step TypeCode) (s : List Char) : Except Failure MethodSignature := do
  let t ← one s
  return ⟨t.value, ← row one t.rest⟩

/-- One type, nested at most so many levels deep. -/
def decodeOne : Nat → Step TypeCode
  | 0, s => fail .tooDeep s.length
  | depth + 1, s => qualified (decodeBody (decodeOne depth)) s

def maxDepth : Nat := 256

def decodeWithOffset : Step TypeCode := withOffset (decodeOne maxDepth)

def decodeAll : List Char → Except Failure (List TypeCode) := row decodeWithOffset

def located {α : Type} (source : String) : Except Failure α → Except Fault α
  | .ok a => .ok a
  | .error (.encoding cause left) => .error (.encoding cause source (source.length - left))
  | .error (.numeral cause) => .error (.misuse (.numeral cause))
  | .error .stack => .error (.misuse .stackExhausted)

def decode (source : String) : Except Fault TypeCode :=
  located source (single decodeWithOffset source.toList)

def decodeSignature (source : String) : Except Fault MethodSignature :=
  located source (signature decodeWithOffset source.toList)

theorem row_nil (one : Step TypeCode) : row one [] = .ok [] := by
  rw [row]
  rfl

theorem row_cons (one : Step TypeCode) (c : Char) (cs : List Char) : row one (c :: cs) = do
    let t ← one (c :: cs)
    return t.value :: (← row one t.rest) := by
  rw [row]
  rfl

theorem decodeAll_of_nil : decodeAll [] = .ok [] := row_nil _

theorem decodeAll_of_cons (c : Char) (cs : List Char) : decodeAll (c :: cs) = do
    let t ← decodeWithOffset (c :: cs)
    return t.value :: (← decodeAll t.rest) :=
  row_cons _ c cs

theorem located_ok {α : Type} {source : String} {x : Except Failure α} {a : α}
    (run : located source x = .ok a) : x = .ok a := by
  match x, run with
  | .ok _, rfl => rfl

end MachImage.TypeCode
