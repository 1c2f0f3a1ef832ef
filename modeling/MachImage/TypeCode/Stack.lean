import MachImage.TypeCode.Decoder
/-!
The decoders on a stack with so many frames. Every call that decodes a type or a part of one takes
a frame for as long as it runs, and a call for which none is left fails, which nothing catches. The
calls that only look at characters or build a value are not counted: they call no decoder, and the
few frames that they take on top of any other call are none of those counted here.
-/
namespace MachImage.TypeCode

/-- Calls one within the other, each of which leaves the other frames to what it calls. -/
def calls {α : Type} (count : Nat) (body : Nat → Except Failure α) (frames : Nat) :
    Except Failure α :=
  if frames < count then .error .stack else body (frames - count)

/-- The calls that lead to what a type is by its first character. A block is called by an object,
and pointers and primitives are decoded on the spot. -/
def bodyCalls (c : Char) (s : List Char) : Nat :=
  if c = '@' then if s.head? = some '?' then 2 else 1
  else if c ∈ ['[', '{', '(', 'b'] then 1
  else 0

def partCalls (c : Char) : Nat := if c = '@' then 1 else 0

def decodeBodyOn (one : Nat → Step TypeCode) (frames : Nat) (c : Char) (s : List Char) :
    Result TypeCode s :=
  calls (bodyCalls c s)
    (fun left => decodeBody (fun s => calls (partCalls c) (fun left => one left s) left) c s) frames

def decodeOneOn (depth frames : Nat) : Step TypeCode := fun s =>
  match depth with
  | 0 => calls 1 (fun _ => fail .tooDeep s.length) frames
  | depth + 1 => calls 1 (fun left => qualified (decodeBodyOn (decodeOneOn depth) left) s) frames

def decodeWithOffsetOn (frames : Nat) : Step TypeCode := fun s =>
  calls 1 (fun left => withOffset (decodeOneOn maxDepth left) s) frames

/-- `decode`, called when so many frames are left. -/
def decodeOn (frames : Nat) (source : String) : Except Fault TypeCode :=
  located source (calls 1 (fun left => single (decodeWithOffsetOn left) source.toList) frames)

def decodeSignatureOn (frames : Nat) (source : String) : Except Fault MethodSignature :=
  located source (calls 1 (fun left => signature (decodeWithOffsetOn left) source.toList) frames)

end MachImage.TypeCode
