import MachImage.Attempt
import MachImage.TypeCode.Decoder
import MachImage.TypeCode.Printer
import MachImage.Proofs.Text.Numerals
/-!
Type codes such as decoding yields, and the letters of their encodings. Such a code has every part
that its encoding needs, but neighbours of it may run together. In a well-formed code they do not:
the encoding of `id` would become a block before a question mark and a class before a quoted name.
-/
namespace MachImage.TypeCode

mutual

/-- How many levels a code is nested. One without parts has one level. -/
def depth : TypeCode → Nat
  | .primitive _ => 1
  | .unknown _ => 1
  | .object _ _ => 1
  | .block none => 1
  | .block (some ⟨returns, arguments⟩) => max (depth returns) (depths arguments) + 1
  | .pointer none => 1
  | .pointer (some t) => depth t + 1
  | .array none _ => 1
  | .array (some t) _ => depth t + 1
  | .aggregate _ _ none => 1
  | .aggregate _ _ (some members) => memberDepths members + 1
  | .bitfield _ => 1

def depths : List TypeCode → Nat
  | [] => 0
  | t :: ts => max (depth t) (depths ts)

def memberDepths : List (Member TypeCode) → Nat
  | [] => 0
  | ⟨_, t⟩ :: ms => max (depth t) (memberDepths ms)

end

def endsInId : TypeCode → Bool
  | .object none [] => true
  | .pointer (some t) => endsInId t
  | _ => false

def IsPlain (s : String) : Prop := ∀ c ∈ s.toList, c ≠ '"' ∧ c ≠ '<' ∧ c ≠ '>'

/-- Whether a type that ends in `id` keeps its meaning before a type. -/
def Apart (t next : TypeCode) : Prop := endsInId t = true → next.isUnknown = false

def MembersApart (m next : Member TypeCode) : Prop :=
  endsInId m.type = true → next.name = none ∧ next.type.isUnknown = false

def Adjacent {α : Type} (related : α → α → Prop) : List α → Prop
  | a :: b :: rest => related a b ∧ Adjacent related (b :: rest)
  | _ => True

theorem Adjacent.tail {α : Type} {related : α → α → Prop} {a : α} {rest : List α}
    (h : Adjacent related (a :: rest)) : Adjacent related rest := by
  cases rest with
  | nil => trivial
  | cons b rest => exact h.2

mutual

def WellFormed : TypeCode → Prop
  | .primitive _ => True
  | .unknown name => name = some "?"
  | .object name protocols =>
    (∀ s, name = some s → s ≠ "" ∧ IsPlain s) ∧ ∀ p ∈ protocols, IsPlain p
  | .block none => True
  | .block (some ⟨returns, arguments⟩) =>
    WellFormed returns ∧ AllWellFormed arguments ∧ Adjacent Apart (returns :: arguments)
  | .pointer none => False
  | .pointer (some t) => WellFormed t
  | .array none _ => False
  | .array (some t) count => WellFormed t ∧ 0 ≤ count ∧ count < 0x10000000000000000
  | .aggregate form name none =>
    ∃ s, name = some s ∧ ∀ c ∈ s.toList, c ≠ '=' ∧ c ≠ form.closeChar
  | .aggregate form name (some members) =>
    (∃ s, name = some s ∧ ∀ c ∈ s.toList, c ≠ '=' ∧ c ≠ form.closeChar) ∧
    MembersWellFormed members ∧ Adjacent MembersApart members
  | .bitfield width => 0 ≤ width ∧ width < 0x10000000000000000

def AllWellFormed : List TypeCode → Prop
  | [] => True
  | t :: ts => WellFormed t ∧ AllWellFormed ts

def MembersWellFormed : List (Member TypeCode) → Prop
  | [] => True
  | ⟨name, t⟩ :: ms =>
    (∀ s, name = some s → ∀ c ∈ s.toList, c ≠ '"') ∧ WellFormed t ∧ MembersWellFormed ms

end

/-- A character that no type begins with. -/
def Unread (c : Char) : Prop :=
  Primitive.ofCode? c = none ∧ c ∉ ['@', '^', '[', '\x7b', '(', 'b'] ∧ qualifiers.contains c = false

def Short (n : Int) : Prop := 0 ≤ n ∧ (Nat.toDigits 10 n.toNat).length ≤ Numeral.limit

mutual

/-- What decoding yields: each part on its own, whatever its neighbours are. -/
def Decoded : TypeCode → Prop
  | .primitive _ => True
  | .unknown name => ∃ c : Char, name = some c.toString ∧ Unread c
  | .object name protocols =>
    (∀ s, name = some s → s ≠ "" ∧ ∀ c ∈ s.toList, c ≠ '"' ∧ c ≠ '<') ∧ ∀ p ∈ protocols, IsPlain p
  | .block none => True
  | .block (some ⟨returns, arguments⟩) => Decoded returns ∧ AllDecoded arguments
  | .pointer none => False
  | .pointer (some t) => Decoded t
  | .array none _ => False
  | .array (some t) count => Decoded t ∧ Short count
  | .aggregate form name none =>
    ∃ s, name = some s ∧ ∀ c ∈ s.toList, c ≠ '=' ∧ c ≠ form.closeChar
  | .aggregate form name (some members) =>
    (∃ s, name = some s ∧ ∀ c ∈ s.toList, c ≠ '=' ∧ c ≠ form.closeChar) ∧ MembersDecoded members
  | .bitfield width => Short width

def AllDecoded : List TypeCode → Prop
  | [] => True
  | t :: ts => Decoded t ∧ AllDecoded ts

def MembersDecoded : List (Member TypeCode) → Prop
  | [] => True
  | ⟨name, t⟩ :: ms =>
    (∀ s, name = some s → ∀ c ∈ s.toList, c ≠ '"') ∧ Decoded t ∧ MembersDecoded ms

end

theorem short_of_word {n : Int} (nonnegative : 0 ≤ n) (word : n < 0x10000000000000000) : Short n :=
  ⟨nonnegative, Numeral.length_toDigits_le (by omega)⟩

mutual

theorem WellFormed.decoded : ∀ {t}, WellFormed t → Decoded t
  | .primitive _, _ => trivial
  | .unknown name, wf => ⟨'?', wf, by decide, by decide, by decide⟩
  | .object name protocols, wf =>
    ⟨fun s named => ⟨(wf.1 s named).1, fun c member =>
      ⟨((wf.1 s named).2 c member).1, ((wf.1 s named).2 c member).2.1⟩⟩, wf.2⟩
  | .block none, _ => trivial
  | .block (some ⟨_, _⟩), wf => ⟨wf.1.decoded, AllWellFormed.decoded wf.2.1⟩
  | .pointer none, wf => wf
  | .pointer (some t), wf => WellFormed.decoded (t := t) wf
  | .array none _, wf => wf
  | .array (some _) _, wf => ⟨wf.1.decoded, short_of_word wf.2.1 wf.2.2⟩
  | .aggregate _ _ none, wf => wf
  | .aggregate _ _ (some _), wf => ⟨wf.1, MembersWellFormed.decoded wf.2.1⟩
  | .bitfield _, wf => short_of_word wf.1 wf.2

theorem AllWellFormed.decoded : ∀ {ts}, AllWellFormed ts → AllDecoded ts
  | [], _ => trivial
  | _ :: _, wf => ⟨wf.1.decoded, AllWellFormed.decoded wf.2⟩

theorem MembersWellFormed.decoded : ∀ {ms}, MembersWellFormed ms → MembersDecoded ms
  | [], _ => trivial
  | ⟨_, _⟩ :: _, wf => ⟨wf.1, wf.2.1.decoded, MembersWellFormed.decoded wf.2.2⟩

end

def protocolLetters : List String → List Char
  | [] => []
  | p :: ps => '<' :: (p.toList ++ '>' :: protocolLetters ps)

def nameLetters (name : Option String) : List Char := (name.getD "").toList

mutual

def letters : TypeCode → List Char
  | .primitive p => [p.code]
  | .unknown name => (name.getD "?").toList
  | .object none [] => ['@']
  | .object name protocols => '@' :: '"' :: (nameLetters name ++ protocolLetters protocols ++ ['"'])
  | .block none => ['@', '?']
  | .block (some ⟨returns, arguments⟩) =>
    '@' :: '?' :: '<' :: (letters returns ++ allLetters arguments ++ ['>'])
  | .pointer none => []
  | .pointer (some t) => '^' :: letters t
  | .array none _ => []
  | .array (some t) count => '[' :: (Nat.toDigits 10 count.toNat ++ letters t ++ [']'])
  | .aggregate form name none => form.openChar :: (nameLetters name ++ [form.closeChar])
  | .aggregate form name (some members) =>
    form.openChar :: (nameLetters name ++ '=' :: (memberLetters members ++ [form.closeChar]))
  | .bitfield width => 'b' :: Nat.toDigits 10 width.toNat

def allLetters : List TypeCode → List Char
  | [] => []
  | t :: ts => letters t ++ allLetters ts

def memberLetters : List (Member TypeCode) → List Char
  | [] => []
  | ⟨none, t⟩ :: ms => letters t ++ memberLetters ms
  | ⟨some name, t⟩ :: ms => '"' :: (name.toList ++ '"' :: (letters t ++ memberLetters ms))

end

theorem letters_named {name : Option String} {protocols : List String}
    (named : ¬ (name = none ∧ protocols = [])) :
    letters (.object name protocols) =
      '@' :: '"' :: (nameLetters name ++ protocolLetters protocols ++ ['"']) := by
  rw [letters]
  intro none nil
  exact named ⟨none, nil⟩

theorem join_protocols (protocols : List String) :
    String.join (protocols.map fun p => "<" ++ p ++ ">") =
      String.ofList (protocolLetters protocols) := by
  induction protocols with
  | nil => rfl
  | cons p ps ih =>
    rw [List.map_cons, String.join_cons, ih]
    apply String.toList_injective
    simp [protocolLetters]

theorem written_of_short {n : Int} (short : Short n) :
    written n = .ok (String.ofList (Nat.toDigits 10 n.toNat)) := by
  obtain ⟨k, rfl⟩ := Int.eq_ofNat_of_zero_le short.1
  have digits : Numeral.write? k = some (String.ofList (Nat.toDigits 10 k)) :=
    Numeral.write?_of_short short.2
  rw [written, digits]
  rfl

theorem encoded {s : String} {cs : List Char} (h : s.toList = cs) :
    (.ok s : Except Fault String) = .ok (String.ofList cs) := by
  rw [← h, String.ofList_toList]

theorem encoding_object (name : Option String) (protocols : List String) :
    encoding (.object name protocols) = .ok (String.ofList (letters (.object name protocols))) := by
  cases name with
  | none =>
    cases protocols with
    | nil => rfl
    | cons p ps =>
      rw [encoding, letters, join_protocols]
      · apply encoded
        simp [nameLetters]
      · simp
      · simp
  | some s =>
    rw [encoding, letters, join_protocols]
    · apply encoded
      simp [nameLetters]
    · simp
    · simp

mutual

theorem encoding_eq : ∀ t, Decoded t → encoding t = .ok (String.ofList (letters t))
  | .primitive p, _ => by
    rw [encoding, letters]
    rfl
  | .unknown name, decoded => by
    obtain ⟨c, rfl, -⟩ := decoded
    simp [encoding, letters]
  | .object name protocols, _ => encoding_object name protocols
  | .block none, _ => rfl
  | .block (some ⟨returns, arguments⟩), decoded => by
    rw [encoding, encoding_eq returns decoded.1, encodings_eq arguments decoded.2, letters]
    apply encoded
    simp
  | .pointer none, decoded => absurd decoded id
  | .pointer (some t), decoded => by
    rw [encoding, encoding_eq t decoded, letters]
    apply encoded
    simp
  | .array none _, decoded => absurd decoded id
  | .array (some t) count, decoded => by
    rw [encoding, written_of_short decoded.2, ok_bind]
    dsimp only
    rw [encoding_eq t decoded.1, letters]
    apply encoded
    simp
  | .aggregate form name none, decoded => by
    obtain ⟨s, rfl, -⟩ := decoded
    rw [encoding, letters]
    apply encoded
    simp [nameLetters]
  | .aggregate form name (some members), decoded => by
    obtain ⟨⟨s, rfl, -⟩, members⟩ := decoded
    rw [encoding, memberEncodings_eq _ members, letters]
    apply encoded
    simp [nameLetters]
  | .bitfield width, decoded => by
    rw [encoding, written_of_short decoded, letters]
    apply encoded
    simp

theorem encodings_eq :
    ∀ ts, AllDecoded ts → encodings ts = .ok (String.ofList (allLetters ts))
  | [], _ => rfl
  | t :: ts, decoded => by
    rw [encodings, encoding_eq t decoded.1, encodings_eq ts decoded.2, allLetters]
    apply encoded
    simp

theorem memberEncodings_eq :
    ∀ ms, MembersDecoded ms → memberEncodings ms = .ok (String.ofList (memberLetters ms))
  | [], _ => rfl
  | ⟨none, t⟩ :: ms, decoded => by
    rw [memberEncodings, encoding_eq t decoded.2.1, memberEncodings_eq ms decoded.2.2,
      memberLetters]
    apply encoded
    simp
  | ⟨some name, t⟩ :: ms, decoded => by
    rw [memberEncodings, encoding_eq t decoded.2.1, memberEncodings_eq ms decoded.2.2,
      memberLetters]
    apply encoded
    simp

end

theorem signatureEncoding_eq {s : MethodSignature} (returns : Decoded s.returns)
    (arguments : AllDecoded s.arguments) :
    signatureEncoding s = .ok (String.ofList (letters s.returns ++ allLetters s.arguments)) := by
  rw [signatureEncoding, encoding_eq _ returns, encodings_eq _ arguments]
  apply encoded
  simp

end MachImage.TypeCode
