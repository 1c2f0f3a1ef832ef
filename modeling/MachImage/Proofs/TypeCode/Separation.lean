import MachImage.Proofs.TypeCode.Letters
/-!
What keeps printed types apart. An encoding has nothing between a type and what follows, so a type
may take a letter behind it as its own, a place may not let a type begin as it does, and digits
behind an argument count as its offset. A code is separated if that happens nowhere in it.
-/
namespace MachImage.TypeCode

def takes : TypeCode → Char → Bool
  | .object none [], c => c = '?' || c = '"'
  | .block none, c => c = '<'
  | .bitfield _, c => Numeral.isDigit c
  | .pointer (some t), c => takes t c
  | _, _ => false

/-- Text that a type does not run into. -/
def Clear (t : TypeCode) (rest : List Char) : Prop := ∀ c ∈ rest.head?, takes t c = false

def NoDigit (rest : List Char) : Prop := ∀ c ∈ rest.head?, Numeral.isDigit c = false

structure Stands (close : List Char) (t : TypeCode) (later : List TypeCode) : Prop where
  opens : (letters t).head? ≠ close.head?
  clear : Clear t (allLetters later ++ close)
  noOffset : NoDigit (allLetters later ++ close)

/-- A member before other members. One without a name must not look like a name or the end. -/
structure Holds (form : AggregateForm) (m : Member TypeCode) (later : List (Member TypeCode)) :
    Prop where
  opens : m.name = none → ∀ c ∈ (letters m.type).head?, c ≠ '"' ∧ c ≠ form.closeChar
  clear : Clear m.type (memberLetters later ++ [form.closeChar])

mutual

def Separated : TypeCode → Prop
  | .block (some ⟨returns, arguments⟩) =>
    Separated returns ∧ Stands ['>'] returns arguments ∧ RowSeparated ['>'] arguments
  | .pointer (some t) => Separated t
  | .array (some t) _ => Separated t ∧ NoDigit (letters t)
  | .aggregate form _ (some members) => MembersSeparated form members
  | _ => True

def RowSeparated (close : List Char) : List TypeCode → Prop
  | [] => True
  | t :: ts => Separated t ∧ Stands close t ts ∧ RowSeparated close ts

def MembersSeparated (form : AggregateForm) : List (Member TypeCode) → Prop
  | [] => True
  | ⟨name, t⟩ :: ms => Separated t ∧ Holds form ⟨name, t⟩ ms ∧ MembersSeparated form ms

end

def ofHead? (p : Char → Prop) [DecidablePred p] :
    (text : List Char) → Decidable (∀ c ∈ text.head?, p c)
  | [] => .isTrue nofun
  | c :: _ => decidable_of_iff (p c) ⟨fun h _ same => Option.some.inj same ▸ h, fun h => h c rfl⟩

instance (t : TypeCode) (rest : List Char) : Decidable (Clear t rest) := ofHead? _ rest

instance (rest : List Char) : Decidable (NoDigit rest) := ofHead? _ rest

instance (close : List Char) (t : TypeCode) (later : List TypeCode) :
    Decidable (Stands close t later) :=
  decidable_of_iff ((letters t).head? ≠ close.head? ∧ Clear t (allLetters later ++ close) ∧
      NoDigit (allLetters later ++ close))
    ⟨fun ⟨opens, clear, noOffset⟩ => ⟨opens, clear, noOffset⟩,
      fun stands => ⟨stands.opens, stands.clear, stands.noOffset⟩⟩

instance (form : AggregateForm) (m : Member TypeCode) (later : List (Member TypeCode)) :
    Decidable (Holds form m later) :=
  have := ofHead? (fun c => c ≠ '"' ∧ c ≠ form.closeChar) (letters m.type)
  decidable_of_iff ((m.name = none → ∀ c ∈ (letters m.type).head?, c ≠ '"' ∧ c ≠ form.closeChar) ∧
      Clear m.type (memberLetters later ++ [form.closeChar]))
    ⟨fun ⟨opens, clear⟩ => ⟨opens, clear⟩, fun holds => ⟨holds.opens, holds.clear⟩⟩

mutual

def separated? : (t : TypeCode) → Decidable (Separated t)
  | .block (some ⟨returns, arguments⟩) =>
    @instDecidableAnd _ _ (separated? returns)
      (@instDecidableAnd _ _ inferInstance (rowSeparated? ['>'] arguments))
  | .pointer (some t) => separated? t
  | .array (some t) _ => @instDecidableAnd _ _ (separated? t) inferInstance
  | .aggregate form _ (some members) => membersSeparated? form members
  | .primitive _ | .unknown _ | .object _ _ | .block none | .pointer none | .array none _
  | .aggregate _ _ none | .bitfield _ => .isTrue trivial

def rowSeparated? (close : List Char) : (ts : List TypeCode) → Decidable (RowSeparated close ts)
  | [] => .isTrue trivial
  | t :: ts =>
    @instDecidableAnd _ _ (separated? t)
      (@instDecidableAnd _ _ inferInstance (rowSeparated? close ts))

def membersSeparated? (form : AggregateForm) :
    (ms : List (Member TypeCode)) → Decidable (MembersSeparated form ms)
  | [] => .isTrue trivial
  | ⟨_, t⟩ :: ms =>
    @instDecidableAnd _ _ (separated? t)
      (@instDecidableAnd _ _ inferInstance (membersSeparated? form ms))

end

instance : DecidablePred Separated := separated?

instance (close : List Char) : DecidablePred (RowSeparated close) := rowSeparated? close

section
variable {t : TypeCode} {first second : List Char}

theorem clear_nil (t : TypeCode) : Clear t [] := nofun

theorem noDigit_nil : NoDigit [] := nofun

theorem Clear.congr (h : Clear t first) (same : second.head? = first.head?) : Clear t second := by
  rwa [Clear, same]

theorem NoDigit.congr (h : NoDigit first) (same : second.head? = first.head?) :
    NoDigit second := by
  rwa [NoDigit, same]

theorem head?_behind (text rest : List Char) (c : Char) :
    (text ++ c :: rest).head? = (text ++ [c]).head? := by
  cases text <;> rfl

end

/-- A type is known by a first letter, which is no qualifier. -/
theorem letters_open {t : TypeCode} (decoded : Decoded t) :
    ∃ c cs, letters t = c :: cs ∧ qualifiers.contains c = false := by
  cases t with
  | primitive p => exact ⟨_, _, letters.eq_1 p, by cases p <;> decide⟩
  | unknown name =>
    obtain ⟨c, rfl, -, -, unqualified⟩ := decoded
    exact ⟨c, [], by simp [letters], unqualified⟩
  | object name protocols =>
    cases name <;> cases protocols <;> exact ⟨'@', _, rfl, by decide⟩
  | block signature => cases signature <;> exact ⟨'@', _, rfl, by decide⟩
  | pointer element =>
    cases element with
    | none => exact absurd decoded id
    | some t => exact ⟨'^', _, rfl, by decide⟩
  | array element count =>
    cases element with
    | none => exact absurd decoded id
    | some t => exact ⟨'[', _, rfl, by decide⟩
  | aggregate form name members =>
    cases form <;> cases members <;> exact ⟨_, _, rfl, by decide⟩
  | bitfield width => exact ⟨'b', _, rfl, by decide⟩

/-- What the first letter of a well-formed type can be: never what belongs to the type before it,
except that an unknown type is a question mark. -/
structure Begins (t : TypeCode) (c : Char) : Prop where
  digit : Numeral.isDigit c = false
  mark : c ≠ '"' ∧ c ≠ '<' ∧ c ≠ '>'
  close : ∀ form : AggregateForm, c ≠ form.closeChar
  unknown : c = '?' → t.isUnknown = true

theorem primitive_begins (p : Primitive) : Begins (.primitive p) p.code := by
  constructor
  · cases p <;> decide
  · cases p <;> decide
  · intro form
    cases form <;> cases p <;> decide
  · cases p <;> decide

theorem begins_of_mem {t : TypeCode} {c : Char} (listed : c ∈ ['@', '^', '[', '\x7b', '(', 'b']) :
    Begins t c := by
  simp only [List.mem_cons, List.not_mem_nil, or_false] at listed
  have letter : Numeral.isDigit c = false ∧ (c ≠ '"' ∧ c ≠ '<' ∧ c ≠ '>') ∧
      (c ≠ '\x7d' ∧ c ≠ ')') ∧ c ≠ '?' := by
    rcases listed with rfl | rfl | rfl | rfl | rfl | rfl <;> decide
  obtain ⟨digit, mark, close, unknown⟩ := letter
  refine ⟨digit, mark, ?_, fun same => absurd same unknown⟩
  intro form
  cases form with
  | struct => exact close.1
  | union => exact close.2

theorem letters_begin {t : TypeCode} (wf : WellFormed t) :
    ∃ c cs, letters t = c :: cs ∧ Begins t c := by
  cases t with
  | primitive p => exact ⟨_, _, letters.eq_1 p, primitive_begins p⟩
  | unknown name =>
    cases wf
    refine ⟨'?', [], by simp [letters], by decide, by decide, ?_, fun _ => rfl⟩
    intro form
    cases form <;> decide
  | object name protocols =>
    cases name <;> cases protocols <;> exact ⟨'@', _, rfl, begins_of_mem (by decide)⟩
  | block signature =>
    cases signature <;> exact ⟨'@', _, rfl, begins_of_mem (by decide)⟩
  | pointer element =>
    cases element with
    | none => exact absurd wf id
    | some t => exact ⟨'^', _, rfl, begins_of_mem (by decide)⟩
  | array element count =>
    cases element with
    | none => exact absurd wf id
    | some t => exact ⟨'[', _, rfl, begins_of_mem (by decide)⟩
  | aggregate form name members =>
    cases form <;> cases members <;> exact ⟨_, _, rfl, begins_of_mem (by decide)⟩
  | bitfield width => exact ⟨'b', _, rfl, begins_of_mem (by decide)⟩

theorem takes_eq_false {c : Char} (digit : Numeral.isDigit c = false) (open' : c ≠ '<') :
    ∀ t, (endsInId t = true → c ≠ '?' ∧ c ≠ '"') → takes t c = false
  | .object none [], id => by simp [takes, id rfl]
  | .object none (_ :: _), _ => rfl
  | .object (some _) _, _ => rfl
  | .block none, _ => by simp [takes, open']
  | .block (some _), _ => rfl
  | .bitfield _, _ => digit
  | .pointer (some t), id => takes_eq_false digit open' t id
  | .pointer none, _ => rfl
  | .primitive _, _ => rfl
  | .unknown _, _ => rfl
  | .array _ _, _ => rfl
  | .aggregate _ _ _, _ => rfl

section
variable {t next : TypeCode} {ts : List TypeCode} {close : List Char}

theorem clear_of_apart (wf : WellFormed next) (apart : Apart t next) (later : List Char) :
    Clear t (letters next ++ later) := by
  obtain ⟨c, cs, spelled, begins⟩ := letters_begin wf
  rw [spelled]
  rintro _ ⟨⟩
  refine takes_eq_false begins.digit begins.mark.2.1 t fun id => ⟨fun mark => ?_, begins.mark.1⟩
  have known := apart id
  rw [begins.unknown mark] at known
  cases known

theorem noDigit_of_wellFormed (wf : WellFormed t) (later : List Char) :
    NoDigit (letters t ++ later) := by
  obtain ⟨c, cs, spelled, begins⟩ := letters_begin wf
  rw [spelled]
  rintro _ ⟨⟩
  exact begins.digit

theorem clear_close (t : TypeCode) {c : Char} (listed : c ∈ ['>', ']', '\x7d', ')']) :
    Clear t [c] := by
  have letter : Numeral.isDigit c = false ∧ c ≠ '<' ∧ c ≠ '?' ∧ c ≠ '"' := by
    simp only [List.mem_cons, List.not_mem_nil, or_false] at listed
    rcases listed with rfl | rfl | rfl | rfl <;> decide
  rintro _ ⟨⟩
  exact takes_eq_false letter.1 letter.2.1 t fun _ => letter.2.2

def ClosesRow (close : List Char) : Prop := close = [] ∨ close = ['>']

theorem ClosesRow.clear (h : ClosesRow close) (t : TypeCode) : Clear t close := by
  rcases h with rfl | rfl
  · exact clear_nil t
  · exact clear_close t (by decide)

theorem ClosesRow.noDigit (h : ClosesRow close) : NoDigit close := by
  rcases h with rfl | rfl
  · exact noDigit_nil
  · rintro _ ⟨⟩
    decide

theorem stands_of_apart (closes : ClosesRow close) (wf : AllWellFormed (t :: ts))
    (apart : Adjacent Apart (t :: ts)) : Stands close t ts := by
  constructor
  · obtain ⟨c, cs, spelled, begins⟩ := letters_begin wf.1
    rw [spelled]
    rcases closes with rfl | rfl
    · exact Option.some_ne_none c
    · exact fun same => begins.mark.2.2 (Option.some.inj same)
  · cases ts with
    | nil => exact closes.clear t
    | cons next ts =>
      rw [allLetters, List.append_assoc]
      exact clear_of_apart wf.2.1 apart.1 _
  · cases ts with
    | nil => exact closes.noDigit
    | cons next ts =>
      rw [allLetters, List.append_assoc]
      exact noDigit_of_wellFormed wf.2.1 _

theorem holds_of_apart {form : AggregateForm} {m : Member TypeCode} {ms : List (Member TypeCode)}
    (wf : MembersWellFormed (m :: ms)) (apart : Adjacent MembersApart (m :: ms)) :
    Holds form m ms := by
  constructor
  · rintro - _ begin'
    obtain ⟨c, cs, spelled, begins⟩ := letters_begin wf.2.1
    rw [spelled] at begin'
    cases begin'
    exact ⟨begins.mark.1, begins.close form⟩
  · cases ms with
    | nil => cases form <;> exact clear_close m.type (by decide)
    | cons next ms =>
      obtain ⟨name, type⟩ := next
      have behind := apart.1
      cases name with
      | none =>
        rw [memberLetters, List.append_assoc]
        exact clear_of_apart wf.2.2.2.1 (fun id => (behind id).2) _
      | some name =>
        rintro _ ⟨⟩
        exact takes_eq_false (by decide) (by decide) m.type fun id => nomatch (behind id).1

end

mutual

theorem WellFormed.separated : ∀ {t}, WellFormed t → Separated t
  | .primitive _, _ => trivial
  | .unknown _, _ => trivial
  | .object _ _, _ => trivial
  | .block none, _ => trivial
  | .block (some ⟨_, _⟩), wf =>
    ⟨wf.1.separated, stands_of_apart (.inr rfl) ⟨wf.1, wf.2.1⟩ wf.2.2,
      AllWellFormed.separated (.inr rfl) wf.2.1 wf.2.2.tail⟩
  | .pointer none, _ => trivial
  | .pointer (some t), wf => WellFormed.separated (t := t) wf
  | .array none _, _ => trivial
  | .array (some t) _, wf => by
    have noDigit := noDigit_of_wellFormed wf.1 []
    rw [List.append_nil] at noDigit
    exact ⟨wf.1.separated, noDigit⟩
  | .aggregate _ _ none, _ => trivial
  | .aggregate _ _ (some _), wf => MembersWellFormed.separated wf.2.1 wf.2.2
  | .bitfield _, _ => trivial

theorem AllWellFormed.separated {close : List Char} (closes : ClosesRow close) :
    ∀ {ts}, AllWellFormed ts → Adjacent Apart ts → RowSeparated close ts
  | [], _, _ => trivial
  | _ :: _, wf, apart =>
    ⟨wf.1.separated, stands_of_apart closes wf apart,
      AllWellFormed.separated closes wf.2 apart.tail⟩

theorem MembersWellFormed.separated {form : AggregateForm} :
    ∀ {ms}, MembersWellFormed ms → Adjacent MembersApart ms → MembersSeparated form ms
  | [], _, _ => trivial
  | ⟨_, _⟩ :: _, wf, apart =>
    ⟨wf.2.1.separated, holds_of_apart wf apart, MembersWellFormed.separated wf.2.2 apart.tail⟩

end

end MachImage.TypeCode
