import MachImage.Attempt
import MachImage.Proofs.TypeCode.RoundTrip
/-!
What each reader does, in terms of the readers it calls: which values it gives and which rests it
leaves, and when digits without a value stop it.
-/
namespace MachImage.TypeCode

/-- A reading that finds a value and leaves a rest. -/
def Gives {α : Type} {bound : Nat} (x : Except Failure (Parsed α bound)) (a : α)
    (rest : List Char) : Prop :=
  ∃ shorter, x = .ok ⟨a, rest, shorter⟩

section
variable {α β : Type} {bound wider : Nat} {x : Except Failure (Parsed α bound)}
  {f : Parsed α bound → Except Failure (Parsed β wider)} {a : α} {b : β} {rest later : List Char}

theorem gives_ok_iff {a' : α} {shorter : rest.length < bound} :
    Gives (.ok ⟨a, rest, shorter⟩ : Except Failure (Parsed α bound)) a' later ↔
      a' = a ∧ later = rest := by
  constructor
  · rintro ⟨_, same⟩
    cases same
    exact ⟨rfl, rfl⟩
  · rintro ⟨rfl, rfl⟩
    exact ⟨shorter, rfl⟩

theorem not_gives_fail {cause : EncodingFault} {left : Nat} :
    ¬ Gives (fail cause left : Except Failure (Parsed α bound)) a rest := by
  rintro ⟨_, ⟨⟩⟩

theorem gives_bind_iff {next : α → List Char → Prop}
    (each : ∀ a rest shorter, Gives (f ⟨a, rest, shorter⟩) b later ↔ next a rest) :
    Gives (x >>= f) b later ↔ ∃ a rest, Gives x a rest ∧ next a rest := by
  constructor
  · rintro ⟨within, run⟩
    obtain ⟨⟨a, rest, shorter⟩, first, run⟩ := of_bind_ok run
    exact ⟨a, rest, ⟨shorter, first⟩, (each a rest shorter).1 ⟨within, run⟩⟩
  · rintro ⟨a, rest, ⟨shorter, rfl⟩, run⟩
    exact (each a rest shorter).2 run

theorem gives_pass_iff {g : Parsed α bound → Except Failure (Parsed α wider)}
    (each : ∀ b rest shorter, Gives (g ⟨b, rest, shorter⟩) a later ↔ a = b ∧ later = rest) :
    Gives (x >>= g) a later ↔ Gives x a later := by
  rw [gives_bind_iff each]
  constructor
  · rintro ⟨_, _, found, rfl, rfl⟩
    exact found
  · intro found
    exact ⟨a, later, found, rfl, rfl⟩

end

section
variable {α β : Type} {bound : Nat} {x : Except Failure (Parsed α bound)}
  {f : Parsed α bound → Except Failure β} {e : Failure}

theorem not_fail_numeral {cause : Numeral.Fault} {found : EncodingFault} {left : Nat} :
    ¬ (fail found left : Except Failure α) = .error (.numeral cause) := by
  rintro ⟨⟩

theorem error_bind_iff {next : α → List Char → Prop}
    (each : ∀ a rest shorter, f ⟨a, rest, shorter⟩ = .error e ↔ next a rest) :
    (x >>= f) = .error e ↔ x = .error e ∨ ∃ a rest, Gives x a rest ∧ next a rest := by
  constructor
  · intro run
    rcases of_bind_error run with failed | ⟨⟨a, rest, shorter⟩, first, run⟩
    · exact .inl failed
    · exact .inr ⟨a, rest, ⟨shorter, first⟩, (each a rest shorter).1 run⟩
  · rintro (failed | ⟨a, rest, ⟨shorter, rfl⟩, run⟩)
    · rw [failed]
      rfl
    · exact (each a rest shorter).2 run

theorem error_done_iff {y : Except Failure α} {g : α → Except Failure β}
    (done : ∀ a, ∃ b, g a = .ok b) : (y >>= g) = .error e ↔ y = .error e := by
  constructor
  · intro run
    rcases of_bind_error run with failed | ⟨p, first, run⟩
    · exact failed
    · obtain ⟨q, ends⟩ := done p
      cases ends.symm.trans run
  · rintro rfl
    rfl

end

theorem of_mem_takeWhile {p : Char → Bool} {s : List Char} {c : Char}
    (member : c ∈ s.takeWhile p) : p c = true :=
  List.all_eq_true.1 List.all_takeWhile c member

theorem noDigit_dropWhile (s : List Char) : NoDigit (s.dropWhile Numeral.isDigit) := by
  intro c first
  have stop := List.head?_dropWhile_not Numeral.isDigit s
  rw [first] at stop
  simpa using stop

theorem until?_some {stop : Char} {s : List Char} {p : Parsed String s.length}
    (found : until? stop s = some p) :
    s = p.value.toList ++ stop :: p.rest ∧ ∀ c ∈ p.value.toList, c ≠ stop := by
  unfold until? at found
  split at found
  · cases found
  · next c rest cut =>
    cases found
    have whole := List.takeWhile_append_dropWhile (p := (· ≠ stop)) (l := s)
    have first := List.head?_dropWhile_not (· ≠ stop) s
    rw [cut] at whole first
    have first : c = stop := by simpa using first
    rw [first] at whole
    rw [String.toList_ofList]
    exact ⟨whole.symm, fun d member => by simpa using of_mem_takeWhile member⟩

structure Refused (run : List Char) (cause : Numeral.Fault) : Prop where
  some : run ≠ []
  digits : ∀ c ∈ run, Numeral.isDigit c = true
  value : Numeral.value run = .error cause

/-- Digits before other text, and the number they stand for, if there are any. -/
structure Scans (run : List Char) (value : Option Nat) (rest : List Char) : Prop where
  digits : ∀ c ∈ run, Numeral.isDigit c = true
  noDigit : NoDigit rest
  none : value = none → run = []
  number : ∀ n, value = some n → run ≠ [] ∧ Numeral.value run = .ok n

section
variable {run s rest later : List Char} {value : Option Nat} {cause : Numeral.Fault}

theorem Scans.again (scans : Scans run value rest) (noDigit : NoDigit later) :
    Gives (TypeCode.digits (run ++ later)) value later := by
  cases value with
  | none =>
    rw [scans.none rfl]
    exact digits_none noDigit
  | some n =>
    obtain ⟨some, number⟩ := scans.number n rfl
    exact digits_value scans.digits noDigit some number

theorem Refused.stops (refused : Refused run cause) (noDigit : NoDigit rest) :
    TypeCode.digits (run ++ rest) = .error (.numeral cause) :=
  digits_error refused.digits noDigit refused.some refused.value

theorem scan (s : List Char) : ∃ run rest, s = run ++ rest ∧ NoDigit rest ∧
    ((∃ value, Scans run value rest) ∨ ∃ cause, Refused run cause) := by
  have all : ∀ c ∈ s.takeWhile Numeral.isDigit, Numeral.isDigit c = true := fun _ =>
    of_mem_takeWhile
  have noDigit := noDigit_dropWhile s
  refine ⟨_, _, List.takeWhile_append_dropWhile.symm, noDigit, ?_⟩
  by_cases empty : s.takeWhile Numeral.isDigit = []
  · exact .inl ⟨none, all, noDigit, fun _ => empty, by rintro _ ⟨⟩⟩
  · cases value : Numeral.value (s.takeWhile Numeral.isDigit) with
    | error cause => exact .inr ⟨cause, empty, all, value⟩
    | ok n =>
      refine .inl ⟨some n, all, noDigit, by rintro ⟨⟩, ?_⟩
      rintro _ ⟨⟩
      exact ⟨empty, value⟩

theorem digits_gives_iff :
    Gives (digits s) value rest ↔ ∃ run, s = run ++ rest ∧ Scans run value rest := by
  constructor
  · rintro ⟨_, found⟩
    obtain ⟨run, behind, rfl, noDigit, ⟨value, scans⟩ | ⟨cause, refused⟩⟩ := scan s
    · obtain ⟨_, gives⟩ := scans.again noDigit
      cases gives.symm.trans found
      exact ⟨run, rfl, scans⟩
    · cases (refused.stops noDigit).symm.trans found
  · rintro ⟨run, rfl, scans⟩
    exact scans.again scans.noDigit

end

section
variable {one : Step TypeCode} {form : AggregateForm} {opened : Nat} {c : Char}
  {cs s rest : List Char} {t : TypeCode} {cause : Numeral.Fault}

theorem blockTypes_nil_not_gives {ts : List TypeCode} :
    ¬ Gives (blockTypes one opened []) ts rest := by
  rw [blockTypes]
  exact not_gives_fail

theorem blockTypes_close_gives_iff {ts : List TypeCode} :
    Gives (blockTypes one opened ('>' :: cs)) ts rest ↔ ts = [] ∧ rest = cs := by
  rw [blockTypes, if_pos rfl]
  exact gives_ok_iff

theorem blockTypes_close_not_error :
    ¬ blockTypes one opened ('>' :: cs) = .error (.numeral cause) := by
  rw [blockTypes, if_pos rfl]
  rintro ⟨⟩

section
variable (inside : c ≠ '>')
include inside

theorem blockTypes_gives_iff {ts : List TypeCode} :
    Gives (blockTypes one opened (c :: cs)) ts rest ↔
      ∃ t mid, Gives (one (c :: cs)) t mid ∧ ∃ offset behind, Gives (digits mid) offset behind ∧
        ∃ more last, Gives (blockTypes one opened behind) more last ∧
          ts = t :: more ∧ rest = last := by
  rw [blockTypes, if_neg inside]
  exact gives_bind_iff fun t mid _ => gives_bind_iff fun offset behind _ =>
    gives_bind_iff fun more last _ => gives_ok_iff

theorem blockTypes_error_iff :
    blockTypes one opened (c :: cs) = .error (.numeral cause) ↔
      one (c :: cs) = .error (.numeral cause) ∨ ∃ t mid, Gives (one (c :: cs)) t mid ∧
        (digits mid = .error (.numeral cause) ∨ ∃ offset behind, Gives (digits mid) offset behind ∧
          blockTypes one opened behind = .error (.numeral cause)) := by
  rw [blockTypes, if_neg inside]
  exact error_bind_iff fun t mid _ => error_bind_iff fun offset behind _ =>
    error_done_iff fun more => ⟨_, rfl⟩

end

def blockSignature : List TypeCode → Option MethodSignature
  | [] => none
  | returns :: arguments => some ⟨returns, arguments⟩

theorem decodeBlock_gives_iff :
    Gives (decodeBlock one ('<' :: cs)) t rest ↔
      ∃ ts last, Gives (blockTypes one (cs.length + 1) cs) ts last ∧
        t = .block (blockSignature ts) ∧ rest = last := by
  unfold decodeBlock
  refine gives_bind_iff fun ts last _ => ?_
  cases ts <;> exact gives_ok_iff

theorem decodeBlock_error_iff :
    decodeBlock one ('<' :: cs) = .error (.numeral cause) ↔
      blockTypes one (cs.length + 1) cs = .error (.numeral cause) := by
  unfold decodeBlock
  exact error_done_iff fun ts => ⟨_, rfl⟩

section
variable (bare : s.head? ≠ some '<')
include bare

theorem decodeBlock_bare : decodeBlock one s = .ok ⟨.block none, s, Nat.lt_succ_self _⟩ := by
  unfold decodeBlock
  split
  · exact absurd rfl bare
  · rfl

theorem decodeBlock_bare_gives_iff :
    Gives (decodeBlock one s) t rest ↔ t = .block none ∧ rest = s := by
  rw [decodeBlock_bare bare]
  exact gives_ok_iff

theorem decodeBlock_bare_not_error : ¬ decodeBlock one s = .error (.numeral cause) := by
  rw [decodeBlock_bare bare]
  rintro ⟨⟩

end

theorem decodeObject_gives_iff :
    Gives (decodeObject one ('?' :: cs)) t rest ↔ Gives (decodeBlock one cs) t rest := by
  unfold decodeObject
  exact gives_pass_iff fun b last _ => gives_ok_iff

theorem decodeObject_error_iff :
    decodeObject one ('?' :: cs) = .error (.numeral cause) ↔
      decodeBlock one cs = .error (.numeral cause) := by
  unfold decodeObject
  exact error_done_iff fun b => ⟨_, rfl⟩

section
variable (noMark : s.head? ≠ some '?') (noQuote : s.head? ≠ some '"')
include noMark noQuote

theorem decodeObject_bare :
    decodeObject one s = .ok ⟨.object none [], s, Nat.lt_succ_self _⟩ := by
  unfold decodeObject
  split
  · exact absurd rfl noMark
  · exact absurd rfl noQuote
  · rfl

theorem decodeObject_bare_gives_iff :
    Gives (decodeObject one s) t rest ↔ t = .object none [] ∧ rest = s := by
  rw [decodeObject_bare noMark noQuote]
  exact gives_ok_iff

theorem decodeObject_bare_not_error : ¬ decodeObject one s = .error (.numeral cause) := by
  rw [decodeObject_bare noMark noQuote]
  rintro ⟨⟩

end

theorem decodeObject_quoted_gives_iff :
    Gives (decodeObject one ('"' :: cs)) t rest ↔ ∃ name : String,
      cs = name.toList ++ '"' :: rest ∧ (∀ c ∈ name.toList, c ≠ '"') ∧ t = quotedObject name := by
  constructor
  · rintro ⟨_, found⟩
    cases named : until? '"' cs with
    | none =>
      simp only [decodeObject, named] at found
      cases found
    | some quoted =>
      simp only [decodeObject, named] at found
      cases found
      obtain ⟨whole, free⟩ := until?_some named
      exact ⟨_, whole, free, rfl⟩
  · rintro ⟨name, rfl, free, rfl⟩
    obtain ⟨_, quoted⟩ := @until?_eq '"' name.toList rest free
    rw [String.ofList_toList] at quoted
    simp only [decodeObject, quoted]
    exact ⟨_, rfl⟩

theorem decodeObject_quoted_not_error :
    ¬ decodeObject one ('"' :: cs) = .error (.numeral cause) := by
  cases named : until? '"' cs <;> (simp only [decodeObject, named]; rintro ⟨⟩)

theorem decodeArray_gives_iff :
    Gives (decodeArray one s) t rest ↔
      ∃ count mid, Gives (digits s) count mid ∧ ∃ n, count = some n ∧
        ∃ element last, Gives (one mid) element last ∧ last = ']' :: rest ∧
          t = .array (some element) n := by
  unfold decodeArray
  refine gives_bind_iff fun count mid _ => ?_
  cases count with
  | none =>
    refine ⟨fun found => absurd found not_gives_fail, ?_⟩
    rintro ⟨_, ⟨⟩, _⟩
  | some n =>
    simp only [Option.some.injEq, exists_eq_left']
    refine gives_bind_iff fun element last _ => ?_
    dsimp only
    split
    · next behind closed =>
      rw [List.cons.injEq, and_iff_right rfl]
      exact gives_ok_iff.trans (and_comm.trans (and_congr_left' eq_comm))
    · next other =>
      exact ⟨fun found => absurd found not_gives_fail, fun ⟨same, _⟩ => absurd same (other rest)⟩

theorem decodeArray_error_iff :
    decodeArray one s = .error (.numeral cause) ↔
      digits s = .error (.numeral cause) ∨ ∃ count mid, Gives (digits s) count mid ∧
        ∃ n, count = some n ∧ one mid = .error (.numeral cause) := by
  unfold decodeArray
  refine error_bind_iff fun count mid _ => ?_
  cases count with
  | none =>
    refine ⟨fun failed => absurd failed not_fail_numeral, ?_⟩
    rintro ⟨_, ⟨⟩, _⟩
  | some n =>
    simp only [Option.some.injEq, exists_eq_left']
    constructor
    · intro run
      rcases of_bind_error run with failed | ⟨element, first, run⟩
      · exact failed
      · split at run
        · cases run
        · cases run
    · intro failed
      rw [failed]
      rfl

theorem decodeBitfield_gives_iff :
    Gives (decodeBitfield s) t rest ↔
      ∃ width mid, Gives (digits s) width mid ∧ ∃ n, width = some n ∧
        t = .bitfield n ∧ rest = mid := by
  unfold decodeBitfield
  refine gives_bind_iff fun width mid _ => ?_
  cases width with
  | none =>
    refine ⟨fun found => absurd found not_gives_fail, ?_⟩
    rintro ⟨_, ⟨⟩, _⟩
  | some n =>
    simp only [Option.some.injEq, exists_eq_left']
    exact gives_ok_iff

theorem decodeBitfield_error_iff :
    decodeBitfield s = .error (.numeral cause) ↔ digits s = .error (.numeral cause) := by
  have step : decodeBitfield s = .error (.numeral cause) ↔
      digits s = .error (.numeral cause) ∨ ∃ width mid, Gives (digits s) width mid ∧ False := by
    unfold decodeBitfield
    refine error_bind_iff fun width mid _ => ?_
    cases width with
    | none => exact ⟨not_fail_numeral, False.elim⟩
    | some n => exact ⟨by rintro ⟨⟩, False.elim⟩
  simpa only [and_false, exists_false, or_false] using step

def memberName? (c : Char) (cs : List Char) : Option (Option String × List Char) :=
  if c = '"' then (until? '"' cs).map fun quoted => (some quoted.value, quoted.rest)
  else some (none, c :: cs)

theorem memberName?_eq_some_iff {name : Option String} {text : List Char} :
    memberName? c cs = some (name, text) ↔
      (c ≠ '"' ∧ name = none ∧ text = c :: cs) ∨
      ∃ quoted : String, c = '"' ∧ name = some quoted ∧ cs = quoted.toList ++ '"' :: text ∧
        ∀ c ∈ quoted.toList, c ≠ '"' := by
  unfold memberName?
  split
  · next quote =>
    constructor
    · intro found
      obtain ⟨quoted, whole, same⟩ := Option.map_eq_some_iff.1 found
      cases same
      obtain ⟨parts, free⟩ := until?_some whole
      exact .inr ⟨_, quote, rfl, parts, free⟩
    · rintro (⟨noQuote, -⟩ | ⟨quoted, -, rfl, rfl, free⟩)
      · exact absurd quote noQuote
      · obtain ⟨_, found⟩ := @until?_eq '"' quoted.toList text free
        rw [found, String.ofList_toList]
        rfl
  · next noQuote =>
    constructor
    · rintro ⟨⟩
      exact .inl ⟨noQuote, rfl, rfl⟩
    · rintro (⟨-, rfl, rfl⟩ | ⟨quoted, quote, -⟩)
      · rfl
      · exact absurd quote noQuote

theorem length_le_of_memberName? {name : Option String} {text : List Char}
    (named : memberName? c cs = some (name, text)) : text.length ≤ (c :: cs).length := by
  rcases memberName?_eq_some_iff.1 named with ⟨-, -, rfl⟩ | ⟨quoted, -, -, rfl, -⟩
  · exact Nat.le_refl _
  · simp only [List.length_cons, List.length_append]
    omega

theorem decodeMembers_nil_not_gives {ms : List (Member TypeCode)} :
    ¬ Gives (decodeMembers one form opened []) ms rest := by
  rw [decodeMembers]
  exact not_gives_fail

theorem decodeMembers_close_gives_iff {ms : List (Member TypeCode)} :
    Gives (decodeMembers one form opened (form.closeChar :: cs)) ms rest ↔ ms = [] ∧ rest = cs := by
  rw [decodeMembers, if_pos rfl]
  exact gives_ok_iff

theorem decodeMembers_close_not_error :
    ¬ decodeMembers one form opened (form.closeChar :: cs) = .error (.numeral cause) := by
  rw [decodeMembers, if_pos rfl]
  rintro ⟨⟩

section
variable (inside : c ≠ form.closeChar)
include inside

theorem decodeMembers_gives_iff {ms : List (Member TypeCode)} :
    Gives (decodeMembers one form opened (c :: cs)) ms rest ↔
      ∃ name text, memberName? c cs = some (name, text) ∧ ∃ t mid, Gives (one text) t mid ∧
        ∃ more last, Gives (decodeMembers one form opened mid) more last ∧
          ms = ⟨name, t⟩ :: more ∧ rest = last := by
  rw [decodeMembers, if_neg inside]
  unfold memberName?
  split
  · cases until? '"' cs with
    | none =>
      refine ⟨fun found => absurd found not_gives_fail, ?_⟩
      rintro ⟨_, _, ⟨⟩, _⟩
    | some quoted =>
      simp only [Option.map_some, Option.some.injEq, Prod.mk.injEq, and_assoc, exists_eq_left',
        exists_and_left, pure_bind]
      exact gives_bind_iff fun t mid _ => gives_bind_iff fun more last _ => gives_ok_iff
  · simp only [Option.some.injEq, Prod.mk.injEq, and_assoc, exists_eq_left', exists_and_left,
      pure_bind]
    exact gives_bind_iff fun t mid _ => gives_bind_iff fun more last _ => gives_ok_iff

theorem decodeMembers_error_iff :
    decodeMembers one form opened (c :: cs) = .error (.numeral cause) ↔
      ∃ name text, memberName? c cs = some (name, text) ∧
        (one text = .error (.numeral cause) ∨ ∃ t mid, Gives (one text) t mid ∧
          decodeMembers one form opened mid = .error (.numeral cause)) := by
  rw [decodeMembers, if_neg inside]
  unfold memberName?
  split
  · cases until? '"' cs with
    | none =>
      refine ⟨fun failed => absurd failed not_fail_numeral, ?_⟩
      rintro ⟨_, _, ⟨⟩, _⟩
    | some quoted =>
      simp only [Option.map_some, Option.some.injEq, Prod.mk.injEq, and_assoc, exists_eq_left',
        exists_and_left, pure_bind]
      exact error_bind_iff fun t mid _ => error_done_iff fun more => ⟨_, rfl⟩
  · simp only [Option.some.injEq, Prod.mk.injEq, and_assoc, exists_eq_left', exists_and_left,
      pure_bind]
    exact error_bind_iff fun t mid _ => error_done_iff fun more => ⟨_, rfl⟩

end

theorem decodeAggregate_nil (one : Step TypeCode) {form : AggregateForm} {s : List Char}
    (cut : s.dropWhile (inName form) = []) :
    decodeAggregate one form s = fail (openAggregate form) (s.length + 1) := by
  unfold decodeAggregate
  split
  · rfl
  · next same => cases cut.symm.trans same

theorem name_ends (one : Step TypeCode) (form : AggregateForm) (s : List Char) :
    (∃ name : String, (∀ c ∈ name.toList, c ≠ '=' ∧ c ≠ form.closeChar) ∧
      ∃ text, s = name.toList ++ form.closeChar :: text ∨ s = name.toList ++ '=' :: text) ∨
    ∃ left, decodeAggregate one form s = fail (openAggregate form) left := by
  have whole := List.takeWhile_append_dropWhile (p := inName form) (l := s)
  cases cut : s.dropWhile (inName form) with
  | nil => exact .inr ⟨_, decodeAggregate_nil one cut⟩
  | cons stop text =>
    have stops := List.head?_dropWhile_not (inName form) s
    rw [cut] at whole stops
    refine .inl ⟨String.ofList (s.takeWhile (inName form)), ?_⟩
    rw [String.toList_ofList]
    refine ⟨fun c member => by simpa [inName] using of_mem_takeWhile member, text, ?_⟩
    by_cases close : stop = form.closeChar
    · exact .inl (close ▸ whole.symm)
    · have equals : stop = '=' := by simpa [inName, close] using stops
      exact .inr (equals ▸ whole.symm)

section
variable {name : String} (free : ∀ c ∈ name.toList, c ≠ '=' ∧ c ≠ form.closeChar)
include free

theorem decodeAggregate_close_gives_iff :
    Gives (decodeAggregate one form (name.toList ++ form.closeChar :: cs)) t rest ↔
      t = .aggregate form (some name) none ∧ rest = cs := by
  obtain ⟨_, closed⟩ := (@decodeAggregate_named one form name free cs).shallow id
  rw [closed]
  exact gives_ok_iff

theorem decodeAggregate_open_gives_iff :
    Gives (decodeAggregate one form (name.toList ++ '=' :: cs)) t rest ↔
      ∃ ms last, Gives (decodeMembers one form ((name.toList ++ '=' :: cs).length + 1) cs) ms last ∧
        t = .aggregate form (some name) (some ms) ∧ rest = last := by
  obtain ⟨taken, dropped⟩ := cut_name free (Or.inl rfl) cs
  have inside : '=' ≠ form.closeChar := by cases form <;> decide
  unfold decodeAggregate
  split
  · next empty => cases dropped.symm.trans empty
  · next cut =>
    cases dropped.symm.trans cut
    rw [if_neg inside, taken, String.ofList_toList]
    exact gives_bind_iff fun ms last _ => gives_ok_iff

theorem decodeAggregate_close_not_error :
    ¬ decodeAggregate one form (name.toList ++ form.closeChar :: cs) = .error (.numeral cause) := by
  obtain ⟨_, closed⟩ := (@decodeAggregate_named one form name free cs).shallow id
  rw [closed]
  rintro ⟨⟩

theorem decodeAggregate_open_error_iff :
    decodeAggregate one form (name.toList ++ '=' :: cs) = .error (.numeral cause) ↔
      decodeMembers one form ((name.toList ++ '=' :: cs).length + 1) cs =
        .error (.numeral cause) := by
  obtain ⟨-, dropped⟩ := cut_name free (Or.inl rfl) cs
  have inside : '=' ≠ form.closeChar := by cases form <;> decide
  unfold decodeAggregate
  split
  · next empty => cases dropped.symm.trans empty
  · next cut =>
    cases dropped.symm.trans cut
    rw [if_neg inside]
    exact error_done_iff fun ms => ⟨_, rfl⟩

end

theorem decodeAggregate_gives_iff :
    Gives (decodeAggregate one form s) t rest ↔ ∃ name : String,
      (∀ c ∈ name.toList, c ≠ '=' ∧ c ≠ form.closeChar) ∧
      ((s = name.toList ++ form.closeChar :: rest ∧ t = .aggregate form (some name) none) ∨
        ∃ text ms, s = name.toList ++ '=' :: text ∧
          Gives (decodeMembers one form (s.length + 1) text) ms rest ∧
          t = .aggregate form (some name) (some ms)) := by
  constructor
  · intro found
    rcases name_ends one form s with ⟨name, free, text, rfl | rfl⟩ | ⟨left, failed⟩
    · obtain ⟨rfl, rfl⟩ := (decodeAggregate_close_gives_iff free).1 found
      exact ⟨name, free, .inl ⟨rfl, rfl⟩⟩
    · obtain ⟨ms, _, members, rfl, rfl⟩ := (decodeAggregate_open_gives_iff free).1 found
      exact ⟨name, free, .inr ⟨text, ms, rfl, members, rfl⟩⟩
    · rw [failed] at found
      exact absurd found not_gives_fail
  · rintro ⟨name, free, ⟨rfl, rfl⟩ | ⟨text, ms, rfl, members, rfl⟩⟩
    · exact (decodeAggregate_close_gives_iff free).2 ⟨rfl, rfl⟩
    · exact (decodeAggregate_open_gives_iff free).2 ⟨ms, rest, members, rfl, rfl⟩

theorem decodeAggregate_error_iff :
    decodeAggregate one form s = .error (.numeral cause) ↔ ∃ (name : String) (text : List Char),
      (∀ c ∈ name.toList, c ≠ '=' ∧ c ≠ form.closeChar) ∧ s = name.toList ++ '=' :: text ∧
        decodeMembers one form (s.length + 1) text = .error (.numeral cause) := by
  constructor
  · intro failed
    rcases name_ends one form s with ⟨name, free, text, rfl | rfl⟩ | ⟨left, other⟩
    · exact absurd failed (decodeAggregate_close_not_error free)
    · exact ⟨name, text, free, rfl, (decodeAggregate_open_error_iff free).1 failed⟩
    · rw [other] at failed
      exact absurd failed not_fail_numeral
  · rintro ⟨name, text, free, rfl, failed⟩
    exact (decodeAggregate_open_error_iff free).2 failed

theorem decodePointer_gives_iff :
    Gives (decodeBody one '^' s) t rest ↔
      ∃ element last, Gives (one s) element last ∧ t = .pointer (some element) ∧ rest = last := by
  have none : Primitive.ofCode? '^' = none := by decide
  unfold decodeBody
  rw [none]
  exact gives_bind_iff fun element last _ => gives_ok_iff

theorem decodePointer_error_iff :
    decodeBody one '^' s = .error (.numeral cause) ↔ one s = .error (.numeral cause) := by
  have none : Primitive.ofCode? '^' = none := by decide
  unfold decodeBody
  rw [none]
  exact error_done_iff fun element => ⟨_, rfl⟩

end

theorem decodeOne_nil (d : Nat) {s : List Char}
    (cut : s.dropWhile (qualifiers.contains ·) = []) :
    decodeOne (d + 1) s = fail .unexpectedEnd 0 := by
  unfold decodeOne qualified
  split
  · rfl
  · next same => cases cut.symm.trans same

theorem qualifiers_end (s : List Char) :
    (∃ before c rest, s = before ++ c :: rest ∧ (∀ q ∈ before, qualifiers.contains q = true) ∧
      qualifiers.contains c = false) ∨
    ∀ d, decodeOne (d + 1) s = fail .unexpectedEnd 0 := by
  have whole := List.takeWhile_append_dropWhile (p := (qualifiers.contains ·)) (l := s)
  cases cut : s.dropWhile (qualifiers.contains ·) with
  | nil => exact .inr fun d => decodeOne_nil d cut
  | cons c rest =>
    have stop := List.head?_dropWhile_not (qualifiers.contains ·) s
    rw [cut] at whole stop
    exact .inl ⟨_, c, rest, whole.symm, fun q => of_mem_takeWhile, stop⟩

section
variable {before cs : List Char} {c : Char} (all : ∀ q ∈ before, qualifiers.contains q = true)
  (stop : qualifiers.contains c = false) (d : Nat)
include all stop

theorem dropWhile_qualifiers :
    (before ++ c :: cs).dropWhile (qualifiers.contains ·) = c :: cs := by
  rw [List.dropWhile_append_of_pos all, List.dropWhile_cons_of_neg (by rw [stop]; decide)]

theorem decodeOne_behind_gives_iff {t : TypeCode} {rest : List Char} :
    Gives (decodeOne (d + 1) (before ++ c :: cs)) t rest ↔
      Gives (decodeBody (decodeOne d) c cs) t rest := by
  have dropped := @dropWhile_qualifiers before cs c all stop
  unfold decodeOne qualified
  split
  · next empty => cases dropped.symm.trans empty
  · next cut =>
    cases dropped.symm.trans cut
    exact gives_pass_iff fun b last _ => gives_ok_iff

theorem decodeOne_behind_error_iff {cause : Numeral.Fault} :
    decodeOne (d + 1) (before ++ c :: cs) = .error (.numeral cause) ↔
      decodeBody (decodeOne d) c cs = .error (.numeral cause) := by
  have dropped := @dropWhile_qualifiers before cs c all stop
  unfold decodeOne qualified
  split
  · next empty => cases dropped.symm.trans empty
  · next cut =>
    cases dropped.symm.trans cut
    exact error_done_iff fun b => ⟨_, rfl⟩

end

section
variable {d : Nat} {s rest : List Char} {t : TypeCode} {cause : Numeral.Fault}

theorem decodeOne_gives_iff :
    Gives (decodeOne (d + 1) s) t rest ↔ ∃ before c cs, s = before ++ c :: cs ∧
      (∀ q ∈ before, qualifiers.contains q = true) ∧ qualifiers.contains c = false ∧
        Gives (decodeBody (decodeOne d) c cs) t rest := by
  constructor
  · intro found
    rcases qualifiers_end s with ⟨before, c, cs, rfl, all, stop⟩ | never
    · exact ⟨before, c, cs, rfl, all, stop, (decodeOne_behind_gives_iff all stop d).1 found⟩
    · rw [never d] at found
      exact absurd found not_gives_fail
  · rintro ⟨before, c, cs, rfl, all, stop, body⟩
    exact (decodeOne_behind_gives_iff all stop d).2 body

theorem decodeOne_error_iff :
    decodeOne (d + 1) s = .error (.numeral cause) ↔ ∃ before c cs, s = before ++ c :: cs ∧
      (∀ q ∈ before, qualifiers.contains q = true) ∧ qualifiers.contains c = false ∧
        decodeBody (decodeOne d) c cs = .error (.numeral cause) := by
  constructor
  · intro failed
    rcases qualifiers_end s with ⟨before, c, cs, rfl, all, stop⟩ | never
    · exact ⟨before, c, cs, rfl, all, stop, (decodeOne_behind_error_iff all stop d).1 failed⟩
    · rw [never d] at failed
      exact absurd failed not_fail_numeral
  · rintro ⟨before, c, cs, rfl, all, stop, body⟩
    exact (decodeOne_behind_error_iff all stop d).2 body

end

theorem decodeWithOffset_gives_iff {s rest : List Char} {t : TypeCode} :
    Gives (decodeWithOffset s) t rest ↔ ∃ b mid, Gives (decodeOne maxDepth s) b mid ∧
      ∃ offset behind, Gives (digits mid) offset behind ∧ t = b ∧ rest = behind := by
  unfold decodeWithOffset withOffset
  exact gives_bind_iff fun b mid _ => gives_bind_iff fun offset behind _ => gives_ok_iff

theorem decodeWithOffset_error_iff {s : List Char} {cause : Numeral.Fault} :
    decodeWithOffset s = .error (.numeral cause) ↔ decodeOne maxDepth s = .error (.numeral cause) ∨
      ∃ t mid, Gives (decodeOne maxDepth s) t mid ∧ digits mid = .error (.numeral cause) := by
  unfold decodeWithOffset withOffset
  exact error_bind_iff fun t mid _ => error_done_iff fun offset => ⟨_, rfl⟩

section
variable {s : List Char} {t : TypeCode} {ts : List TypeCode}

theorem decodeAll_nil_iff : decodeAll s = .ok [] ↔ s = [] := by
  constructor
  · intro run
    cases s with
    | nil => rfl
    | cons c cs =>
      rw [decodeAll_of_cons] at run
      obtain ⟨t, -, run⟩ := of_bind_ok run
      obtain ⟨ts, -, run⟩ := of_bind_ok run
      cases run
  · rintro rfl
    exact decodeAll_of_nil

theorem decodeAll_cons_iff :
    decodeAll s = .ok (t :: ts) ↔
      ∃ rest, Gives (decodeWithOffset s) t rest ∧ decodeAll rest = .ok ts := by
  cases s with
  | nil =>
    constructor
    · intro run
      rw [decodeAll_of_nil] at run
      cases run
    · rintro ⟨rest, ⟨shorter, -⟩, -⟩
      exact absurd shorter (Nat.not_lt_zero _)
  | cons c cs =>
    constructor
    · intro run
      rw [decodeAll_of_cons] at run
      obtain ⟨⟨t, rest, shorter⟩, first, run⟩ := of_bind_ok run
      obtain ⟨ts, later, run⟩ := of_bind_ok run
      cases run
      exact ⟨rest, ⟨shorter, first⟩, later⟩
    · rintro ⟨rest, ⟨_, first⟩, later⟩
      exact decodeAll_cons first later

end

theorem decodeAll_error_iff {s : List Char} {cause : Numeral.Fault} :
    decodeAll s = .error (.numeral cause) ↔ decodeWithOffset s = .error (.numeral cause) ∨
      ∃ t rest, Gives (decodeWithOffset s) t rest ∧ decodeAll rest = .error (.numeral cause) := by
  cases s with
  | nil =>
    rw [decodeAll_of_nil]
    constructor
    · rintro ⟨⟩
    · rintro (failed | ⟨t, rest, ⟨shorter, -⟩, -⟩)
      · cases failed
      · exact absurd shorter (Nat.not_lt_zero _)
  | cons c cs =>
    rw [decodeAll_of_cons]
    exact error_bind_iff fun t rest _ => error_done_iff fun ts => ⟨_, rfl⟩

section
variable {α : Type} {source : String} {x : Except Failure α}

theorem located_error {e : Fault} (run : located source x = .error e) :
    (∃ cause position, e = .encoding cause source position) ∨
      (∃ cause, e = .misuse (.numeral cause) ∧ x = .error (.numeral cause)) ∨
        e = .misuse .stackExhausted ∧ x = .error .stack := by
  rcases x with (⟨cause, left⟩ | cause | _) | a
  · cases run
    exact .inl ⟨cause, _, rfl⟩
  · cases run
    exact .inr (.inl ⟨cause, rfl, rfl⟩)
  · cases run
    exact .inr (.inr ⟨rfl, rfl⟩)
  · cases run

theorem located_numeral_iff {cause : Numeral.Fault} :
    located source x = .error (.misuse (.numeral cause)) ↔ x = .error (.numeral cause) := by
  rcases x with (⟨other, left⟩ | other | _) | a
  · constructor <;> rintro ⟨⟩
  · constructor <;> (rintro ⟨⟩; rfl)
  · constructor <;> rintro ⟨⟩
  · constructor <;> rintro ⟨⟩

end

theorem decode_ok_iff {source : String} {t : TypeCode} :
    decode source = .ok t ↔ Gives (decodeWithOffset source.toList) t [] := by
  constructor
  · intro run
    obtain ⟨⟨b, rest, shorter⟩, first, run⟩ := of_bind_ok (located_ok run)
    dsimp only at run
    split at run
    · next none =>
      cases run
      obtain rfl := List.isEmpty_iff.1 none
      exact ⟨shorter, first⟩
    · cases run
  · rintro ⟨_, read⟩
    exact decode_whole rfl read

theorem decode_numeral_iff {source : String} {cause : Numeral.Fault} :
    decode source = .error (.misuse (.numeral cause)) ↔
      decodeWithOffset source.toList = .error (.numeral cause) := by
  have step : decode source = .error (.misuse (.numeral cause)) ↔
      decodeWithOffset source.toList = .error (.numeral cause) ∨
        ∃ t rest, Gives (decodeWithOffset source.toList) t rest ∧ False := by
    apply located_numeral_iff.trans
    refine error_bind_iff fun t rest _ => ?_
    dsimp only
    split
    · exact ⟨by rintro ⟨⟩, False.elim⟩
    · exact ⟨not_fail_numeral, False.elim⟩
  simpa only [and_false, exists_false, or_false] using step

theorem decodeSignature_ok_iff {source : String} {sig : MethodSignature} :
    decodeSignature source = .ok sig ↔
      decodeAll source.toList = .ok (sig.returns :: sig.arguments) := by
  constructor
  · intro run
    obtain ⟨⟨t, rest, shorter⟩, first, run⟩ := of_bind_ok (located_ok run)
    obtain ⟨ts, later, run⟩ := of_bind_ok run
    cases run
    exact decodeAll_cons_iff.2 ⟨rest, ⟨shorter, first⟩, later⟩
  · intro run
    obtain ⟨rest, ⟨_, first⟩, later⟩ := decodeAll_cons_iff.1 run
    exact decodeSignature_whole rfl first later

theorem decodeSignature_numeral_iff {source : String} {cause : Numeral.Fault} :
    decodeSignature source = .error (.misuse (.numeral cause)) ↔
      decodeAll source.toList = .error (.numeral cause) := by
  rw [decodeAll_error_iff]
  apply located_numeral_iff.trans
  exact error_bind_iff fun t rest _ => error_done_iff fun ts => ⟨_, rfl⟩

end MachImage.TypeCode
