import Mathlib
import MachImage.Proofs.Text.Numerals
import MachImage.Proofs.TypeCode.Locality
/-!
What the decoder fails with. It tells what is wrong with an encoding, and where, unless the stack
has too few frames for it, or it comes to digits that stand for no number: those of other scripts
that are not decimal, and those that are too many. It scans for digits behind a type in a row, for
the count of an array and for the width of a bitfield; these are the places where a number is due.
-/
namespace MachImage.TypeCode

/-- The digits that come next, if any do, stand for a number. -/
def Readable (s : List Char) : Prop :=
  (∀ c ∈ s.takeWhile Numeral.isDigit, (Numeral.decimal? c).isSome = true) ∧
    (s.takeWhile Numeral.isDigit).length ≤ Numeral.limit

theorem readable_iff {s : List Char} :
    Readable s ↔ ∀ cause, ¬ digits s = .error (.numeral cause) := by
  obtain ⟨run, rest, rfl, noDigit, ⟨value, scans⟩ | ⟨cause, refused⟩⟩ := scan s
  · have taken := (takeWhile_digits scans.digits noDigit).1
    obtain ⟨_, gives⟩ := scans.again noDigit
    rw [Readable, taken, gives]
    have decimal : (∀ c ∈ run, (Numeral.decimal? c).isSome = true) ∧
        run.length ≤ Numeral.limit := by
      cases value with
      | none =>
        rw [scans.none rfl]
        exact ⟨List.forall_mem_nil _, Nat.zero_le _⟩
      | some n => exact Numeral.decimal_of_value (scans.number n rfl).2
    refine iff_of_true decimal fun cause => ?_
    rintro ⟨⟩
  · have taken := (takeWhile_digits refused.digits noDigit).1
    rw [Readable, taken]
    refine iff_of_false ?_ fun never => never cause (refused.stops noDigit)
    rintro ⟨decimal, short⟩
    cases refused.value.symm.trans (Numeral.value_of_decimal decimal short)

section
variable (one : Step TypeCode) (inner : List Char → List Char → Prop)

/-- Where a number is due in the types of a block, each with its offset. -/
inductive DueInBlock : List Char → List Char → Prop
  | type {c cs due} : c ≠ '>' → inner (c :: cs) due → DueInBlock (c :: cs) due
  | offset {c cs t due} : c ≠ '>' → Gives (one (c :: cs)) t due → DueInBlock (c :: cs) due
  | later {c cs t mid offset behind due} : c ≠ '>' → Gives (one (c :: cs)) t mid →
    Gives (digits mid) offset behind → DueInBlock behind due → DueInBlock (c :: cs) due

inductive DueInMembers (form : AggregateForm) : List Char → List Char → Prop
  | type {c cs name text due} : c ≠ form.closeChar → memberName? c cs = some (name, text) →
    inner text due → DueInMembers form (c :: cs) due
  | later {c cs name text t mid due} : c ≠ form.closeChar →
    memberName? c cs = some (name, text) → Gives (one text) t mid → DueInMembers form mid due →
      DueInMembers form (c :: cs) due

inductive DueInBody : Char → List Char → List Char → Prop
  | count {s} : DueInBody '[' s s
  | element {s n mid due} : Gives (digits s) (some n) mid → inner mid due → DueInBody '[' s due
  | width {s} : DueInBody 'b' s s
  | pointer {s due} : inner s due → DueInBody '^' s due
  | block {s due} : DueInBlock one inner s due → DueInBody '@' ('?' :: '<' :: s) due
  | member {c s due} (form : AggregateForm) (name : String) (text : List Char) :
    c = form.openChar → (∀ c ∈ name.toList, c ≠ '=' ∧ c ≠ form.closeChar) →
      s = name.toList ++ '=' :: text → DueInMembers one inner form text due → DueInBody c s due

end

section
variable {one : Step TypeCode} {inner : List Char → List Char → Prop} {c : Char}
  {s due : List Char}

theorem DueInBody.listed (h : DueInBody one inner c s due) :
    c ∈ ['@', '^', '[', '\x7b', '(', 'b'] := by
  cases h with
  | count | element | width | pointer | block => decide
  | member form name text opens =>
    rw [opens]
    cases form <;> decide

theorem dueInBody_object_iff :
    DueInBody one inner '@' s due ↔
      ∃ text, s = '?' :: '<' :: text ∧ DueInBlock one inner text due := by
  constructor
  · intro h
    cases h with
    | block due => exact ⟨_, rfl, due⟩
    | member form name text opens => cases form <;> cases opens
  · rintro ⟨text, rfl, due⟩
    exact .block due

theorem dueInBody_pointer_iff : DueInBody one inner '^' s due ↔ inner s due := by
  constructor
  · intro h
    cases h with
    | pointer due => exact due
    | member form name text opens => cases form <;> cases opens
  · exact .pointer

theorem dueInBody_array_iff :
    DueInBody one inner '[' s due ↔
      due = s ∨ ∃ n mid, Gives (digits s) (some n) mid ∧ inner mid due := by
  constructor
  · intro h
    cases h with
    | count => exact .inl rfl
    | element scan due => exact .inr ⟨_, _, scan, due⟩
    | member form name text opens => cases form <;> cases opens
  · rintro (rfl | ⟨n, mid, scan, due⟩)
    · exact .count
    · exact .element scan due

theorem dueInBody_bitfield_iff : DueInBody one inner 'b' s due ↔ due = s := by
  constructor
  · intro h
    cases h with
    | width => rfl
    | member form name text opens => cases form <;> cases opens
  · rintro rfl
    exact .width

theorem dueInBody_aggregate_iff {form : AggregateForm} :
    DueInBody one inner form.openChar s due ↔ ∃ (name : String) (text : List Char),
      (∀ c ∈ name.toList, c ≠ '=' ∧ c ≠ form.closeChar) ∧ s = name.toList ++ '=' :: text ∧
        DueInMembers one inner form text due := by
  constructor
  · intro h
    generalize opens : form.openChar = c at h
    cases h with
    | member other name text same free parts due =>
      have form : form = other := by
        rw [same] at opens
        cases form <;> cases other <;> first | rfl | cases opens
      subst form
      exact ⟨name, text, free, parts, due⟩
    | count | element | width | pointer | block => cases form <;> cases opens
  · rintro ⟨name, text, free, parts, due⟩
    exact .member form name text rfl free parts due

end

/-- Where a number is due in one type, nested at most so many levels deep. -/
def Due : Nat → List Char → List Char → Prop
  | 0, _, _ => False
  | depth + 1, s, due => ∃ before c cs, s = before ++ c :: cs ∧
    (∀ q ∈ before, qualifiers.contains q = true) ∧ qualifiers.contains c = false ∧
      DueInBody (decodeOne depth) (Due depth) c cs due

def DueWithOffset (s due : List Char) : Prop :=
  Due maxDepth s due ∨ ∃ t, Gives (decodeOne maxDepth s) t due

inductive DueInRow : List Char → List Char → Prop
  | first {s due} : DueWithOffset s due → DueInRow s due
  | later {s t rest due} : Gives (decodeWithOffset s) t rest → DueInRow rest due → DueInRow s due

/-- Digits stop a reader at the places where a number is due, and nowhere else. -/
def StopsAt {α : List Char → Type} (f : (s : List Char) → Except Failure (α s))
    (due : List Char → List Char → Prop) : Prop :=
  ∀ s cause, f s = .error (.numeral cause) ↔
    ∃ place, due s place ∧ digits place = .error (.numeral cause)

section
variable {one : Step TypeCode} {inner : List Char → List Char → Prop} (stops : StopsAt one inner)
include stops

-- The due places are found along the run of the reader, which goes by the length of what is left.
theorem blockTypes_due (opened : Nat) (cause : Numeral.Fault) :
    ∀ s, blockTypes one opened s = .error (.numeral cause) →
      ∃ place, DueInBlock one inner s place ∧ digits place = .error (.numeral cause)
  | [], failed => by
    rw [blockTypes] at failed
    cases failed
  | c :: cs, failed => by
    by_cases close : c = '>'
    · subst close
      exact absurd failed blockTypes_close_not_error
    rcases (blockTypes_error_iff close).1 failed with here | ⟨t, mid, first, behind⟩
    · obtain ⟨place, due, refused⟩ := (stops _ _).1 here
      exact ⟨place, .type close due, refused⟩
    rcases behind with here | ⟨offset, behind, scan, later⟩
    · exact ⟨mid, .offset close first, here⟩
    · have shorter : behind.length < (c :: cs).length :=
        Nat.lt_of_lt_of_le scan.choose first.choose
      obtain ⟨place, due, refused⟩ := blockTypes_due opened cause behind later
      exact ⟨place, .later close first scan due, refused⟩
termination_by s => s.length
decreasing_by exact shorter

theorem blockTypes_stopsAt (opened : Nat) :
    StopsAt (blockTypes one opened) (DueInBlock one inner) := by
  refine fun s cause => ⟨blockTypes_due stops opened cause s, ?_⟩
  rintro ⟨place, due, refused⟩
  induction due with
  | type inside due =>
    exact (blockTypes_error_iff inside).2 (.inl ((stops _ _).2 ⟨_, due, refused⟩))
  | offset inside first =>
    exact (blockTypes_error_iff inside).2 (.inr ⟨_, _, first, .inl refused⟩)
  | later inside first scan _ ih =>
    exact (blockTypes_error_iff inside).2 (.inr ⟨_, _, first, .inr ⟨_, _, scan, ih refused⟩⟩)

theorem decodeMembers_due (form : AggregateForm) (opened : Nat) (cause : Numeral.Fault) :
    ∀ s, decodeMembers one form opened s = .error (.numeral cause) →
      ∃ place, DueInMembers one inner form s place ∧ digits place = .error (.numeral cause)
  | [], failed => by
    rw [decodeMembers] at failed
    cases failed
  | c :: cs, failed => by
    by_cases close : c = form.closeChar
    · subst close
      exact absurd failed decodeMembers_close_not_error
    obtain ⟨name, text, named, failed⟩ := (decodeMembers_error_iff close).1 failed
    rcases failed with here | ⟨t, mid, first, later⟩
    · obtain ⟨place, due, refused⟩ := (stops _ _).1 here
      exact ⟨place, .type close named due, refused⟩
    · have shorter : mid.length < (c :: cs).length :=
        Nat.lt_of_lt_of_le first.choose (length_le_of_memberName? named)
      obtain ⟨place, due, refused⟩ := decodeMembers_due form opened cause mid later
      exact ⟨place, .later close named first due, refused⟩
termination_by s => s.length
decreasing_by exact shorter

theorem decodeMembers_stopsAt (form : AggregateForm) (opened : Nat) :
    StopsAt (decodeMembers one form opened) (DueInMembers one inner form) := by
  refine fun s cause => ⟨decodeMembers_due stops form opened cause s, ?_⟩
  rintro ⟨place, due, refused⟩
  induction due with
  | type inside named due =>
    exact (decodeMembers_error_iff inside).2
      ⟨_, _, named, .inl ((stops _ _).2 ⟨_, due, refused⟩)⟩
  | later inside named first _ ih =>
    exact (decodeMembers_error_iff inside).2 ⟨_, _, named, .inr ⟨_, _, first, ih refused⟩⟩

theorem decodeObject_stopsAt : StopsAt (decodeObject one) (DueInBody one inner '@') := by
  intro s cause
  simp only [dueInBody_object_iff]
  by_cases mark : s.head? = some '?'
  · obtain ⟨cs, rfl⟩ := List.head?_eq_some_iff.1 mark
    rw [decodeObject_error_iff]
    by_cases angle : cs.head? = some '<'
    · obtain ⟨text, rfl⟩ := List.head?_eq_some_iff.1 angle
      rw [decodeBlock_error_iff, blockTypes_stopsAt stops]
      simp
    · refine iff_of_false (decodeBlock_bare_not_error angle) ?_
      rintro ⟨place, ⟨text, same, -⟩, -⟩
      cases same
      exact angle rfl
  · have none : ¬ ∃ place, (∃ text, s = '?' :: '<' :: text ∧ DueInBlock one inner text place) ∧
        digits place = .error (.numeral cause) := by
      rintro ⟨place, ⟨text, rfl, -⟩, -⟩
      exact mark rfl
    refine iff_of_false ?_ none
    by_cases quote : s.head? = some '"'
    · obtain ⟨cs, rfl⟩ := List.head?_eq_some_iff.1 quote
      exact decodeObject_quoted_not_error
    · exact decodeObject_bare_not_error mark quote

theorem decodeArray_stopsAt : StopsAt (decodeArray one) (DueInBody one inner '[') := by
  intro s cause
  rw [decodeArray_error_iff]
  simp only [dueInBody_array_iff]
  constructor
  · rintro (here | ⟨_, mid, scan, n, rfl, inside⟩)
    · exact ⟨s, .inl rfl, here⟩
    · obtain ⟨place, due, refused⟩ := (stops _ _).1 inside
      exact ⟨place, .inr ⟨n, mid, scan, due⟩, refused⟩
  · rintro ⟨place, rfl | ⟨n, mid, scan, due⟩, refused⟩
    · exact .inl refused
    · exact .inr ⟨_, mid, scan, n, rfl, (stops _ _).2 ⟨place, due, refused⟩⟩

theorem decodeAggregate_stopsAt (form : AggregateForm) :
    StopsAt (decodeAggregate one form) (DueInBody one inner form.openChar) := by
  intro s cause
  rw [decodeAggregate_error_iff]
  simp only [dueInBody_aggregate_iff, decodeMembers_stopsAt stops form _ _ cause]
  constructor
  · rintro ⟨name, text, free, parts, place, due, refused⟩
    exact ⟨place, ⟨name, text, free, parts, due⟩, refused⟩
  · rintro ⟨place, ⟨name, text, free, parts, due⟩, refused⟩
    exact ⟨name, text, free, parts, place, due, refused⟩

theorem decodeBody_stopsAt (c : Char) : StopsAt (decodeBody one c) (DueInBody one inner c) := by
  obtain ⟨f, reader, same⟩ := decodeBody_reader c
  rw [funext (same one)]
  cases reader with
  | primitive p =>
    intro s cause
    refine iff_of_false (by rintro ⟨⟩) ?_
    rintro ⟨place, due, -⟩
    have listed := due.listed
    revert listed
    cases p <;> decide
  | object => exact decodeObject_stopsAt stops
  | pointer =>
    intro s cause
    rw [decodePointer_error_iff]
    simp only [dueInBody_pointer_iff]
    exact stops s cause
  | array => exact decodeArray_stopsAt stops
  | aggregate form => exact decodeAggregate_stopsAt stops form
  | bitfield =>
    intro s cause
    rw [decodeBitfield_error_iff]
    simp only [dueInBody_bitfield_iff, exists_eq_left]
  | unknown _ _ other =>
    intro s cause
    refine iff_of_false (by rintro ⟨⟩) ?_
    rintro ⟨place, due, -⟩
    exact other due.listed

end

theorem decodeOne_stopsAt (d : Nat) : StopsAt (decodeOne d) (Due d) := by
  induction d with
  | zero =>
    intro s cause
    refine iff_of_false not_fail_numeral ?_
    rintro ⟨place, never, -⟩
    exact never
  | succ d ih =>
    intro s cause
    rw [decodeOne_error_iff]
    constructor
    · rintro ⟨before, c, cs, parts, all, stop, failed⟩
      obtain ⟨place, due, refused⟩ := (decodeBody_stopsAt ih c _ _).1 failed
      exact ⟨place, ⟨before, c, cs, parts, all, stop, due⟩, refused⟩
    · rintro ⟨place, ⟨before, c, cs, parts, all, stop, due⟩, refused⟩
      exact ⟨before, c, cs, parts, all, stop, (decodeBody_stopsAt ih c _ _).2 ⟨place, due, refused⟩⟩

theorem decodeWithOffset_stopsAt : StopsAt decodeWithOffset DueWithOffset := by
  intro s cause
  rw [decodeWithOffset_error_iff, decodeOne_stopsAt]
  constructor
  · rintro (⟨place, due, refused⟩ | ⟨t, mid, first, refused⟩)
    · exact ⟨place, .inl due, refused⟩
    · exact ⟨mid, .inr ⟨t, first⟩, refused⟩
  · rintro ⟨place, due | ⟨t, first⟩, refused⟩
    · exact .inl ⟨place, due, refused⟩
    · exact .inr ⟨t, place, first, refused⟩

theorem decodeAll_due (cause : Numeral.Fault) :
    ∀ s, decodeAll s = .error (.numeral cause) →
      ∃ place, DueInRow s place ∧ digits place = .error (.numeral cause) := by
  intro s failed
  rcases decodeAll_error_iff.1 failed with here | ⟨t, rest, first, later⟩
  · obtain ⟨place, due, refused⟩ := (decodeWithOffset_stopsAt _ _).1 here
    exact ⟨place, .first due, refused⟩
  · have shorter : rest.length < s.length := first.choose
    obtain ⟨place, due, refused⟩ := decodeAll_due cause rest later
    exact ⟨place, .later first due, refused⟩
termination_by s => s.length

theorem decodeAll_stopsAt : StopsAt decodeAll DueInRow := by
  refine fun s cause => ⟨decodeAll_due cause s, ?_⟩
  rintro ⟨place, due, refused⟩
  induction due with
  | first due =>
    exact decodeAll_error_iff.2 (.inl ((decodeWithOffset_stopsAt _ _).2 ⟨_, due, refused⟩))
  | later first _ ih => exact decodeAll_error_iff.2 (.inr ⟨_, _, first, ih refused⟩)

/-- Whatever a decoder fails with says what is wrong with the encoding, and where. -/
def TellsFault {α : Type} (read : String → Except Fault α) (source : String) : Prop :=
  ∀ e, read source = .error e → ∃ cause position, e = .encoding cause source position

section
variable {α : Type} {on : Nat → String → Except Fault α} {read : String → Except Fault α}
  {source : String} {x : Except Failure α} {due : List Char → Prop} {needed : Nat}
  (spelled : read source = located source x)
  (settled : read source ≠ .error (.misuse .stackExhausted))
  (runs : ∀ frames, on frames source =
    if needed ≤ frames then read source else .error (.misuse .stackExhausted))
  (stops : ∀ cause, read source = .error (.misuse (.numeral cause)) ↔
    ∃ place, due place ∧ digits place = .error (.numeral cause))

include settled runs in
theorem exhausted_iff (frames : Nat) :
    on frames source = .error (.misuse .stackExhausted) ↔ frames < needed := by
  rw [runs frames]
  by_cases enough : needed ≤ frames
  · rw [if_pos enough]
    exact iff_of_false settled (Nat.not_lt_of_le enough)
  · rw [if_neg enough]
    exact iff_of_true rfl (Nat.lt_of_not_le enough)

include spelled settled runs stops in
theorem tellsFault_iff (frames : Nat) :
    TellsFault (on frames) source ↔ needed ≤ frames ∧ ∀ place, due place → Readable place := by
  unfold TellsFault
  rw [runs frames]
  by_cases enough : needed ≤ frames
  · rw [if_pos enough]
    simp only [readable_iff, enough, true_and]
    constructor
    · intro tells place due cause refused
      obtain ⟨_, _, other⟩ := tells _ ((stops cause).2 ⟨place, due, refused⟩)
      cases other
    · intro readable e failed
      rcases located_error (spelled.symm.trans failed) with
        encoding | ⟨cause, rfl, -⟩ | ⟨rfl, -⟩
      · exact encoding
      · obtain ⟨place, due, refused⟩ := (stops cause).1 failed
        exact absurd refused (readable place due cause)
      · exact absurd failed settled
  · rw [if_neg enough]
    refine iff_of_false (fun tells => ?_) fun both => enough both.1
    obtain ⟨_, _, other⟩ := tells _ rfl
    cases other

end

/-- A decoder gives a value or tells what is wrong with the encoding, exactly if there are frames
for it and digits that stand for a number, or none, stand wherever a number is due. -/
theorem decode_faults (source : String) :
    (∃ needed ≤ 1027,
      (∀ frames, decodeOn frames source = .error (.misuse .stackExhausted) ↔ frames < needed) ∧
      ∀ frames, TellsFault (decodeOn frames) source ↔
        needed ≤ frames ∧ ∀ due, DueWithOffset source.toList due → Readable due) ∧
    (∃ needed ≤ 1027,
      (∀ frames,
        decodeSignatureOn frames source = .error (.misuse .stackExhausted) ↔ frames < needed) ∧
      ∀ frames, TellsFault (decodeSignatureOn frames) source ↔
        needed ≤ frames ∧ ∀ due, DueInRow source.toList due → Readable due) := by
  constructor
  · obtain ⟨settled, needed, within, runs, -⟩ := decodeOn_eq source
    exact ⟨needed, within, exhausted_iff settled runs, tellsFault_iff rfl settled runs
      fun cause => decode_numeral_iff.trans (decodeWithOffset_stopsAt _ cause)⟩
  · obtain ⟨settled, needed, within, runs, -⟩ := decodeSignatureOn_eq source
    exact ⟨needed, within, exhausted_iff settled runs, tellsFault_iff rfl settled runs
      fun cause => decodeSignature_numeral_iff.trans (decodeAll_stopsAt _ cause)⟩

theorem dueWithOffset_width (cs : List Char) : DueWithOffset ('b' :: cs) cs :=
  .inl ⟨[], 'b', cs, rfl, List.forall_mem_nil _, by decide, .width⟩

theorem decode_faults_square :
    (∀ frames, ¬ TellsFault (decodeOn frames) "b²") ∧
    ∀ frames, ¬ TellsFault (decodeSignatureOn frames) "b²" := by
  obtain ⟨⟨_, -, -, type⟩, ⟨_, -, -, signature⟩⟩ := decode_faults "b²"
  have unreadable : ¬ Readable ['²'] := fun readable => by
    have decimal := readable.1 '²' (by decide)
    revert decimal
    decide
  have due := dueWithOffset_width ['²']
  exact ⟨fun frames tells => unreadable (((type frames).1 tells).2 _ due),
    fun frames tells => unreadable (((signature frames).1 tells).2 _ (.first due))⟩

/-- A width of one digit that is not decimal, and blocks that a thousand frames are too few for. -/
theorem decoders_stopped :
    (∀ frames ≥ 1027,
      decodeOn frames "b²" = .error (.misuse (.numeral (.notDecimal "²"))) ∧
      decodeSignatureOn frames "b²" = .error (.misuse (.numeral (.notDecimal "²")))) ∧
    ∃ s, encoding (blocks 250) = .ok s ∧
      decodeOn 1000 s = .error (.misuse .stackExhausted) := by
  constructor
  · intro frames enough
    have square : Refused ['²'] (.notDecimal "²") :=
      ⟨List.cons_ne_nil _ _, List.all_eq_true.1 (by decide), by cbv⟩
    have refused := square.stops noDigit_nil
    have due := dueWithOffset_width ['²']
    obtain ⟨type, signature⟩ := decodeOn_enough enough "b²"
    rw [type, signature]
    exact ⟨decode_numeral_iff.2 ((decodeWithOffset_stopsAt _ _).2 ⟨_, due, refused⟩),
      decodeSignature_numeral_iff.2 ((decodeAll_stopsAt _ _).2 ⟨_, .first due, refused⟩)⟩
  · have wf := blocks_wellFormed 250
    obtain ⟨back, -⟩ := decode_letters (blocks 250) wf.decoded wf.separated
      (String.ofList (letters (blocks 250))) String.toList_ofList
    obtain ⟨-, needed, -, runs, told⟩ := decodeOn_eq (String.ofList (letters (blocks 250)))
    have needs := told _ (back (by rw [depth_blocks]; decide))
    rw [encodingFrames_blocks] at needs
    exact ⟨_, encoding_eq _ wf.decoded, (runs 1000).trans (if_neg (by omega))⟩

end MachImage.TypeCode
