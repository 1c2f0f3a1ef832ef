import MachImage.Proofs.TypeCode.Steps
/-!
How far decoding looks. What was decoded of some text comes out the same when other text stands
behind it, unless that begins with a letter which the type takes.
-/
namespace MachImage.TypeCode

/-- Text that can take the place of the rest that was left behind a type. -/
def Joins (t : TypeCode) (rest later : List Char) : Prop :=
  Clear t later ∨ later.head? = rest.head?

/-- A reader of types whose answer is settled by what it reads. -/
def Settled {bound : List Char → Nat}
    (f : (s : List Char) → Except Failure (Parsed TypeCode (bound s))) : Prop :=
  ∀ s t rest, Gives (f s) t rest → ∃ read, s = read ++ rest ∧
    ∀ later, Joins t rest later → Gives (f (read ++ later)) t later

section
variable {first second : List Char}

theorem head?_append_congr {text : List Char} (some : text ≠ []) :
    (text ++ first).head? = (text ++ second).head? := by
  cases text with
  | nil => exact absurd rfl some
  | cons c cs => rfl

theorem head?_behind_congr (same : first.head? = second.head?) (read : List Char) :
    (read ++ first).head? = (read ++ second).head? := by
  rw [List.head?_append, List.head?_append, same]

theorem Joins.head?_ne {t : TypeCode} {c : Char} (joins : Joins t first second)
    (taken : takes t c = true) (stop : first.head? ≠ some c) : second.head? ≠ some c := by
  intro head
  rcases joins with clear | same
  · rw [clear c head] at taken
    cases taken
  · exact stop (same.symm.trans head)

end

theorem memberName?_kept {c : Char} {cs text : List Char} {name : Option String}
    (found : memberName? c cs = some (name, text)) : ∃ read, c :: cs = read ++ text ∧
      ∀ later, later.head? = text.head? →
        ∃ cs', read ++ later = c :: cs' ∧ memberName? c cs' = some (name, later) := by
  rcases memberName?_eq_some_iff.1 found with ⟨noQuote, rfl, rfl⟩ | ⟨quoted, rfl, rfl, rfl, free⟩
  · refine ⟨[], rfl, fun later same => ?_⟩
    obtain ⟨cs', rfl⟩ := List.head?_eq_some_iff.1 same
    exact ⟨cs', rfl, memberName?_eq_some_iff.2 (.inl ⟨noQuote, rfl, rfl⟩)⟩
  · refine ⟨'"' :: (quoted.toList ++ ['"']), congrArg ('"' :: ·) (List.append_cons ..), ?_⟩
    intro later _
    exact ⟨_, congrArg ('"' :: ·) (List.append_cons ..).symm,
      memberName?_eq_some_iff.2 (.inr ⟨quoted, rfl, rfl, rfl, free⟩)⟩

theorem Settled.text {one : Step TypeCode} (settled : Settled one) {c : Char} {cs mid : List Char}
    {t : TypeCode} (first : Gives (one (c :: cs)) t mid) : ∃ read, cs = read ++ mid ∧
      ∀ later, Joins t mid later → Gives (one (c :: (read ++ later))) t later := by
  obtain ⟨read, whole, again⟩ := settled _ _ _ first
  cases read with
  | nil =>
    obtain ⟨shorter, -⟩ := first
    have whole : c :: cs = mid := whole
    rw [whole] at shorter
    exact absurd shorter (Nat.lt_irrefl _)
  | cons d read =>
    obtain ⟨rfl, rfl⟩ := List.cons.inj whole
    exact ⟨read, rfl, again⟩

section
variable {one : Step TypeCode} (settled : Settled one)
include settled

theorem blockTypes_kept {opened : Nat} {ts : List TypeCode} {rest : List Char} :
    ∀ s, Gives (blockTypes one opened s) ts rest → ∃ read, read ≠ [] ∧ s = read ++ rest ∧
      ∀ opened later, Gives (blockTypes one opened (read ++ later)) ts later
  | [], found => absurd found blockTypes_nil_not_gives
  | c :: cs, found => by
    by_cases close : c = '>'
    · subst close
      obtain ⟨rfl, rfl⟩ := blockTypes_close_gives_iff.1 found
      exact ⟨['>'], List.cons_ne_nil _ _, rfl, fun opened later =>
        blockTypes_close_gives_iff.2 ⟨rfl, rfl⟩⟩
    · obtain ⟨t, mid, first, offset, behind, scan, more, last, inner, rfl, rfl⟩ :=
        (blockTypes_gives_iff close).1 found
      have shorter : behind.length < (c :: cs).length := by
        obtain ⟨shorter, -⟩ := first
        obtain ⟨within, -⟩ := scan
        omega
      obtain ⟨text, some, rfl, inside⟩ := blockTypes_kept behind inner
      obtain ⟨run, rfl, scans⟩ := digits_gives_iff.1 scan
      obtain ⟨read, rfl, again⟩ := settled.text first
      refine ⟨c :: (read ++ (run ++ text)), List.cons_ne_nil _ _, by simp, ?_⟩
      intro opened later
      have noDigit : NoDigit (text ++ later) := scans.noDigit.congr (head?_append_congr some)
      have joins : Joins t (run ++ (text ++ rest)) (run ++ (text ++ later)) :=
        .inr (head?_behind_congr (head?_append_congr some) run)
      have parts : c :: (read ++ (run ++ text)) ++ later =
          c :: (read ++ (run ++ (text ++ later))) := by simp
      rw [parts]
      exact (blockTypes_gives_iff close).2 ⟨t, _, again _ joins, offset, _, scans.again noDigit,
        more, later, inside opened later, rfl, rfl⟩
termination_by s => s.length
decreasing_by exact shorter

theorem decodeMembers_kept {form : AggregateForm} {opened : Nat} {ms : List (Member TypeCode)}
    {rest : List Char} :
    ∀ s, Gives (decodeMembers one form opened s) ms rest → ∃ read, read ≠ [] ∧ s = read ++ rest ∧
      ∀ opened later, Gives (decodeMembers one form opened (read ++ later)) ms later
  | [], found => absurd found decodeMembers_nil_not_gives
  | c :: cs, found => by
    by_cases close : c = form.closeChar
    · subst close
      obtain ⟨rfl, rfl⟩ := decodeMembers_close_gives_iff.1 found
      exact ⟨[form.closeChar], List.cons_ne_nil _ _, rfl, fun opened later =>
        decodeMembers_close_gives_iff.2 ⟨rfl, rfl⟩⟩
    · obtain ⟨name, text, named, t, mid, first, more, last, inner, rfl, rfl⟩ :=
        (decodeMembers_gives_iff close).1 found
      obtain ⟨quoted, whole, named⟩ := memberName?_kept named
      have shorter : mid.length < (c :: cs).length := by
        obtain ⟨shorter, -⟩ := first
        rw [whole, List.length_append]
        omega
      obtain ⟨inside, some, rfl, members⟩ := decodeMembers_kept mid inner
      obtain ⟨read, rfl, again⟩ := settled _ _ _ first
      refine ⟨quoted ++ (read ++ inside), ?_, by rw [whole]; simp, ?_⟩
      · simp [some]
      intro opened later
      have joins : Joins t (inside ++ rest) (inside ++ later) := .inr (head?_append_congr some)
      have same : (read ++ (inside ++ later)).head? = (read ++ (inside ++ rest)).head? :=
        head?_behind_congr (head?_append_congr some) read
      obtain ⟨cs', parts, named⟩ := named _ same
      have parts : quoted ++ (read ++ inside) ++ later = c :: cs' := by
        rw [← parts]
        simp
      rw [parts]
      exact (decodeMembers_gives_iff close).2
        ⟨name, _, named, t, _, again _ joins, more, later, members opened later, rfl, rfl⟩
termination_by s => s.length
decreasing_by exact shorter

theorem decodeBlock_settled : Settled (decodeBlock one) := by
  intro s t rest found
  by_cases angle : s.head? = some '<'
  · obtain ⟨cs, rfl⟩ := List.head?_eq_some_iff.1 angle
    obtain ⟨ts, last, inside, rfl, rfl⟩ := decodeBlock_gives_iff.1 found
    obtain ⟨read, -, rfl, again⟩ := blockTypes_kept settled cs inside
    exact ⟨'<' :: read, rfl, fun later _ =>
      decodeBlock_gives_iff.2 ⟨ts, later, again _ later, rfl, rfl⟩⟩
  · obtain ⟨rfl, rfl⟩ := (decodeBlock_bare_gives_iff angle).1 found
    exact ⟨[], rfl, fun later joins =>
      (decodeBlock_bare_gives_iff (joins.head?_ne (by decide) angle)).2 ⟨rfl, rfl⟩⟩

theorem decodeObject_settled : Settled (decodeObject one) := by
  have block := decodeBlock_settled settled
  intro s t rest found
  by_cases mark : s.head? = some '?'
  · obtain ⟨cs, rfl⟩ := List.head?_eq_some_iff.1 mark
    obtain ⟨read, rfl, again⟩ := block _ _ _ (decodeObject_gives_iff.1 found)
    exact ⟨'?' :: read, rfl, fun later joins => decodeObject_gives_iff.2 (again later joins)⟩
  by_cases quote : s.head? = some '"'
  · obtain ⟨cs, rfl⟩ := List.head?_eq_some_iff.1 quote
    obtain ⟨name, rfl, free, rfl⟩ := decodeObject_quoted_gives_iff.1 found
    refine ⟨'"' :: (name.toList ++ ['"']), congrArg ('"' :: ·) (List.append_cons ..), ?_⟩
    intro later _
    rw [List.cons_append, ← List.append_cons]
    exact decodeObject_quoted_gives_iff.2 ⟨name, rfl, free, rfl⟩
  · obtain ⟨rfl, rfl⟩ := (decodeObject_bare_gives_iff mark quote).1 found
    exact ⟨[], rfl, fun later joins =>
      (decodeObject_bare_gives_iff (joins.head?_ne (by decide) mark)
        (joins.head?_ne (by decide) quote)).2 ⟨rfl, rfl⟩⟩

theorem decodeArray_settled : Settled (decodeArray one) := by
  intro s t rest found
  obtain ⟨count, mid, scan, n, rfl, element, last, inside, rfl, rfl⟩ :=
    decodeArray_gives_iff.1 found
  obtain ⟨run, rfl, scans⟩ := digits_gives_iff.1 scan
  obtain ⟨read, rfl, again⟩ := settled _ _ _ inside
  refine ⟨run ++ (read ++ [']']), by simp, fun later _ => ?_⟩
  have parts : run ++ (read ++ [']']) ++ later = run ++ (read ++ ']' :: later) := by simp
  have same : (']' :: later).head? = (']' :: rest).head? := rfl
  have noDigit : NoDigit (read ++ ']' :: later) :=
    scans.noDigit.congr (head?_behind_congr same read)
  rw [parts]
  exact decodeArray_gives_iff.2 ⟨some n, _, scans.again noDigit, n, rfl, element, _,
    again _ (.inr same), rfl, rfl⟩

theorem decodeAggregate_settled (form : AggregateForm) : Settled (decodeAggregate one form) := by
  intro s t rest found
  obtain ⟨name, free, ⟨rfl, rfl⟩ | ⟨text, ms, rfl, members, rfl⟩⟩ :=
    decodeAggregate_gives_iff.1 found
  · refine ⟨name.toList ++ [form.closeChar], List.append_cons .., fun later _ => ?_⟩
    rw [← List.append_cons]
    exact decodeAggregate_gives_iff.2 ⟨name, free, .inl ⟨rfl, rfl⟩⟩
  · obtain ⟨read, -, rfl, again⟩ := decodeMembers_kept settled text members
    refine ⟨name.toList ++ '=' :: read, by simp, fun later _ => ?_⟩
    rw [List.append_assoc, List.cons_append]
    exact decodeAggregate_gives_iff.2
      ⟨name, free, .inr ⟨read ++ later, ms, rfl, again _ later, rfl⟩⟩

end

theorem decodeBitfield_settled : Settled decodeBitfield := by
  intro s t rest found
  obtain ⟨width, mid, scan, n, rfl, rfl, rfl⟩ := decodeBitfield_gives_iff.1 found
  obtain ⟨run, rfl, scans⟩ := digits_gives_iff.1 scan
  refine ⟨run, rfl, fun later joins => ?_⟩
  have noDigit : NoDigit later := by
    rcases joins with clear | same
    · exact clear
    · exact scans.noDigit.congr same
  exact decodeBitfield_gives_iff.2 ⟨some n, later, scans.again noDigit, n, rfl, rfl, rfl⟩

theorem decodePointer_settled {one : Step TypeCode} (settled : Settled one) :
    Settled (decodeBody one '^') := by
  intro s t rest found
  obtain ⟨element, last, inside, rfl, rfl⟩ := decodePointer_gives_iff.1 found
  obtain ⟨read, rfl, again⟩ := settled _ _ _ inside
  exact ⟨read, rfl, fun later joins =>
    decodePointer_gives_iff.2 ⟨element, later, again later joins, rfl, rfl⟩⟩

theorem settled_letter (t : TypeCode) :
    Settled fun s => (.ok ⟨t, s, Nat.lt_succ_self _⟩ : Result TypeCode s) := by
  intro s t' rest found
  obtain ⟨rfl, rfl⟩ := gives_ok_iff.1 found
  exact ⟨[], rfl, fun later _ => gives_ok_iff.2 ⟨rfl, rfl⟩⟩

theorem decodeBody_settled {one : Step TypeCode} (settled : Settled one) (c : Char) :
    Settled (decodeBody one c) := by
  obtain ⟨f, reader, same⟩ := decodeBody_reader c
  rw [funext (same one)]
  cases reader with
  | primitive p => exact settled_letter _
  | object => exact decodeObject_settled settled
  | pointer => exact decodePointer_settled settled
  | array => exact decodeArray_settled settled
  | aggregate form => exact decodeAggregate_settled settled form
  | bitfield => exact decodeBitfield_settled
  | unknown => exact settled_letter _

theorem decodeOne_settled (d : Nat) : Settled (decodeOne d) := by
  induction d with
  | zero =>
    intro s t rest found
    exact absurd found not_gives_fail
  | succ d ih =>
    have body := decodeBody_settled ih
    intro s t rest found
    obtain ⟨before, c, cs, rfl, all, stop, found⟩ := decodeOne_gives_iff.1 found
    obtain ⟨read, rfl, again⟩ := body c _ _ _ found
    refine ⟨before ++ c :: read, by simp, fun later joins => ?_⟩
    rw [List.append_assoc, List.cons_append]
    exact decodeOne_gives_iff.2 ⟨before, c, _, rfl, all, stop, again later joins⟩

end MachImage.TypeCode
