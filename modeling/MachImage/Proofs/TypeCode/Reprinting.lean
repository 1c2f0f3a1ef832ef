import Mathlib
import MachImage.Proofs.TypeCode.Steps
/-!
Printing what was decoded. The letters of a decoded code are no more than the text it was read from.
Where they are as many, nothing was dropped between its parts, so the code is separated. Hence the
encoding of a decoded code is decoded to the same code exactly if the code is separated.
-/
namespace MachImage.TypeCode

/-- What was read of some text, against what is printed of it. Equally many letters begin alike and
show how the parts are kept apart. -/
structure Shows (s printed rest : List Char) (apart : Prop) : Prop where
  fewer : printed.length + rest.length ≤ s.length
  kept : printed.length + rest.length = s.length → s.head? = printed.head? ∧ apart

structure Yields (s : List Char) (d : Nat) (t : TypeCode) (rest : List Char) : Prop where
  decoded : Decoded t
  shallow : depth t ≤ d
  printed : Shows s (letters t) rest (Separated t ∧ Clear t rest)

/-- Types in a row that were read from some text, with what closes the row. -/
structure YieldsRow (close s : List Char) (d : Nat) (ts : List TypeCode) (rest : List Char) :
    Prop where
  decoded : AllDecoded ts
  shallow : depths ts ≤ d
  printed : Shows s (allLetters ts ++ close) rest (RowSeparated close ts)

structure YieldsMembers (form : AggregateForm) (s : List Char) (d : Nat)
    (ms : List (Member TypeCode)) (rest : List Char) : Prop where
  decoded : MembersDecoded ms
  shallow : memberDepths ms ≤ d
  printed : Shows s (memberLetters ms ++ [form.closeChar]) rest (MembersSeparated form ms)

def YieldsTypes (one : Step TypeCode) (d : Nat) : Prop :=
  ∀ s t rest, Gives (one s) t rest → Yields s d t rest

section
variable {s printed rest : List Char} {apart : Prop}

theorem shows_whole (c : Char) (text : List Char) (h : apart) :
    Shows (c :: (text ++ rest)) (c :: text) rest apart := by
  refine ⟨?_, fun _ => ⟨rfl, h⟩⟩
  simp only [List.length_cons, List.length_append]
  omega

theorem Shows.behind (h : Shows s printed rest apart) (c : Char) (text : List Char) :
    Shows (c :: (text ++ s)) (c :: (text ++ printed)) rest apart := by
  have fewer := h.fewer
  constructor
  · simp only [List.length_cons, List.length_append]
    omega
  · intro equal
    simp only [List.length_cons, List.length_append] at equal
    exact ⟨rfl, (h.kept (by omega)).2⟩

end

structure Scanned (s : List Char) (value : Option Nat) (rest : List Char) : Prop where
  fewer : rest.length ≤ s.length
  noDigit : NoDigit rest
  kept : rest.length = s.length → rest = s
  number : ∀ n, value = some n →
    Short n ∧ (Nat.toDigits 10 n).length + rest.length ≤ s.length

theorem digits_scanned {s rest : List Char} {value : Option Nat}
    (found : Gives (digits s) value rest) : Scanned s value rest := by
  obtain ⟨run, rfl, scans⟩ := digits_gives_iff.1 found
  have lengths : (run ++ rest).length = run.length + rest.length := List.length_append
  refine ⟨by omega, scans.noDigit, fun equal => ?_, fun n same => ?_⟩
  · rw [List.length_eq_zero_iff.1 (by omega : run.length = 0)]
    rfl
  · obtain ⟨some, number⟩ := scans.number n same
    obtain ⟨fewer, short⟩ := Numeral.length_of_value some number
    refine ⟨⟨Int.natCast_nonneg n, Nat.le_trans fewer short⟩, ?_⟩
    rw [lengths]
    exact Nat.add_le_add_right fewer _

theorem protocolNames_fewer (inside : Option (List Char)) (s : List Char) :
    (protocolLetters (protocolNames inside s)).length ≤
      s.length + (inside.elim 0 fun run => run.length + 1) := by
  induction s generalizing inside with
  | nil => simp [protocolNames, protocolLetters]
  | cons c s ih =>
    have opened := ih (some [])
    have outside := ih none
    simp only [Option.elim_none, Option.elim_some, List.length_nil, List.length_cons]
      at opened outside ⊢
    cases inside with
    | none =>
      rw [protocolNames]
      split <;> omega
    | some run =>
      have longer := ih (some (c :: run))
      simp only [Option.elim_some, List.length_cons] at longer ⊢
      rw [protocolNames]
      split
      · omega
      · split
        · simp only [protocolLetters, String.toList_ofList, List.length_cons, List.length_append,
            List.length_reverse]
          omega
        · omega

theorem protocolNames_plain {inside : Option (List Char)} {s : List Char}
    (run : ∀ cs, inside = some cs → ∀ c ∈ cs, c ≠ '"' ∧ c ≠ '<' ∧ c ≠ '>')
    (free : ∀ c ∈ s, c ≠ '"') : ∀ p ∈ protocolNames inside s, IsPlain p := by
  induction s generalizing inside with
  | nil => simp [protocolNames]
  | cons c s ih =>
    obtain ⟨noQuote, free⟩ := List.forall_mem_cons.1 free
    have opened : ∀ p ∈ protocolNames (some []) s, IsPlain p := ih (by simp) free
    have outside : ∀ p ∈ protocolNames none s, IsPlain p := ih (by rintro _ ⟨⟩) free
    cases inside with
    | none =>
      rw [protocolNames]
      split
      · exact opened
      · exact outside
    | some cs =>
      have plain := run cs rfl
      rw [protocolNames]
      split
      · exact opened
      · next noOpen =>
        split
        · refine List.forall_mem_cons.2 ⟨?_, outside⟩
          intro d inName
          rw [String.toList_ofList, List.mem_reverse] at inName
          exact plain d inName
        · next noClose =>
          refine ih ?_ free
          rintro _ ⟨⟩
          exact List.forall_mem_cons.2 ⟨⟨noQuote, noOpen, noClose⟩, plain⟩

section
variable {s mid rest : List Char} {t : TypeCode}

theorem Yields.row {close behind : List Char} {d : Nat} {offset : Option Nat}
    {ts : List TypeCode} (first : Yields s d t mid) (opens : s.head? ≠ close.head?)
    (scanned : Scanned mid offset behind) (later : YieldsRow close behind d ts rest) :
    YieldsRow close s d (t :: ts) rest := by
  have fewer := first.printed.fewer
  have between := scanned.fewer
  have fewerLater := later.printed.fewer
  obtain ⟨c, cs, spelled, -⟩ := letters_open first.decoded
  refine ⟨⟨first.decoded, later.decoded⟩, Nat.max_le.2 ⟨first.shallow, later.shallow⟩, ?_⟩
  rw [allLetters, List.append_assoc]
  constructor
  · rw [List.length_append]
    omega
  · intro equal
    rw [List.length_append] at equal
    obtain ⟨begins, separated, clear⟩ := first.printed.kept (by omega)
    obtain ⟨next, row⟩ := later.printed.kept (by omega)
    have noOffset := scanned.noDigit.congr next.symm
    rw [scanned.kept (by omega)] at next
    refine ⟨?_, separated, ⟨?_, clear.congr next.symm, noOffset⟩, row⟩
    · rw [begins, spelled]
      rfl
    · rwa [← begins]

theorem Yields.member {form : AggregateForm} {d : Nat} {name : Option String}
    {ms : List (Member TypeCode)} (first : Yields s d t mid)
    (opens : name = none → ∀ c ∈ s.head?, c ≠ '"' ∧ c ≠ form.closeChar)
    (later : YieldsMembers form mid d ms rest) :
    Shows s (letters t ++ (memberLetters ms ++ [form.closeChar])) rest
      (MembersSeparated form (⟨name, t⟩ :: ms)) := by
  have fewer := first.printed.fewer
  have fewerLater := later.printed.fewer
  obtain ⟨c, cs, spelled, -⟩ := letters_open first.decoded
  constructor
  · rw [List.length_append]
    omega
  · intro equal
    rw [List.length_append] at equal
    obtain ⟨begins, separated, clear⟩ := first.printed.kept (by omega)
    obtain ⟨next, members⟩ := later.printed.kept (by omega)
    refine ⟨?_, separated, ⟨?_, clear.congr next.symm⟩, members⟩
    · rw [begins, spelled]
      rfl
    · rwa [← begins]

end

theorem named_yields {name : Option String} {protocols : List String} {text : List Char}
    (decoded : Decoded (.object name protocols))
    (fewer : (nameLetters name).length + (protocolLetters protocols).length ≤ text.length)
    (rest : List Char) (d : Nat) :
    Yields ('@' :: '"' :: (text ++ '"' :: rest)) (d + 1) (.object name protocols) rest := by
  refine ⟨decoded, Nat.succ_le_succ (Nat.zero_le d), ?_⟩
  by_cases id : name = none ∧ protocols = []
  · obtain ⟨rfl, rfl⟩ := id
    constructor
    · simp only [letters, List.length_cons, List.length_append, List.length_nil]
      omega
    · intro equal
      simp only [letters, List.length_cons, List.length_append, List.length_nil] at equal
      omega
  · rw [letters_named id]
    constructor
    · simp only [List.length_cons, List.length_append, List.length_nil]
      omega
    · intro _
      refine ⟨rfl, trivial, fun c _ => ?_⟩
      cases name with
      | some s => rfl
      | none =>
        cases protocols with
        | nil => exact absurd ⟨rfl, rfl⟩ id
        | cons p ps => rfl

theorem quotedObject_yields {quoted : String} (free : ∀ c ∈ quoted.toList, c ≠ '"')
    (rest : List Char) (d : Nat) :
    Yields ('@' :: '"' :: (quoted.toList ++ '"' :: rest)) (d + 1) (quotedObject quoted) rest := by
  have cut := List.takeWhile_append_dropWhile (p := (· ≠ '<')) (l := quoted.toList)
  have noOpen : ∀ c ∈ quoted.toList.takeWhile (· ≠ '<'), c ≠ '<' := fun c member => by
    simpa using of_mem_takeWhile member
  have inside : ∀ c ∈ quoted.toList.takeWhile (· ≠ '<'), c ≠ '"' := fun c member =>
    free c ((List.takeWhile_sublist _).subset member)
  have behind := protocolNames_skip noOpen (quoted.toList.dropWhile (· ≠ '<'))
  have fewer := protocolNames_fewer none (quoted.toList.dropWhile (· ≠ '<'))
  rw [cut] at behind
  rw [← behind, Option.elim_none, Nat.add_zero] at fewer
  have lengths := congrArg List.length cut
  rw [List.length_append] at lengths
  have plain : ∀ p ∈ protocolNames none quoted.toList, IsPlain p :=
    protocolNames_plain (by rintro _ ⟨⟩) free
  rw [quotedObject]
  cases name : quoted.toList.takeWhile (· ≠ '<') with
  | nil =>
    refine named_yields ⟨fun s named => by simp at named, plain⟩ ?_ rest d
    simp only [List.isEmpty_nil, if_true, nameLetters, Option.getD_none, String.toList_empty,
      List.length_nil]
    omega
  | cons c cs =>
    rw [name] at noOpen inside lengths
    refine named_yields ⟨?_, plain⟩ ?_ rest d
    · rintro _ ⟨⟩
      rw [String.toList_ofList]
      refine ⟨?_, fun d member => ⟨inside d member, noOpen d member⟩⟩
      intro empty
      simpa using congrArg String.toList empty
    · simp only [List.isEmpty_cons, Bool.false_eq_true, if_false, nameLetters, Option.getD_some,
        String.toList_ofList]
      omega

theorem decodeBitfield_yields {s rest : List Char} {d : Nat} {t : TypeCode}
    (found : Gives (decodeBitfield s) t rest) : Yields ('b' :: s) (d + 1) t rest := by
  obtain ⟨width, mid, scan, n, same, rfl, rfl⟩ := decodeBitfield_gives_iff.1 found
  have scanned := digits_scanned scan
  obtain ⟨short, digits⟩ := scanned.number n same
  refine ⟨short, Nat.succ_le_succ (Nat.zero_le d), ?_, ?_⟩
  · simp only [letters, List.length_cons, Int.toNat_natCast]
    omega
  · exact fun _ => ⟨rfl, trivial, scanned.noDigit⟩

section
variable {one : Step TypeCode} {d : Nat} (yields : YieldsTypes one d)
include yields

theorem blockTypes_yields (opened : Nat) :
    ∀ s ts rest, Gives (blockTypes one opened s) ts rest → YieldsRow ['>'] s d ts rest
  | [], _, _, found => absurd found blockTypes_nil_not_gives
  | c :: cs, ts, rest, found => by
    by_cases close : c = '>'
    · subst close
      obtain ⟨rfl, rfl⟩ := blockTypes_close_gives_iff.1 found
      exact ⟨trivial, Nat.zero_le d, shows_whole '>' [] trivial⟩
    · obtain ⟨t, mid, first, offset, behind, scan, more, last, later, rfl, rfl⟩ :=
        (blockTypes_gives_iff close).1 found
      have scanned := digits_scanned scan
      have shorter : behind.length < cs.length + 1 :=
        Nat.lt_of_le_of_lt scanned.fewer first.choose
      exact (yields _ t _ first).row (fun same => close (Option.some.inj same)) scanned
        (blockTypes_yields opened behind more rest later)
termination_by s => s.length
decreasing_by exact shorter

theorem decodeMembers_yields (form : AggregateForm) (opened : Nat) :
    ∀ s ms rest, Gives (decodeMembers one form opened s) ms rest → YieldsMembers form s d ms rest
  | [], _, _, found => absurd found decodeMembers_nil_not_gives
  | c :: cs, ms, rest, found => by
    by_cases close : c = form.closeChar
    · subst close
      obtain ⟨rfl, rfl⟩ := decodeMembers_close_gives_iff.1 found
      exact ⟨trivial, Nat.zero_le d, shows_whole form.closeChar [] trivial⟩
    obtain ⟨name, text, named, t, mid, first, more, last, later, rfl, rfl⟩ :=
      (decodeMembers_gives_iff close).1 found
    have shorter : mid.length < cs.length + 1 :=
      Nat.lt_of_lt_of_le first.choose (length_le_of_memberName? named)
    have type := yields _ t _ first
    have members := decodeMembers_yields form opened mid more rest later
    rcases memberName?_eq_some_iff.1 named with
      ⟨noQuote, rfl, rfl⟩ | ⟨quoted, rfl, rfl, rfl, free⟩
    · refine ⟨⟨?_, type.decoded, members.decoded⟩,
        Nat.max_le.2 ⟨type.shallow, members.shallow⟩, ?_⟩
      · rintro _ ⟨⟩
      · rw [memberLetters, List.append_assoc]
        apply type.member _ members
        rintro - _ ⟨⟩
        exact ⟨noQuote, close⟩
    · refine ⟨⟨?_, type.decoded, members.decoded⟩,
        Nat.max_le.2 ⟨type.shallow, members.shallow⟩, ?_⟩
      · rintro _ ⟨⟩
        exact free
      · have member : Shows text _ rest (MembersSeparated form (⟨some quoted, t⟩ :: more)) :=
          type.member (by rintro ⟨⟩) members
        have named := member.behind '"' (quoted.toList ++ ['"'])
        simp only [List.append_assoc, List.singleton_append] at named
        rw [memberLetters]
        simp only [List.cons_append, List.append_assoc]
        exact named
termination_by s => s.length
decreasing_by exact shorter

theorem decodeBlock_yields {s rest : List Char} {t : TypeCode}
    (found : Gives (decodeBlock one s) t rest) : Yields ('@' :: '?' :: s) (d + 1) t rest := by
  by_cases angle : s.head? = some '<'
  · obtain ⟨cs, rfl⟩ := List.head?_eq_some_iff.1 angle
    obtain ⟨ts, last, inside, rfl, rfl⟩ := decodeBlock_gives_iff.1 found
    have row := blockTypes_yields yields _ cs ts rest inside
    cases ts with
    | nil =>
      -- A block without types is printed without the brackets.
      have fewer := row.printed.fewer
      simp only [allLetters, List.nil_append, List.length_singleton] at fewer
      refine ⟨trivial, Nat.succ_le_succ (Nat.zero_le d), ?_, ?_⟩
      · simp only [blockSignature, letters, List.length_cons, List.length_nil]
        omega
      · intro equal
        simp only [blockSignature, letters, List.length_cons, List.length_nil] at equal
        omega
    | cons returns arguments =>
      have block := row.printed.behind '@' ['?', '<']
      rw [allLetters] at block
      exact ⟨row.decoded, Nat.succ_le_succ row.shallow, block.fewer, fun equal =>
        ⟨rfl, (block.kept equal).2, fun _ _ => rfl⟩⟩
  · obtain ⟨rfl, rfl⟩ := (decodeBlock_bare_gives_iff angle).1 found
    refine ⟨trivial, Nat.succ_le_succ (Nat.zero_le d), shows_whole '@' ['?'] ⟨trivial, ?_⟩⟩
    intro c first
    have other : c ≠ '<' := fun same => angle (same ▸ first)
    simp [takes, other]

theorem decodeObject_yields {s rest : List Char} {t : TypeCode}
    (found : Gives (decodeObject one s) t rest) : Yields ('@' :: s) (d + 1) t rest := by
  by_cases mark : s.head? = some '?'
  · obtain ⟨cs, rfl⟩ := List.head?_eq_some_iff.1 mark
    exact decodeBlock_yields yields (decodeObject_gives_iff.1 found)
  by_cases quote : s.head? = some '"'
  · obtain ⟨cs, rfl⟩ := List.head?_eq_some_iff.1 quote
    obtain ⟨name, rfl, free, rfl⟩ := decodeObject_quoted_gives_iff.1 found
    exact quotedObject_yields free rest d
  · obtain ⟨rfl, rfl⟩ := (decodeObject_bare_gives_iff mark quote).1 found
    have decoded : Decoded (.object none []) := ⟨by rintro _ ⟨⟩, by rintro _ ⟨⟩⟩
    refine ⟨decoded, Nat.succ_le_succ (Nat.zero_le d), shows_whole '@' [] ⟨trivial, ?_⟩⟩
    intro c first
    have noMark : c ≠ '?' := fun same => mark (same ▸ first)
    have noQuote : c ≠ '"' := fun same => quote (same ▸ first)
    simp [takes, noMark, noQuote]

theorem decodeArray_yields {s rest : List Char} {t : TypeCode}
    (found : Gives (decodeArray one s) t rest) : Yields ('[' :: s) (d + 1) t rest := by
  obtain ⟨count, mid, scan, n, same, element, last, inside, rfl, rfl⟩ :=
    decodeArray_gives_iff.1 found
  have scanned := digits_scanned scan
  obtain ⟨short, digits⟩ := scanned.number n same
  have type := yields _ element _ inside
  have fewer := type.printed.fewer
  rw [List.length_cons] at fewer
  refine ⟨⟨type.decoded, short⟩, Nat.succ_le_succ type.shallow, ?_, ?_⟩
  · simp only [letters, List.length_cons, List.length_append, List.length_nil, Int.toNat_natCast]
    omega
  · intro equal
    simp only [letters, List.length_cons, List.length_append, List.length_nil,
      Int.toNat_natCast] at equal
    have all : (letters element).length + (']' :: rest).length = mid.length := by
      rw [List.length_cons]
      omega
    obtain ⟨begins, separated, -⟩ := type.printed.kept all
    exact ⟨rfl, ⟨separated, scanned.noDigit.congr begins.symm⟩, fun _ _ => rfl⟩

theorem decodeAggregate_yields (form : AggregateForm) {s rest : List Char} {t : TypeCode}
    (found : Gives (decodeAggregate one form s) t rest) :
    Yields (form.openChar :: s) (d + 1) t rest := by
  obtain ⟨name, free, ⟨rfl, rfl⟩ | ⟨text, ms, rfl, inside, rfl⟩⟩ :=
    decodeAggregate_gives_iff.1 found
  · refine ⟨⟨name, rfl, free⟩, Nat.succ_le_succ (Nat.zero_le d), ?_⟩
    have whole : Shows _ _ rest True :=
      shows_whole form.openChar (name.toList ++ [form.closeChar]) trivial
    rw [← List.append_cons] at whole
    exact ⟨whole.fewer, fun _ => ⟨rfl, trivial, fun _ _ => rfl⟩⟩
  · have members := decodeMembers_yields yields form _ text ms rest inside
    refine ⟨⟨⟨name, rfl, free⟩, members.decoded⟩, Nat.succ_le_succ members.shallow, ?_⟩
    have whole := members.printed.behind form.openChar (name.toList ++ ['='])
    simp only [List.append_assoc, List.singleton_append] at whole
    exact ⟨whole.fewer, fun equal => ⟨rfl, (whole.kept equal).2, fun _ _ => rfl⟩⟩

theorem decodePointer_yields {s rest : List Char} {t : TypeCode}
    (found : Gives (decodeBody one '^' s) t rest) : Yields ('^' :: s) (d + 1) t rest := by
  obtain ⟨element, last, inside, rfl, rfl⟩ := decodePointer_gives_iff.1 found
  have type := yields _ element _ inside
  exact ⟨type.decoded, Nat.succ_le_succ type.shallow, type.printed.behind '^' []⟩

theorem decodeBody_yields {c : Char} (unqualified : qualifiers.contains c = false)
    {s rest : List Char} {t : TypeCode} (found : Gives (decodeBody one c s) t rest) :
    Yields (c :: s) (d + 1) t rest := by
  obtain ⟨f, reader, same⟩ := decodeBody_reader c
  rw [same] at found
  cases reader with
  | primitive p =>
    obtain ⟨rfl, rfl⟩ := gives_ok_iff.1 found
    exact ⟨trivial, Nat.succ_le_succ (Nat.zero_le d),
      shows_whole _ [] ⟨trivial, fun _ _ => rfl⟩⟩
  | object => exact decodeObject_yields yields found
  | pointer => exact decodePointer_yields yields found
  | array => exact decodeArray_yields yields found
  | aggregate form => exact decodeAggregate_yields yields form found
  | bitfield => exact decodeBitfield_yields found
  | unknown _ noPrimitive other =>
    obtain ⟨rfl, rfl⟩ := gives_ok_iff.1 found
    refine ⟨⟨c, rfl, noPrimitive, other, unqualified⟩, Nat.succ_le_succ (Nat.zero_le d), ?_⟩
    have letter : letters (.unknown (some c.toString)) = [c] := by simp [letters]
    rw [letter]
    exact shows_whole c [] ⟨trivial, fun _ _ => rfl⟩

end

/-- What is left of a text where equally many letters are left. -/
theorem Yields.behind {s cut rest : List Char} {d : Nat} {t : TypeCode} (h : Yields cut d t rest)
    (sublist : cut.Sublist s) : Yields s d t rest := by
  have fewer := h.printed.fewer
  have shorter := sublist.length_le
  refine ⟨h.decoded, h.shallow, by omega, fun equal => ?_⟩
  rw [← sublist.eq_of_length (by omega)]
  exact h.printed.kept (by omega)

theorem decodeOne_yields (d : Nat) : YieldsTypes (decodeOne d) d := by
  induction d with
  | zero =>
    intro s t rest found
    exact absurd found not_gives_fail
  | succ d ih =>
    intro s t rest found
    obtain ⟨before, c, cs, rfl, -, stop, body⟩ := decodeOne_gives_iff.1 found
    exact (decodeBody_yields ih stop body).behind (List.sublist_append_right before _)

theorem decodeWithOffset_yields {s rest : List Char} {t : TypeCode}
    (found : Gives (decodeWithOffset s) t rest) :
    ∃ mid offset, Yields s maxDepth t mid ∧ Scanned mid offset rest := by
  obtain ⟨_, mid, first, offset, _, scan, rfl, rfl⟩ := decodeWithOffset_gives_iff.1 found
  exact ⟨mid, offset, decodeOne_yields maxDepth s t mid first, digits_scanned scan⟩

theorem Yields.some_letter {s rest : List Char} {d : Nat} {t : TypeCode} (h : Yields s d t rest) :
    s.head? ≠ ([] : List Char).head? := by
  obtain ⟨c, cs, spelled, -⟩ := letters_open h.decoded
  have fewer := h.printed.fewer
  rw [spelled, List.length_cons] at fewer
  cases s with
  | nil => exact absurd fewer (by simp)
  | cons c s => exact Option.some_ne_none c

theorem decodeAll_yields {s : List Char} {ts : List TypeCode} (run : decodeAll s = .ok ts) :
    YieldsRow [] s maxDepth ts [] := by
  induction ts generalizing s with
  | nil =>
    obtain rfl := decodeAll_nil_iff.1 run
    exact ⟨trivial, Nat.zero_le _, Nat.le_refl _, fun _ => ⟨rfl, trivial⟩⟩
  | cons t ts ih =>
    obtain ⟨rest, first, later⟩ := decodeAll_cons_iff.1 run
    obtain ⟨mid, offset, type, scanned⟩ := decodeWithOffset_yields first
    exact type.row type.some_letter scanned (ih later)

theorem decode_yields {source : String} {t : TypeCode} (run : decode source = .ok t) :
    YieldsRow [] source.toList maxDepth [t] [] := by
  obtain ⟨mid, offset, type, scanned⟩ := decodeWithOffset_yields (decode_ok_iff.1 run)
  exact type.row type.some_letter scanned
    ⟨trivial, Nat.zero_le _, Nat.le_refl _, fun _ => ⟨rfl, trivial⟩⟩

theorem decodeSignature_yields {source : String} {sig : MethodSignature}
    (run : decodeSignature source = .ok sig) :
    YieldsRow [] source.toList maxDepth (sig.returns :: sig.arguments) [] :=
  decodeAll_yields (decodeSignature_ok_iff.1 run)

/-- What was decoded can be printed, and its encoding is decoded to it again exactly if nothing in
it runs together. -/
theorem decode_encoding_iff (source : String) :
    (∀ t, decode source = .ok t →
      ∃ e, encoding t = .ok e ∧ (decode e = .ok t ↔ Separated t)) ∧
    (∀ sig, decodeSignature source = .ok sig →
      ∃ e, signatureEncoding sig = .ok e ∧
        (decodeSignature e = .ok sig ↔ RowSeparated [] (sig.returns :: sig.arguments))) := by
  constructor
  · intro t run
    obtain ⟨⟨decoded, -⟩, shallow, -⟩ := decode_yields run
    refine ⟨_, encoding_eq t decoded, ?_, fun separated => ?_⟩
    · intro back
      have again := (decode_yields back).printed
      rw [String.toList_ofList] at again
      exact (again.kept (by simp [allLetters])).2.1
    · have within := decode_letters t decoded separated _ String.toList_ofList
      exact within.1 (Nat.le_trans (Nat.le_max_left _ _) shallow)
  · intro sig run
    obtain ⟨decoded, shallow, -⟩ := decodeSignature_yields run
    refine ⟨_, signatureEncoding_eq decoded.1 decoded.2, ?_, fun separated => ?_⟩
    · intro back
      have again := (decodeSignature_yields back).printed
      rw [String.toList_ofList] at again
      exact (again.kept (by simp [allLetters])).2
    · exact decodeSignature_letters sig decoded separated shallow _ String.toList_ofList

theorem decode_encoding_cells :
    (∃ t e, decode "[5r%]7" = .ok t ∧ encoding t = .ok e ∧ decode e = .ok t) ∧
    (∃ sig e, decodeSignature "r%0@8" = .ok sig ∧ signatureEncoding sig = .ok e ∧
      decodeSignature e = .ok sig) := by
  have cells : ∃ w, decodeWithOffset ['[', '5', 'r', '%', ']', '7'] =
      .ok ⟨.array (some (.unknown (some "%"))) 5, [], w⟩ := ⟨by decide, by cbv⟩
  have returns : ∃ w, decodeWithOffset ['r', '%', '0', '@', '8'] =
      .ok ⟨.unknown (some "%"), ['@', '8'], w⟩ := ⟨by decide, by cbv⟩
  have arguments : decodeAll ['@', '8'] = .ok [.object none []] := by cbv
  obtain ⟨_, cells⟩ := cells
  obtain ⟨_, returns⟩ := returns
  have type : decode "[5r%]7" = _ := decode_whole (by decide) cells
  have method : decodeSignature "r%0@8" = _ := decodeSignature_whole (by decide) returns arguments
  obtain ⟨e, printed, back⟩ := (decode_encoding_iff _).1 _ type
  obtain ⟨e', printed', back'⟩ := (decode_encoding_iff _).2 _ method
  exact ⟨⟨_, e, type, printed, back.2 (by decide)⟩, _, e', method, printed', back'.2 (by decide)⟩

/-- The offset that stood between `id` and what follows is gone, and so is the qualifier that stood
before a digit. -/
theorem encodings_run_together :
    (let sig : MethodSignature := ⟨.primitive .void, [.object none [], .unknown (some "?")]⟩
     decodeSignature "v24@0?8" = .ok sig ∧ signatureEncoding sig = .ok "v@?" ∧
     decodeSignature "v@?" = .ok ⟨.primitive .void, [.block none]⟩) ∧
    (let t : TypeCode := .array (some (.unknown (some "5"))) 5
     decode "[5r5]" = .ok t ∧ encoding t = .ok "[55]" ∧
     decode "[55]" = .error (.encoding .arrayClose "[55]" 4)) := by
  have returns : ∃ w, decodeWithOffset ['v', '2', '4', '@', '0', '?', '8'] =
      .ok ⟨.primitive .void, ['@', '0', '?', '8'], w⟩ := ⟨by decide, by cbv⟩
  have first : ∃ w, decodeWithOffset ['@', '0', '?', '8'] =
      .ok ⟨.object none [], ['?', '8'], w⟩ := ⟨by decide, by cbv⟩
  have last : decodeAll ['?', '8'] = .ok [.unknown (some "?")] := by cbv
  have array : ∃ w, decodeWithOffset ['[', '5', 'r', '5', ']'] =
      .ok ⟨.array (some (.unknown (some "5"))) 5, [], w⟩ := ⟨by decide, by cbv⟩
  obtain ⟨_, returns⟩ := returns
  obtain ⟨_, first⟩ := first
  obtain ⟨_, array⟩ := array
  constructor
  · exact ⟨decodeSignature_whole (by decide) returns (decodeAll_cons first last), by cbv, by cbv⟩
  · exact ⟨decode_whole (by decide) array, by cbv, by cbv⟩

end MachImage.TypeCode
