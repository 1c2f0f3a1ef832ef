import MachImage.Proofs.TypeCode.Separation
import MachImage.Proofs.TypeCode.Stack
/-!
Decoding undoes encoding. The letters of a separated code are decoded to it wherever they stand,
if what follows does not run into them and the code is not nested too deep; a code nested deeper
than the decoder goes is refused for its depth and for nothing else. Well-formed codes are
separated.
-/
namespace MachImage.TypeCode

/-- A decoding that gives a value and a rest, unless what it reads is nested too deep. -/
structure Reads {α : Type} {bound : Nat} (x : Except Failure (Parsed α bound)) (deep : Prop)
    (a : α) (rest : List Char) : Prop where
  shallow : ¬ deep → ∃ shorter, x = .ok ⟨a, rest, shorter⟩
  refused : deep → ∃ left, x = fail .tooDeep left

section
variable {α β : Type} {bound wider : Nat} {x : Except Failure (Parsed α bound)}
  {deep deeper : Prop} {a : α} {b : β} {rest later : List Char}

theorem reads_ok {shorter : rest.length < bound} (within : ¬ deep) :
    Reads (.ok ⟨a, rest, shorter⟩ : Except Failure (Parsed α bound)) deep a rest :=
  ⟨fun _ => ⟨shorter, rfl⟩, fun h => absurd h within⟩

theorem Reads.of_iff (h : Reads x deep a rest) (same : deep ↔ deeper) : Reads x deeper a rest :=
  ⟨fun shallow => h.shallow (mt same.1 shallow), fun refused => h.refused (same.2 refused)⟩

theorem Reads.bind {f : Parsed α bound → Except Failure (Parsed β wider)}
    (first : Reads x deep a rest)
    (next : ¬ deep → ∀ shorter, Reads (f ⟨a, rest, shorter⟩) deeper b later) :
    Reads (x >>= f) (deep ∨ deeper) b later := by
  by_cases h : deep
  · obtain ⟨left, rfl⟩ := first.refused h
    exact ⟨fun shallow => absurd (Or.inl h) shallow, fun _ => ⟨left, rfl⟩⟩
  · obtain ⟨shorter, rfl⟩ := first.shallow h
    exact (next h shorter).of_iff ⟨Or.inr, fun either => either.resolve_left h⟩

theorem Reads.done {f : Parsed α bound → Except Failure (Parsed β wider)}
    (first : Reads x deep a rest)
    (last : ∀ shorter, ∃ within, f ⟨a, rest, shorter⟩ = .ok ⟨b, later, within⟩) :
    Reads (x >>= f) deep b later := by
  have both : Reads (x >>= f) (deep ∨ False) b later := first.bind fun _ shorter =>
    ⟨fun _ => last shorter, fun never => never.elim⟩
  exact both.of_iff ⟨fun either => either.resolve_right id, Or.inl⟩

end

theorem takeWhile_of_noDigit {rest : List Char} (h : NoDigit rest) :
    rest.takeWhile Numeral.isDigit = [] ∧ rest.dropWhile Numeral.isDigit = rest := by
  cases rest with
  | nil => exact ⟨rfl, rfl⟩
  | cons c cs =>
    have stop : ¬ Numeral.isDigit c = true := by
      rw [h c rfl]
      exact Bool.false_ne_true
    exact ⟨List.takeWhile_cons_of_neg stop, List.dropWhile_cons_of_neg stop⟩

theorem digits_none {s : List Char} (h : NoDigit s) :
    ∃ shorter, digits s = .ok ⟨none, s, shorter⟩ := by
  obtain ⟨taken, dropped⟩ := takeWhile_of_noDigit h
  refine ⟨Nat.lt_succ_self _, ?_⟩
  simp only [digits, taken, dropped, List.isEmpty_nil, if_true]

section
variable {run rest : List Char} (all : ∀ c ∈ run, Numeral.isDigit c = true) (noDigit : NoDigit rest)
include all noDigit

theorem takeWhile_digits :
    (run ++ rest).takeWhile Numeral.isDigit = run ∧
      (run ++ rest).dropWhile Numeral.isDigit = rest := by
  obtain ⟨taken, dropped⟩ := takeWhile_of_noDigit noDigit
  rw [List.takeWhile_append_of_pos all, List.dropWhile_append_of_pos all, taken, dropped,
    List.append_nil]
  exact ⟨rfl, rfl⟩

theorem digits_value {n : Nat} (some : run ≠ []) (value : Numeral.value run = .ok n) :
    ∃ shorter, digits (run ++ rest) = .ok ⟨.some n, rest, shorter⟩ := by
  obtain ⟨taken, dropped⟩ := takeWhile_digits all noDigit
  have shorter : rest.length < (run ++ rest).length + 1 := by
    rw [List.length_append]
    omega
  refine ⟨shorter, ?_⟩
  simp only [digits, taken, dropped, List.isEmpty_eq_false_iff.2 some, Bool.false_eq_true, if_false,
    value]

theorem digits_error {cause : Numeral.Fault} (some : run ≠ [])
    (value : Numeral.value run = .error cause) :
    digits (run ++ rest) = .error (.numeral cause) := by
  obtain ⟨taken, dropped⟩ := takeWhile_digits all noDigit
  simp only [digits, taken, dropped, List.isEmpty_eq_false_iff.2 some, Bool.false_eq_true, if_false,
    value]

end

theorem digits_number {n : Nat} {rest : List Char}
    (short : (Nat.toDigits 10 n).length ≤ Numeral.limit) (h : NoDigit rest) :
    ∃ shorter, digits (Nat.toDigits 10 n ++ rest) = .ok ⟨some n, rest, shorter⟩ := by
  have all : ∀ c ∈ Nat.toDigits 10 n, Numeral.isDigit c = true := fun c member =>
    Numeral.isDigit_of_isDigit (Nat.isDigit_of_mem_toDigits (by decide) (by decide) member)
  exact digits_value all h Nat.toDigits_ne_nil (Numeral.value_toDigits short)

theorem until?_eq {stop : Char} {run rest : List Char} (free : ∀ c ∈ run, c ≠ stop) :
    ∃ shorter, until? stop (run ++ stop :: rest) = some ⟨String.ofList run, rest, shorter⟩ := by
  have pass : ∀ c ∈ run, (fun c => decide (c ≠ stop)) c = true := fun c member =>
    decide_eq_true (free c member)
  have dropped : (run ++ stop :: rest).dropWhile (· ≠ stop) = stop :: rest := by
    rw [List.dropWhile_append_of_pos pass, List.dropWhile_cons_of_neg (by simp)]
  have taken : (run ++ stop :: rest).takeWhile (· ≠ stop) = run := by
    rw [List.takeWhile_append_of_pos pass, List.takeWhile_cons_of_neg (by simp), List.append_nil]
  have shorter : rest.length < (run ++ stop :: rest).length := by
    rw [List.length_append, List.length_cons]
    omega
  refine ⟨shorter, ?_⟩
  unfold until?
  split
  · next empty => cases dropped.symm.trans empty
  · next c cs cut =>
    cases dropped.symm.trans cut
    simp only [taken]

theorem protocolNames_open (run name later : List Char) (plain : ∀ c ∈ name, c ≠ '<' ∧ c ≠ '>') :
    protocolNames (some run) (name ++ '>' :: later) =
      String.ofList (run.reverse ++ name) :: protocolNames none later := by
  induction name generalizing run with
  | nil => simp [protocolNames]
  | cons c name ih =>
    obtain ⟨noOpen, noClose⟩ := plain c List.mem_cons_self
    have rest := ih (c :: run) fun d member => plain d (List.mem_cons_of_mem c member)
    rw [List.reverse_cons, List.append_assoc] at rest
    rw [List.cons_append, protocolNames, if_neg noOpen, if_neg noClose]
    exact rest

theorem protocolNames_letters (protocols : List String) (plain : ∀ p ∈ protocols, IsPlain p) :
    protocolNames none (protocolLetters protocols) = protocols := by
  induction protocols with
  | nil => rfl
  | cons p ps ih =>
    have inside : ∀ c ∈ p.toList, c ≠ '<' ∧ c ≠ '>' := fun c member =>
      (plain p List.mem_cons_self c member).2
    rw [protocolLetters, protocolNames, if_pos rfl, protocolNames_open [] _ _ inside,
      ih fun q member => plain q (List.mem_cons_of_mem p member), List.reverse_nil,
      List.nil_append, String.ofList_toList]

theorem protocolNames_skip {name : List Char} (plain : ∀ c ∈ name, c ≠ '<') (later : List Char) :
    protocolNames none (name ++ later) = protocolNames none later := by
  induction name with
  | nil => rfl
  | cons c name ih =>
    rw [List.cons_append, protocolNames, if_neg (plain c List.mem_cons_self)]
    exact ih fun d member => plain d (List.mem_cons_of_mem c member)

theorem takeWhile_name {name : List Char} (plain : ∀ c ∈ name, c ≠ '<') (protocols : List String) :
    (name ++ protocolLetters protocols).takeWhile (· ≠ '<') = name := by
  have pass : ∀ c ∈ name, (fun c => decide (c ≠ '<')) c = true := fun c member =>
    decide_eq_true (plain c member)
  rw [List.takeWhile_append_of_pos pass]
  cases protocols with
  | nil => exact List.append_nil name
  | cons p ps =>
    rw [protocolLetters, List.takeWhile_cons_of_neg (by simp), List.append_nil]

theorem quotedObject_letters {name : Option String} {protocols : List String}
    (decoded : Decoded (.object name protocols)) :
    quotedObject (String.ofList (nameLetters name ++ protocolLetters protocols)) =
      .object name protocols := by
  obtain ⟨named, plain⟩ := decoded
  have noOpen : ∀ c ∈ nameLetters name, c ≠ '<' := by
    intro c member
    cases name with
    | none => cases member
    | some s => exact ((named s rfl).2 c member).2
  rw [quotedObject, String.toList_ofList, takeWhile_name noOpen, protocolNames_skip noOpen,
    protocolNames_letters protocols plain]
  cases name with
  | none => rfl
  | some s =>
    have some_letter : s.toList.isEmpty = false := by
      simpa using (named s rfl).1
    simp only [nameLetters, Option.getD_some, some_letter, String.ofList_toList,
      Bool.false_eq_true, if_false]

def ReadsTypes (one : Step TypeCode) (d : Nat) : Prop :=
  ∀ t, Decoded t → Separated t → ∀ rest, Clear t rest →
    Reads (one (letters t ++ rest)) (d < depth t) t rest

theorem lt_depths (d : Nat) (t : TypeCode) (ts : List TypeCode) :
    d < depths (t :: ts) ↔ d < depth t ∨ d < depths ts := by
  rw [depths]
  omega

theorem lt_memberDepths (d : Nat) (m : Member TypeCode) (ms : List (Member TypeCode)) :
    d < memberDepths (m :: ms) ↔ d < depth m.type ∨ d < memberDepths ms := by
  rw [memberDepths]
  omega

theorem blockTypes_reads {one : Step TypeCode} {d : Nat} (reads : ReadsTypes one d)
    (ts : List TypeCode) (decoded : AllDecoded ts) (separated : RowSeparated ['>'] ts)
    (opened : Nat) (rest : List Char) :
    Reads (blockTypes one opened (allLetters ts ++ '>' :: rest)) (d < depths ts) ts rest := by
  induction ts with
  | nil =>
    rw [allLetters, List.nil_append, blockTypes, if_pos rfl]
    exact reads_ok (Nat.not_lt_zero d)
  | cons t ts ih =>
    obtain ⟨inside, stands, separated⟩ := separated
    have behind := head?_behind (allLetters ts) rest '>'
    have first := reads t decoded.1 inside _ (stands.clear.congr behind)
    obtain ⟨c, cs, spelled, -⟩ := letters_open decoded.1
    have opens := stands.opens
    rw [allLetters, List.append_assoc]
    rw [spelled] at first opens ⊢
    rw [List.cons_append] at first ⊢
    rw [blockTypes, if_neg (mt (congrArg some) opens)]
    apply Reads.of_iff _ (lt_depths d t ts).symm
    apply first.bind
    intro _ shorter
    obtain ⟨_, noOffset⟩ := digits_none (stands.noOffset.congr behind)
    dsimp only
    rw [noOffset, ok_bind]
    apply (ih decoded.2 separated).done
    intro later
    exact ⟨_, rfl⟩

theorem decodeMembers_reads {one : Step TypeCode} {d : Nat} (reads : ReadsTypes one d)
    (form : AggregateForm) (ms : List (Member TypeCode)) (decoded : MembersDecoded ms)
    (separated : MembersSeparated form ms) (opened : Nat) (rest : List Char) :
    Reads (decodeMembers one form opened (memberLetters ms ++ form.closeChar :: rest))
      (d < memberDepths ms) ms rest := by
  induction ms with
  | nil =>
    rw [memberLetters, List.nil_append, decodeMembers, if_pos rfl]
    exact reads_ok (Nat.not_lt_zero d)
  | cons m ms ih =>
    obtain ⟨inside, holds, separated⟩ := separated
    have behind := head?_behind (memberLetters ms) rest form.closeChar
    have first := reads m.type decoded.2.1 inside _ (holds.clear.congr behind)
    have later := ih decoded.2.2 separated
    apply Reads.of_iff _ (lt_memberDepths d m ms).symm
    obtain ⟨name, t⟩ := m
    cases name with
    | none =>
      obtain ⟨c, cs, spelled, -⟩ := letters_open decoded.2.1
      have opens := holds.opens rfl
      rw [memberLetters, List.append_assoc]
      rw [spelled] at first opens ⊢
      rw [List.cons_append] at first ⊢
      rw [decodeMembers, if_neg (opens c rfl).2, if_neg (opens c rfl).1]
      apply first.bind
      intro _ shorter
      apply later.done
      intro _
      exact ⟨_, rfl⟩
    | some name =>
      have free : ∀ c ∈ name.toList, c ≠ '"' := decoded.1 name rfl
      obtain ⟨_, quoted⟩ := @until?_eq '"' name.toList
        (letters t ++ (memberLetters ms ++ form.closeChar :: rest)) free
      have inner : '"' ≠ form.closeChar := by cases form <;> decide
      rw [memberLetters, List.cons_append, List.append_assoc, List.cons_append, List.append_assoc]
      rw [decodeMembers, if_neg inner, if_pos rfl, quoted]
      simp only [String.ofList_toList, pure_bind]
      apply first.bind
      intro _ shorter
      apply later.done
      intro _
      exact ⟨_, rfl⟩

theorem decodeBlock_reads {one : Step TypeCode} {d : Nat} (reads : ReadsTypes one d)
    {returns : TypeCode} {arguments : List TypeCode}
    (decoded : AllDecoded (returns :: arguments))
    (separated : RowSeparated ['>'] (returns :: arguments)) (rest : List Char) :
    Reads (decodeBlock one ('<' :: (letters returns ++ allLetters arguments ++ '>' :: rest)))
      (d < depths (returns :: arguments)) (.block (some ⟨returns, arguments⟩)) rest := by
  have types := blockTypes_reads reads (returns :: arguments) decoded separated
    ((letters returns ++ allLetters arguments ++ '>' :: rest).length + 1) rest
  rw [allLetters] at types
  apply types.done
  intro _
  exact ⟨_, rfl⟩

theorem decodeArray_reads {one : Step TypeCode} {d : Nat} (reads : ReadsTypes one d)
    {t : TypeCode} {count : Int} (decoded : Decoded (.array (some t) count))
    (separated : Separated (.array (some t) count)) (rest : List Char) :
    Reads (decodeArray one (Nat.toDigits 10 count.toNat ++ (letters t ++ ']' :: rest)))
      (d < depth t) (.array (some t) count) rest := by
  obtain ⟨element, nonnegative, short⟩ := decoded
  obtain ⟨inside, noDigit⟩ := separated
  obtain ⟨k, rfl⟩ := Int.eq_ofNat_of_zero_le nonnegative
  have close : Clear t (']' :: rest) := (clear_close t (by decide)).congr rfl
  have first := reads t element inside (']' :: rest) close
  have begins : (letters t ++ ']' :: rest).head? = (letters t).head? := by
    obtain ⟨c, cs, spelled, -⟩ := letters_open element
    rw [spelled]
    rfl
  obtain ⟨_, number⟩ := @digits_number k _ short (noDigit.congr begins)
  unfold decodeArray
  rw [Int.toNat_natCast, number, ok_bind]
  apply first.done
  intro _
  exact ⟨_, rfl⟩

theorem decodeBitfield_reads {width : Int} (short : Short width) {rest : List Char}
    (clear : Clear (.bitfield width) rest) :
    Reads (decodeBitfield (Nat.toDigits 10 width.toNat ++ rest)) False (.bitfield width) rest := by
  obtain ⟨k, rfl⟩ := Int.eq_ofNat_of_zero_le short.1
  obtain ⟨_, number⟩ := @digits_number k _ short.2 clear
  unfold decodeBitfield
  rw [Int.toNat_natCast, number, ok_bind]
  exact reads_ok id

theorem cut_name {form : AggregateForm} {name : List Char}
    (free : ∀ c ∈ name, c ≠ '=' ∧ c ≠ form.closeChar) {stop : Char}
    (stops : stop = '=' ∨ stop = form.closeChar) (rest : List Char) :
    (name ++ stop :: rest).takeWhile (inName form) = name ∧
    (name ++ stop :: rest).dropWhile (inName form) = stop :: rest := by
  have pass : ∀ c ∈ name, inName form c = true := by
    intro c member
    simpa [inName] using free c member
  have halt : ¬ inName form stop = true := by
    rcases stops with rfl | rfl
    · simp [inName]
    · simp [inName]
  constructor
  · rw [List.takeWhile_append_of_pos pass, List.takeWhile_cons_of_neg halt, List.append_nil]
  · rw [List.dropWhile_append_of_pos pass, List.dropWhile_cons_of_neg halt]

theorem decodeAggregate_reads {one : Step TypeCode} {d : Nat} (reads : ReadsTypes one d)
    {form : AggregateForm} {name : String} {members : List (Member TypeCode)}
    (decoded : Decoded (.aggregate form (some name) (some members)))
    (separated : MembersSeparated form members) (rest : List Char) :
    Reads
      (decodeAggregate one form
        (name.toList ++ '=' :: (memberLetters members ++ form.closeChar :: rest)))
      (d < memberDepths members) (.aggregate form (some name) (some members)) rest := by
  obtain ⟨⟨s, named, free⟩, inside⟩ := decoded
  cases named
  obtain ⟨taken, dropped⟩ := cut_name free (Or.inl rfl)
    (memberLetters members ++ form.closeChar :: rest)
  unfold decodeAggregate
  split
  · next empty => cases dropped.symm.trans empty
  · next c cs cut =>
    cases dropped.symm.trans cut
    have open' : '=' ≠ form.closeChar := by cases form <;> decide
    rw [if_neg open']
    apply (decodeMembers_reads reads form members inside separated _ rest).done
    intro _
    rw [taken, String.ofList_toList]
    exact ⟨_, rfl⟩

theorem decodeAggregate_named {one : Step TypeCode} {form : AggregateForm} {name : String}
    (free : ∀ c ∈ name.toList, c ≠ '=' ∧ c ≠ form.closeChar) (rest : List Char) :
    Reads (decodeAggregate one form (name.toList ++ form.closeChar :: rest)) False
      (.aggregate form (some name) none) rest := by
  obtain ⟨taken, dropped⟩ := cut_name free (Or.inr rfl) rest
  unfold decodeAggregate
  split
  · next empty => cases dropped.symm.trans empty
  · next c cs cut =>
    cases dropped.symm.trans cut
    rw [if_pos rfl, taken, String.ofList_toList]
    exact reads_ok id

theorem decodeObject_id (one : Step TypeCode) {rest : List Char}
    (clear : Clear (.object none []) rest) :
    Reads (decodeObject one rest) False (.object none []) rest := by
  unfold decodeObject
  split
  · next cs => cases clear '?' rfl
  · next cs => cases clear '"' rfl
  · exact reads_ok id

theorem protocolLetters_noQuote {protocols : List String} (plain : ∀ p ∈ protocols, IsPlain p) :
    ∀ c ∈ protocolLetters protocols, c ≠ '"' := by
  induction protocols with
  | nil =>
    intro c member
    cases member
  | cons p ps ih =>
    intro c member
    rw [protocolLetters, List.mem_cons, List.mem_append, List.mem_cons] at member
    rcases member with rfl | inside | rfl | later
    · decide
    · exact (plain p List.mem_cons_self c inside).1
    · decide
    · exact ih (fun q member => plain q (List.mem_cons_of_mem p member)) c later

theorem decodeObject_named (one : Step TypeCode) {name : Option String} {protocols : List String}
    (decoded : Decoded (.object name protocols)) (rest : List Char) :
    Reads
      (decodeObject one
        ('"' :: (nameLetters name ++ protocolLetters protocols ++ '"' :: rest)))
      False (.object name protocols) rest := by
  have free : ∀ c ∈ nameLetters name ++ protocolLetters protocols, c ≠ '"' := by
    intro c member
    rcases List.mem_append.1 member with named | listed
    · cases name with
      | none => cases named
      | some s => exact ((decoded.1 s rfl).2 c named).1
    · exact protocolLetters_noQuote decoded.2 c listed
  obtain ⟨_, quoted⟩ := @until?_eq '"' _ rest free
  simp only [decodeObject, quoted, quotedObject_letters decoded]
  exact reads_ok id

theorem decodeObject_block (one : Step TypeCode) {rest : List Char}
    (clear : Clear (.block none) rest) :
    Reads (decodeObject one ('?' :: rest)) False (.block none) rest := by
  have block : Reads (decodeBlock one rest) False (.block none) rest := by
    unfold decodeBlock
    split
    · next cs => cases clear '<' rfl
    · exact reads_ok id
  apply block.done
  intro _
  exact ⟨_, rfl⟩

theorem decodeBody_unread {one : Step TypeCode} {c : Char} (unread : Unread c) (s : List Char) :
    decodeBody one c s = .ok ⟨.unknown (some c.toString), s, Nat.lt_succ_self _⟩ := by
  obtain ⟨none, other, -⟩ := unread
  simp only [List.mem_cons, List.not_mem_nil, or_false, not_or] at other
  unfold decodeBody
  rw [none]
  simp [other, AggregateForm.openChar]

section
variable {one : Step TypeCode} {d : Nat} (reads : ReadsTypes one d)
include reads

/-- A type is told by its first letter, and what it holds lies one level deeper. -/
theorem decodeBody_reads (t : TypeCode) (decoded : Decoded t) (separated : Separated t)
    {rest : List Char} (clear : Clear t rest) :
    ∃ c cs, letters t = c :: cs ∧
      Reads (decodeBody one c (cs ++ rest)) (d + 1 < depth t) t rest := by
  have leaf : ¬ d + 1 < 1 := by omega
  have shallow : False ↔ d + 1 < 1 := ⟨False.elim, leaf⟩
  cases t with
  | primitive p =>
    refine ⟨p.code, [], letters.eq_1 p, ?_⟩
    unfold decodeBody
    rw [Primitive.ofCode?_code]
    exact reads_ok leaf
  | unknown name =>
    obtain ⟨c, rfl, unread⟩ := decoded
    refine ⟨c, [], by simp [letters], ?_⟩
    rw [decodeBody_unread unread]
    exact reads_ok leaf
  | object name protocols =>
    by_cases id : name = none ∧ protocols = []
    · obtain ⟨rfl, rfl⟩ := id
      exact ⟨'@', [], rfl, (decodeObject_id one clear).of_iff shallow⟩
    · refine ⟨'@', _, letters_named id, ?_⟩
      rw [List.cons_append, List.append_assoc, List.singleton_append]
      exact (decodeObject_named one decoded rest).of_iff shallow
  | block signature =>
    cases signature with
    | none => exact ⟨'@', ['?'], rfl, (decodeObject_block one clear).of_iff shallow⟩
    | some signature =>
      obtain ⟨returns, arguments⟩ := signature
      refine ⟨'@', _, rfl, ?_⟩
      rw [List.cons_append, List.cons_append, List.append_assoc, List.singleton_append]
      apply Reads.of_iff _ Nat.succ_lt_succ_iff.symm
      apply (decodeBlock_reads reads decoded separated rest).done
      intro _
      exact ⟨_, rfl⟩
  | pointer element =>
    cases element with
    | none => exact absurd decoded id
    | some t =>
      refine ⟨'^', letters t, rfl, ?_⟩
      apply Reads.of_iff _ Nat.succ_lt_succ_iff.symm
      apply (reads t decoded separated rest clear).done
      intro _
      exact ⟨_, rfl⟩
  | array element count =>
    cases element with
    | none => exact absurd decoded id
    | some t =>
      refine ⟨'[', _, rfl, ?_⟩
      rw [List.append_assoc, List.append_assoc, List.singleton_append]
      exact (decodeArray_reads reads decoded separated rest).of_iff Nat.succ_lt_succ_iff.symm
  | aggregate form name members =>
    cases members with
    | none =>
      obtain ⟨s, rfl, free⟩ := decoded
      refine ⟨form.openChar, _, rfl, ?_⟩
      rw [List.append_assoc, List.singleton_append]
      have read := (@decodeAggregate_named one form s free rest).of_iff shallow
      cases form <;> exact read
    | some members =>
      obtain ⟨s, rfl, -⟩ := decoded.1
      refine ⟨form.openChar, _, rfl, ?_⟩
      rw [List.append_assoc, List.cons_append, List.append_assoc, List.singleton_append]
      have read := (decodeAggregate_reads reads decoded separated rest).of_iff
        Nat.succ_lt_succ_iff.symm
      cases form <;> exact read
  | bitfield width =>
    exact ⟨'b', _, rfl, (decodeBitfield_reads decoded clear).of_iff shallow⟩

end

theorem depth_pos (t : TypeCode) : 0 < depth t := by
  cases t with
  | primitive p => exact Nat.one_pos
  | unknown name => exact Nat.one_pos
  | object name protocols => exact Nat.one_pos
  | block signature => cases signature <;> exact Nat.succ_pos _
  | pointer element => cases element <;> exact Nat.succ_pos _
  | array element count => cases element <;> exact Nat.succ_pos _
  | aggregate form name members => cases members <;> exact Nat.succ_pos _
  | bitfield width => exact Nat.one_pos

theorem decodeOne_reads (d : Nat) : ReadsTypes (decodeOne d) d := by
  induction d with
  | zero =>
    intro t decoded separated rest clear
    exact ⟨fun shallow => absurd (depth_pos t) shallow, fun _ => ⟨_, rfl⟩⟩
  | succ d ih =>
    intro t decoded separated rest clear
    obtain ⟨c, cs, spelled, body⟩ := decodeBody_reads ih t decoded separated clear
    obtain ⟨c', cs', same, unqualified⟩ := letters_open decoded
    cases spelled.symm.trans same
    have kept : (c :: (cs ++ rest)).dropWhile (qualifiers.contains ·) = c :: (cs ++ rest) := by
      apply List.dropWhile_cons_of_neg
      rw [unqualified]
      exact Bool.false_ne_true
    rw [spelled, List.cons_append]
    unfold decodeOne qualified
    split
    · next empty => cases kept.symm.trans empty
    · next c cs cut =>
      cases kept.symm.trans cut
      apply body.done
      intro _
      exact ⟨_, rfl⟩

theorem decodeWithOffset_reads (t : TypeCode) (decoded : Decoded t) (separated : Separated t)
    {rest : List Char} (clear : Clear t rest) (noOffset : NoDigit rest) :
    Reads (decodeWithOffset (letters t ++ rest)) (256 < depth t) t rest := by
  apply (decodeOne_reads maxDepth t decoded separated rest clear).done
  intro shorter
  obtain ⟨_, none⟩ := digits_none noOffset
  dsimp only
  rw [none]
  exact ⟨shorter, rfl⟩

section
variable {t : TypeCode} {ts : List TypeCode} {rest : List Char}

theorem decodeAll_cons {c : Char} {cs : List Char} {shorter : rest.length < (c :: cs).length}
    (first : decodeWithOffset (c :: cs) = .ok ⟨t, rest, shorter⟩)
    (later : decodeAll rest = .ok ts) :
    decodeAll (c :: cs) = .ok (t :: ts) := by
  rw [decodeAll_of_cons, first, ok_bind]
  simp only [later, ok_bind]
  rfl

theorem decode_whole {source : String} {cs : List Char} {shorter : [].length < cs.length}
    (spelled : source.toList = cs) (read : decodeWithOffset cs = .ok ⟨t, [], shorter⟩) :
    decode source = .ok t := by
  subst spelled
  rw [decode, single, read]
  rfl

theorem decodeSignature_whole {source : String} {cs : List Char}
    {shorter : rest.length < cs.length} (spelled : source.toList = cs)
    (first : decodeWithOffset cs = .ok ⟨t, rest, shorter⟩) (later : decodeAll rest = .ok ts) :
    decodeSignature source = .ok ⟨t, ts⟩ := by
  subst spelled
  rw [decodeSignature, signature, first, ok_bind]
  rw [decodeAll] at later
  simp only [later]
  rfl

end

theorem decodeAll_eq (ts : List TypeCode) (decoded : AllDecoded ts)
    (separated : RowSeparated [] ts) (shallow : depths ts ≤ 256) :
    decodeAll (allLetters ts) = .ok ts := by
  induction ts with
  | nil =>
    exact decodeAll_of_nil
  | cons t ts ih =>
    obtain ⟨inside, stands, separated⟩ := separated
    rw [depths] at shallow
    have first := decodeWithOffset_reads t decoded.1 inside stands.clear stands.noOffset
    obtain ⟨c, cs, spelled, -⟩ := letters_open decoded.1
    rw [List.append_nil, spelled, List.cons_append] at first
    obtain ⟨_, first⟩ := first.shallow (by omega)
    rw [allLetters, spelled, List.cons_append]
    exact decodeAll_cons first (ih decoded.2 separated (by omega))

theorem decode_letters (t : TypeCode) (decoded : Decoded t) (separated : Separated t)
    (source : String) (spelled : source.toList = letters t) :
    (depth t ≤ 256 → decode source = .ok t) ∧
    (256 < depth t → ∃ position, decode source = .error (.encoding .tooDeep source position)) := by
  have read := decodeWithOffset_reads t decoded separated (clear_nil t) noDigit_nil
  rw [List.append_nil] at read
  constructor
  · intro shallow
    obtain ⟨_, value⟩ := read.shallow (Nat.not_lt_of_le shallow)
    exact decode_whole spelled value
  · intro deep
    obtain ⟨left, failed⟩ := read.refused deep
    rw [← spelled] at failed
    rw [decode, single, failed]
    exact ⟨_, rfl⟩

theorem decodeSignature_letters (sig : MethodSignature)
    (decoded : AllDecoded (sig.returns :: sig.arguments))
    (separated : RowSeparated [] (sig.returns :: sig.arguments))
    (shallow : depths (sig.returns :: sig.arguments) ≤ 256) (source : String)
    (spelled : source.toList = letters sig.returns ++ allLetters sig.arguments) :
    decodeSignature source = .ok sig := by
  obtain ⟨inside, stands, separated⟩ := separated
  rw [depths] at shallow
  have first := decodeWithOffset_reads sig.returns decoded.1 inside stands.clear stands.noOffset
  rw [List.append_nil] at first
  obtain ⟨_, first⟩ := first.shallow (by omega)
  have later := decodeAll_eq sig.arguments decoded.2 separated (by omega)
  exact decodeSignature_whole spelled first later

/-- So many pointers, and an object behind them. -/
def pointers : Nat → TypeCode
  | 0 => .object none []
  | n + 1 => .pointer (some (pointers n))

def blocks : Nat → TypeCode
  | 0 => .primitive .int
  | n + 1 => .block (some ⟨blocks n, []⟩)

theorem blocks_wellFormed (n : Nat) : WellFormed (blocks n) := by
  induction n with
  | zero => simp [blocks, WellFormed]
  | succ n ih => simp [blocks, WellFormed, AllWellFormed, Adjacent, ih]

theorem depth_blocks (n : Nat) : depth (blocks n) = n + 1 := by
  induction n with
  | zero => rfl
  | succ n ih => rw [blocks, depth, depths, ih, Nat.max_zero]

theorem encodingFrames_blocks (n : Nat) : encodingFrames (blocks n) = 4 * n + 3 := by
  have inside : typeFrames (blocks n) = 4 * n + 1 := by
    induction n with
    | zero => rfl
    | succ n ih =>
      rw [blocks, typeFrames, rowFrames, ih, Nat.max_zero]
      omega
  rw [encodingFrames, inside]

def node : TypeCode :=
  .aggregate .struct (some "Node") (some
    [⟨some "next", .pointer (some (.aggregate .struct (some "Node") none))⟩,
     ⟨some "owner", .object (some "Owner") ["Copying"]⟩,
     ⟨some "run", .block (some ⟨.primitive .void, [.block none, .object none []]⟩)⟩,
     ⟨some "cells", .array (some (.unknown (some "?"))) 16⟩,
     ⟨none, .bitfield 3⟩])

end MachImage.TypeCode
