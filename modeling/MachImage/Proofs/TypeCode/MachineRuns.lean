import Mathlib
import MachImage.Proofs.TypeCode.Machine
import MachImage.Proofs.TypeCode.Steps
/-!
The machine comes to what the decoder answers, for every encoding. So its loops end; its cursor goes
forward and stays in the text; its counter is the same before and behind each type, read or not; and
no more types are read than there are letters. The readers follow one another as in the decoder, the
inner ones first: those of a level are shown to follow from the types one level further in.
-/
namespace MachImage.TypeCode.Machine

section
variable {α β : Type} {bound wider : Nat} {a b : State} {rest : List Char} {v : α}
  {w : Nat → Run α} {f : Nat → α → Run β} {x : Except Failure (Parsed α bound)}

/-- A computation comes to what a reader finds, or fails as it does, and has the same text left. -/
def Follows (w : Nat → Run α) (a : State) (x : Except Failure (Parsed α bound)) : Prop :=
  ∃ b, Reaches w a (located a.source (x.map (·.value))) b ∧ ∀ p, x = .ok p → b.ahead = p.rest

theorem follows_pure (ahead : a.ahead = rest) {shorter : rest.length < bound} :
    Follows (fun _ => pure v) a (.ok ⟨v, rest, shorter⟩) := by
  refine ⟨a, reaches_pure v a, ?_⟩
  rintro _ ⟨⟩
  exact ahead

theorem follows_raise {cause : EncodingFault} {place left : Nat}
    (same : place = a.source.length - left) :
    Follows (fun _ => raise cause place) a (fail cause left : Except Failure (Parsed α bound)) := by
  subst same
  refine ⟨a, reaches_raise _ _ a, ?_⟩
  rintro _ ⟨⟩

theorem follows_raise_bind {cause : EncodingFault} {place left : Nat}
    (same : place = a.source.length - left) :
    Follows (fun n => raise cause place >>= f n) a
      (fail cause left : Except Failure (Parsed β bound)) := by
  subst same
  refine ⟨a, (reaches_raise _ _ a).bind_error, ?_⟩
  rintro _ ⟨⟩

theorem Reaches.of_failed {source : String} {e : Failure}
    (reaches : Reaches w a (located source (.error e : Except Failure α)) b) :
    Reaches (fun n => w n >>= f n) a (located source (.error e : Except Failure β)) b := by
  cases e with
  | encoding | numeral | stack => exact reaches.bind_error

theorem Follows.bind {g : Parsed α bound → Except Failure (Parsed β wider)} (first : Follows w a x)
    (next : ∀ v rest shorter b, x = .ok ⟨v, rest, shorter⟩ → Onward a b → b.ahead = rest →
      Follows (fun n => f n v) b (g ⟨v, rest, shorter⟩)) :
    Follows (fun n => w n >>= f n) a (x >>= g) := by
  obtain ⟨b, reaches, ahead⟩ := first
  match x, reaches, ahead, next with
  | .ok ⟨v, rest, shorter⟩, reaches, ahead, next =>
    obtain ⟨c, later, behind⟩ := next v rest shorter b rfl reaches.onward (ahead _ rfl)
    rw [reaches.onward.source] at later
    exact ⟨c, reaches.bind later, behind⟩
  | .error e, reaches, _, _ => exact ⟨b, reaches.of_failed, by rintro _ ⟨⟩⟩

theorem Follows.pass {g : Parsed α bound → Except Failure (Parsed α wider)} (first : Follows w a x)
    (passes : ∀ v rest shorter, ∃ within, g ⟨v, rest, shorter⟩ = .ok ⟨v, rest, within⟩) :
    Follows w a (x >>= g) := by
  have whole : Follows (fun n => w n >>= pure) a (x >>= g) := by
    refine first.bind fun v rest shorter b _ _ ahead => ?_
    obtain ⟨within, same⟩ := passes v rest shorter
    rw [same]
    exact follows_pure ahead
  simpa only [bind_pure] using whole

theorem Follows.then {g : Parsed α bound → Except Failure β} (first : Follows w a x)
    (next : ∀ v rest shorter b, Onward a b → b.ahead = rest →
      ∃ c, Reaches (fun n => f n v) b (located b.source (g ⟨v, rest, shorter⟩)) c) :
    ∃ c, Reaches (fun n => w n >>= f n) a (located a.source (x >>= g)) c := by
  obtain ⟨b, reaches, ahead⟩ := first
  match x, reaches, ahead with
  | .ok ⟨v, rest, shorter⟩, reaches, ahead =>
    obtain ⟨c, later⟩ := next v rest shorter b reaches.onward (ahead _ rfl)
    rw [reaches.onward.source] at later
    exact ⟨c, reaches.bind later⟩
  | .error e, reaches, _ => exact ⟨b, reaches.of_failed⟩

theorem Follows.round (rest : Follows (fun n => w (n + 1)) a x) : Follows w a x := by
  obtain ⟨b, reaches, rests⟩ := rest
  exact ⟨b, reaches.round, rests⟩

theorem Follows.after {y : Except Failure (Parsed β wider)} (first : Reaches w a (.ok v) b)
    (next : Follows (fun n => f n v) b y) : Follows (fun n => w n >>= f n) a y := by
  obtain ⟨c, later, behind⟩ := next
  rw [first.onward.source] at later
  exact ⟨c, first.bind later, behind⟩

theorem follows_position {g : Nat → Nat → Run α} (next : Follows (fun n => g n a.now.cursor) a x) :
    Follows (fun n => position >>= g n) a x := .after (reaches_position a) next

theorem follows_peek {g : Nat → Option Char → Run α}
    (next : Follows (fun n => g n a.ahead.head?) a x) : Follows (fun n => peek >>= g n) a x :=
  .after (reaches_peek a) next

theorem follows_advance {l : Char} {ls : List Char} {g : Nat → Unit → Run α}
    (ahead : a.ahead = l :: ls) (next : Follows (fun n => g n ()) a.next x) :
    Follows (fun n => advance >>= g n) a x :=
  .after (reaches_advance ahead) next

end

section
variable {a : State} {s ls : List Char} {opened : Nat}

theorem scanDigits_follows (ahead : a.ahead = s) : Follows scanDigits a (digits s) := by
  obtain ⟨b, skips, behind, text⟩ := reaches_skipped Numeral.isDigit ahead
  refine follows_position (.after skips (.after text ?_))
  unfold digits
  dsimp only
  split
  · exact follows_pure behind
  · cases Numeral.value (s.takeWhile Numeral.isDigit) with
    | ok n => exact follows_pure behind
    | error cause =>
      refine ⟨b, reaches_throw _ b, ?_⟩
      rintro _ ⟨⟩

theorem digits_none_rest {rest : List Char} {shorter : rest.length < s.length + 1}
    (found : digits s = .ok ⟨none, rest, shorter⟩) : rest = s := by
  obtain ⟨run, rfl, scans⟩ := digits_gives_iff.1 ⟨shorter, found⟩
  rw [scans.none rfl]
  rfl

theorem bitfield_follows (inside : a.Inside) (ahead : a.ahead = s) :
    Follows bitfield a (decodeBitfield s) := by
  unfold bitfield decodeBitfield
  refine (scanDigits_follows ahead).bind fun width rest shorter b found on behind => ?_
  cases width with
  | none =>
    rw [digits_none_rest found] at behind
    exact follows_position (follows_raise (cursor_eq (on.inside inside) behind))
  | some n => exact follows_pure behind

theorem quoted_follows {β : Type} {bound : Nat} {f : Nat → String → Run β}
    {g : Parsed String ls.length → Except Failure (Parsed β bound)} (unclosed : EncodingFault)
    (inside : opened ≤ a.source.length) (ahead : a.ahead = '"' :: ls)
    (next : ∀ text b, Onward a b → b.ahead = text.rest →
      Follows (fun n => f n text.value) b (g text)) :
    Follows (fun n => quoted unclosed opened n >>= f n) a
      (match until? '"' ls with
        | none => fail unclosed (a.source.length - opened)
        | some text => g text) := by
  obtain ⟨b, scans, behind⟩ := reaches_scanWhile (· ≠ '"') (next_ahead ahead)
  have toB : Onward a b := (Onward.next ahead).trans scans.onward
  unfold quoted
  simp only [bind_assoc]
  refine follows_advance ahead (.after scans (follows_peek ?_))
  cases named : until? '"' ls with
  | none =>
    have place : opened = b.source.length - (a.source.length - opened) := by
      rw [toB.source]
      omega
    unfold until? at named
    split at named
    · next cut =>
      rw [behind, cut]
      exact follows_raise_bind place
    · cases named
  | some text =>
    have following := next text
    unfold until? at named
    split at named
    · cases named
    · next c rest cut =>
      cases named
      have atB : b.ahead = c :: rest := behind.trans cut
      rw [atB]
      simp only [List.head?_cons, bind_assoc, pure_bind]
      exact follows_advance atB (following b.next (toB.trans (.next atB)) (next_ahead atB))

end

structure Ready (d : Nat) (a : State) : Prop where
  inside : a.Inside
  depth : a.now.depth + d = maxDepth

theorem Ready.onward {d : Nat} {a b : State} (ready : Ready d a) (on : Onward a b) : Ready d b :=
  ⟨on.inside ready.inside, by rw [on.depth]; exact ready.depth⟩

def ReadsOne (d : Nat) (one : Nat → Run TypeCode) : Prop :=
  ∀ a s, Ready d a → a.ahead = s → Follows one a (decodeOne d s)

theorem ReadsOne.more {d : Nat} {one : Nat → Run TypeCode} (reads : ReadsOne d one) :
    ReadsOne d fun n => one (n + 1) := by
  intro a s ready ahead
  obtain ⟨b, reaches, rests⟩ := reads a s ready ahead
  exact ⟨b, reaches.more, rests⟩

section
variable {d opened : Nat}

theorem types_follows {one : Nat → Run TypeCode} (reads : ReadsOne d one) :
    ∀ (s : List Char) (a : State), Ready d a → a.ahead = s → opened ≤ a.source.length →
    Follows (fun n => types (one n) opened n) a
      (blockTypes (decodeOne d) (a.source.length - opened) s)
  | [], a, ready, ahead, inside => by
    apply Follows.round
    unfold types
    rw [blockTypes]
    apply follows_peek
    rw [ahead]
    exact follows_raise (by omega)
  | c :: cs, a, ready, ahead, inside => by
    apply Follows.round
    unfold types
    rw [blockTypes]
    apply follows_peek
    rw [ahead]
    simp only [List.head?_cons]
    by_cases close : c = '>'
    · simp only [if_pos close]
      exact follows_advance ahead (follows_pure (next_ahead ahead))
    · simp only [if_neg close, withOffset, bind_assoc, pure_bind]
      refine (reads.more a _ ready ahead).bind fun t mid shorter b _ toB atB => ?_
      refine (scanDigits_follows atB).bind fun _ rest within e _ toE atE => ?_
      have onward := toB.trans toE
      have fewer : rest.length < (c :: cs).length := by omega
      -- the round took fuel from the loop but not from the types in it, so these are read with more
      have later := types_follows reads.more rest e (ready.onward onward) atE
        (by rwa [onward.source])
      rw [onward.source] at later
      exact later.bind fun more last _ _ _ _ atEnd => follows_pure atEnd
termination_by s => s.length
decreasing_by exact fewer

variable {one : Nat → Run TypeCode} (reads : ReadsOne d one) {a : State} {s : List Char}
include reads

theorem block_follows (ready : Ready d a) (ahead : a.ahead = s) :
    Follows (fun n => block (one n) n) a (decodeBlock (decodeOne d) s) := by
  unfold block
  apply follows_peek
  rw [ahead]
  by_cases angle : s.head? = some '<'
  · obtain ⟨rest, rfl⟩ := List.head?_eq_some_iff.1 angle
    have source : a.next.source = a.source := rfl
    have later := types_follows reads rest a.next (ready.onward (.next ahead)) (next_ahead ahead)
      (cursor_lt ahead).le
    rw [source, left_eq ahead] at later
    refine follows_position (follows_advance ahead ?_)
    refine later.bind fun ts last _ _ _ _ behind => ?_
    cases ts with
    | nil => exact follows_pure behind
    | cons t ts => exact follows_pure behind
  · rw [decodeBlock_bare angle]
    split
    · next head => exact absurd head angle
    · exact follows_pure ahead

theorem object_follows (ready : Ready d a) (ahead : a.ahead = s) :
    Follows (fun n => object (one n) n) a (decodeObject (decodeOne d) s) := by
  unfold object
  apply follows_peek
  rw [ahead]
  by_cases mark : s.head? = some '?'
  · obtain ⟨rest, rfl⟩ := List.head?_eq_some_iff.1 mark
    refine follows_advance ahead ?_
    exact (block_follows reads (ready.onward (.next ahead)) (next_ahead ahead)).pass
      fun _ _ _ => ⟨_, rfl⟩
  by_cases quote : s.head? = some '"'
  · obtain ⟨rest, rfl⟩ := List.head?_eq_some_iff.1 quote
    have named := @quoted_follows a rest a.now.cursor _ _ (fun _ text => pure (quotedObject text))
      (fun text => .ok ⟨quotedObject text.value, text.rest,
        Nat.lt_succ_of_lt (Nat.lt_succ_of_lt text.shorter)⟩)
      .openClassName (cursor_lt ahead).le ahead fun text b _ behind => follows_pure behind
    rw [left_eq ahead] at named
    exact follows_position named
  · rw [decodeObject_bare mark quote]
    split
    · next head => exact absurd head mark
    · next head => exact absurd head quote
    · exact follows_pure ahead

theorem array_follows (ready : Ready d a) (ahead : a.ahead = s) :
    Follows (fun n => array (one n) n) a (decodeArray (decodeOne d) s) := by
  unfold array decodeArray
  refine (scanDigits_follows ahead).bind fun count rest shorter b found on behind => ?_
  have ready := ready.onward on
  cases count with
  | none =>
    rw [digits_none_rest found] at behind
    exact follows_position (follows_raise (cursor_eq ready.inside behind))
  | some n =>
    refine (reads b _ ready behind).bind fun t last within e _ toE atE => ?_
    apply follows_peek
    rw [atE]
    dsimp only
    split
    · next head =>
      obtain ⟨rest, rfl⟩ := List.head?_eq_some_iff.1 head
      exact follows_advance atE (follows_pure (next_ahead atE))
    · next other =>
      split
      · next head => exact absurd rfl other
      · exact follows_position (follows_raise (cursor_eq (toE.inside ready.inside) atE))

theorem member_follows {form : AggregateForm} {left bound : Nat} {name : Option String}
    {mid : List Char} (ready : Ready d a) (ahead : a.ahead = mid) (short : mid.length < bound)
    (later : ∀ rest e, rest.length < mid.length → Onward a e → e.ahead = rest →
      Follows (fun n => members (one n) form opened n) e
        (decodeMembers (decodeOne d) form left rest)) :
    Follows
      (fun n => do
        let t ← one n
        let more ← members (one n) form opened n
        pure (⟨name, t⟩ :: more)) a
      (do
        let t ← decodeOne d mid
        let more ← decodeMembers (decodeOne d) form left t.rest
        pure (⟨⟨name, t.value⟩ :: more.value, more.rest, by
          have := t.shorter
          have := more.shorter
          omega⟩ : Parsed _ bound)) := by
  refine (reads a _ ready ahead).bind fun t rest shorter e _ toE atE => ?_
  exact (later rest e shorter toE atE).bind fun more last _ _ _ _ atEnd => follows_pure atEnd

omit reads in
theorem members_follows {one : Nat → Run TypeCode} (reads : ReadsOne d one)
    (form : AggregateForm) : ∀ (s : List Char) (a : State), Ready d a → a.ahead = s →
    opened ≤ a.source.length →
    Follows (fun n => members (one n) form opened n) a
      (decodeMembers (decodeOne d) form (a.source.length - opened) s)
  | [], a, ready, ahead, inside => by
    apply Follows.round
    unfold members
    rw [decodeMembers]
    apply follows_peek
    rw [ahead]
    exact follows_raise (by omega)
  | c :: cs, a, ready, ahead, inside => by
    have later : ∀ rest e, rest.length < (c :: cs).length → Onward a e → e.ahead = rest →
        Follows (fun n => members (one (n + 1)) form opened n) e
          (decodeMembers (decodeOne d) form (a.source.length - opened) rest) := by
      intro rest e fewer onward atE
      have later := members_follows reads.more form rest e (ready.onward onward) atE
        (by rwa [onward.source])
      rwa [onward.source] at later
    apply Follows.round
    unfold members
    rw [decodeMembers]
    apply follows_peek
    rw [ahead]
    simp only [List.head?_cons]
    by_cases close : c = form.closeChar
    · simp only [if_pos close]
      exact follows_advance ahead (follows_pure (next_ahead ahead))
    simp only [if_neg close, memberName, bind_assoc]
    apply follows_peek
    rw [ahead]
    by_cases quote : c = '"'
    · subst quote
      simp only [List.head?_cons, if_true, bind_assoc, pure_bind]
      refine quoted_follows .openFieldName inside ahead fun text b toB atB => ?_
      have short : text.rest.length < ('"' :: cs).length := text.shorter.trans (Nat.lt_succ_self _)
      exact member_follows reads.more (ready.onward toB) atB (short.trans (Nat.lt_succ_self _))
        fun rest e fewer toE => later rest e (fewer.trans short) (toB.trans toE)
    · rw [if_neg quote]
      simp only [List.head?_cons]
      split
      · next head => exact absurd (Option.some.inj head) quote
      · exact member_follows reads.more ready ahead (Nat.lt_succ_self _) later
termination_by s => s.length
decreasing_by exact fewer

theorem aggregate_follows (form : AggregateForm) (ready : Ready d a) (begun : 0 < a.now.cursor)
    (ahead : a.ahead = s) :
    Follows (fun n => aggregate (one n) form n) a (decodeAggregate (decodeOne d) form s) := by
  obtain ⟨b, scans, behind⟩ := reaches_scanWhile (inName form) ahead
  -- the cursor is behind the opening character
  have opened : a.now.cursor - 1 ≤ a.source.length ∧
      a.source.length - (a.now.cursor - 1) = s.length + 1 := by
    have left := left_eq ahead
    have inside := ready.inside
    unfold State.Inside at inside
    omega
  unfold aggregate
  refine follows_position (.after scans (follows_peek ?_))
  cases cut : s.dropWhile (inName form) with
  | nil =>
    rw [behind, cut, decodeAggregate_nil _ cut]
    refine follows_raise ?_
    rw [scans.onward.source]
    omega
  | cons c rest =>
    have atB : b.ahead = c :: rest := behind.trans cut
    have onward := scans.onward.trans (.next atB)
    have inner : a.now.cursor - 1 ≤ b.next.source.length := by
      rw [onward.source]
      exact opened.1
    have parts := members_follows reads form rest b.next (ready.onward onward) (next_ahead atB)
      inner
    rw [onward.source, opened.2] at parts
    rw [atB]
    simp only [List.head?_cons]
    refine .after (reaches_nextChar atB) ?_
    by_cases close : c = form.closeChar
    · simp only [if_pos close]
      unfold decodeAggregate
      split
      · next same => cases cut.symm.trans same
      · next same =>
        cases cut.symm.trans same
        rw [if_pos close]
        exact follows_pure (next_ahead atB)
    · simp only [if_neg close]
      unfold decodeAggregate
      split
      · next same => cases cut.symm.trans same
      · next same =>
        cases cut.symm.trans same
        rw [if_neg close]
        exact parts.bind fun ms last _ _ _ _ atEnd => follows_pure atEnd

theorem ofLetter_follows (c : Char) (ready : Ready d a) (begun : 0 < a.now.cursor)
    (ahead : a.ahead = s) :
    Follows (fun n => ofLetter (one n) c n) a (decodeBody (decodeOne d) c s) := by
  unfold ofLetter decodeBody
  cases Primitive.ofCode? c with
  | some p => exact follows_pure ahead
  | none =>
    dsimp only
    split_ifs
    · exact object_follows reads ready ahead
    · exact (reads a _ ready ahead).bind fun t rest _ b _ _ behind => follows_pure behind
    · exact array_follows reads ready ahead
    · exact aggregate_follows reads _ ready begun ahead
    · exact aggregate_follows reads _ ready begun ahead
    · exact bitfield_follows ready.inside ahead
    · exact follows_pure ahead

end

section
variable {d : Nat} {one : Nat → Run TypeCode} {a : State} {s : List Char}
  (inside : a.Inside) (ahead : a.ahead = s)
include inside ahead

theorem body_tooDeep (deep : maxDepth < a.now.depth) :
    Follows (fun n => body (one n) n) a (decodeOne 0 s) := by
  unfold body
  refine .after (reaches_get a) ?_
  simp only [if_pos deep]
  exact follows_position (follows_raise (cursor_eq inside ahead))

section
variable (level : a.now.depth ≤ maxDepth)
include level

theorem body_ends (cut : s.dropWhile (qualifiers.contains ·) = []) :
    Follows (fun n => body (one n) n) a (decodeOne (d + 1) s) := by
  obtain ⟨b, skips, behind, -⟩ := reaches_skipped (qualifiers.contains ·) ahead
  have atEnd := cursor_eq (skips.onward.inside inside) (behind.trans cut)
  unfold body nextChar
  rw [decodeOne_nil d cut]
  refine .after (reaches_get a) ?_
  simp only [if_neg (Nat.not_lt.2 level)]
  refine .after skips ?_
  simp only [bind_assoc]
  apply follows_peek
  rw [behind, cut]
  simp only [List.head?_nil, bind_assoc]
  exact follows_position (follows_raise_bind atEnd)

theorem body_letter (reads : ReadsOne d one) (levels : a.now.depth + d = maxDepth) {c : Char}
    {rest : List Char} (cut : s.dropWhile (qualifiers.contains ·) = c :: rest) :
    ∃ b, Reaches (fun n => body (one n) n) a
        (located a.source ((decodeOne (d + 1) s).map (·.value))) b ∧
      Spare a b ∧ ∀ p, decodeOne (d + 1) s = .ok p → b.ahead = p.rest := by
  obtain ⟨b, skips, behind, -⟩ := reaches_skipped (qualifiers.contains ·) ahead
  have atB : b.ahead = c :: rest := behind.trans cut
  have onward := skips.onward.trans (.next atB)
  have ready : Ready d b.next := ⟨onward.inside inside, by rw [onward.depth]; exact levels⟩
  have letter : Follows (fun n => ofLetter (one n) c n) b.next (decodeOne (d + 1) s) := by
    have read := ofLetter_follows reads c ready (Nat.succ_pos _) (next_ahead atB)
    unfold decodeOne qualified
    split
    · next same => cases cut.symm.trans same
    · next same =>
      cases cut.symm.trans same
      exact read.pass fun _ _ _ => ⟨_, rfl⟩
  obtain ⟨e, reaches, rests⟩ := letter
  rw [onward.source] at reaches
  refine ⟨e, ?_, .next skips.onward reaches.onward, rests⟩
  unfold body
  refine (reaches_get a).bind ?_
  simp only [if_neg (Nat.not_lt.2 level)]
  exact skips.bind ((reaches_nextChar atB).bind reaches)

end

theorem body_follows (reads : ∀ k, d = k + 1 → ReadsOne k one)
    (levels : a.now.depth + d = maxDepth + 1) :
    ∃ b, Reaches (fun n => body (one n) n) a
        (located a.source ((decodeOne d s).map (·.value))) b ∧
      ∀ p, decodeOne d s = .ok p → Spare a b ∧ b.ahead = p.rest := by
  cases d with
  | zero =>
    obtain ⟨b, reaches, -⟩ := body_tooDeep inside ahead (by omega)
    exact ⟨b, reaches, by rintro _ ⟨⟩⟩
  | succ d =>
    have level : a.now.depth ≤ maxDepth := by omega
    cases cut : s.dropWhile (qualifiers.contains ·) with
    | nil =>
      obtain ⟨b, reaches, -⟩ := @body_ends d _ _ _ inside ahead level cut
      exact ⟨b, reaches, by rw [decodeOne_nil d cut]; rintro _ ⟨⟩⟩
    | cons c rest =>
      obtain ⟨b, reaches, spare, rests⟩ :=
        body_letter inside ahead level (reads d rfl) (by omega) cut
      exact ⟨b, reaches, fun p found => ⟨spare, rests p found⟩⟩

end

theorem reaches_one {a b : State} {r : Except Fault TypeCode}
    (inner : Reaches (fun n => body (one n) n) a.deeper r b)
    (spare : r.isOk = true → Spare a.deeper b) :
    Reaches one a r (b.back.log a.now r.isOk) := by
  obtain ⟨least, ends⟩ := inner.ends
  refine .round ⟨⟨least, fun fuel enough => ?_⟩, onward_call inner.onward spare⟩
  rw [one]
  exact call_ends (ends fuel enough)

theorem one_follows {d : Nat} (reads : ∀ k, d = k + 1 → ReadsOne k one) : ReadsOne d one := by
  intro a s ready ahead
  have levels : a.deeper.now.depth + d = maxDepth + 1 := by
    have depth := ready.depth
    show a.now.depth + 1 + d = maxDepth + 1
    omega
  have inside : a.deeper.Inside := ready.inside
  obtain ⟨b, reaches, found⟩ := body_follows inside ahead reads levels
  cases read : decodeOne d s with
  | error failure =>
    rw [read] at reaches
    cases failure <;> exact ⟨_, reaches_one reaches (by rintro ⟨⟩), by rintro _ ⟨⟩⟩
  | ok p =>
    rw [read] at reaches
    obtain ⟨spare, behind⟩ := found p read
    refine ⟨_, reaches_one reaches fun _ => spare, ?_⟩
    rintro _ ⟨⟩
    exact behind

theorem reads_one : ∀ d, ReadsOne d one
  | 0 => one_follows (by rintro _ ⟨⟩)
  | d + 1 => one_follows (by rintro _ ⟨⟩; exact reads_one d)

section
variable {α β : Type} {a : State} {s : List Char}

theorem withOffset_follows {one : Nat → Run TypeCode} (reads : ReadsOne maxDepth one)
    (ready : Ready maxDepth a) (ahead : a.ahead = s) :
    Follows (fun n => withOffset (one n) n) a (decodeWithOffset s) := by
  unfold withOffset decodeWithOffset TypeCode.withOffset
  refine (reads a s ready ahead).bind fun t rest shorter b _ _ atB => ?_
  exact (scanDigits_follows atB).bind fun _ last _ c _ _ atC => follows_pure atC

theorem reaches_map {w : Nat → Run α} {f : α → β} {source : String} {x : Except Failure α}
    (first : ∃ b, Reaches w a (located source x) b) :
    ∃ b, Reaches (fun n => w n >>= fun v => pure (f v)) a
      (located source (x >>= fun v => pure (f v))) b := by
  obtain ⟨b, reaches⟩ := first
  refine ⟨b, ?_⟩
  match x, reaches with
  | .ok v, reaches => exact reaches.bind (reaches_pure (f v) b)
  | .error e, reaches => exact reaches.of_failed

theorem arguments_end : ∀ (s : List Char) (a : State), Ready maxDepth a → a.ahead = s →
    ∃ b, Reaches arguments a (located a.source (decodeAll s)) b
  | [], a, ready, ahead => by
    refine ⟨a, .round ?_⟩
    unfold arguments
    rw [decodeAll_of_nil]
    refine (reaches_peek a).bind ?_
    rw [ahead]
    exact reaches_pure [] a
  | c :: cs, a, ready, ahead => by
    have later : ∃ b, Reaches (fun n => do
        let t ← withOffset (one n) n
        return t :: (← arguments n)) a
        (located a.source (do
          let t ← decodeWithOffset (c :: cs)
          return t.value :: (← decodeAll t.rest))) b :=
      (withOffset_follows (reads_one _) ready ahead).then fun t rest shorter b toB atB =>
        have fewer : rest.length < (c :: cs).length := shorter
        reaches_map (arguments_end rest b (ready.onward toB) atB)
    obtain ⟨b, reaches⟩ := later
    refine ⟨b, .round ?_⟩
    unfold arguments
    rw [decodeAll_of_cons]
    refine (reaches_peek a).bind ?_
    rw [ahead]
    exact reaches
termination_by s => s.length
decreasing_by exact fewer

theorem ready_start (source : String) : Ready maxDepth (start source) :=
  ⟨Nat.zero_le _, Nat.zero_add _⟩

theorem type_ends (source : String) : ∃ b, Reaches type (start source) (decode source) b := by
  have ready := ready_start source
  unfold type
  refine (withOffset_follows (reads_one _) ready rfl).then fun t rest shorter b toB atB => ?_
  cases rest with
  | nil =>
    refine ⟨b, (reaches_peek b).bind ?_⟩
    rw [atB]
    exact reaches_pure t b
  | cons c cs =>
    refine ⟨b, (reaches_peek b).bind ?_⟩
    rw [atB]
    refine (reaches_position b).bind ?_
    rw [cursor_eq (toB.inside ready.inside) atB]
    exact reaches_raise .trailingData _ b

theorem method_ends (source : String) :
    ∃ b, Reaches method (start source) (decodeSignature source) b := by
  have ready := ready_start source
  unfold method
  refine (withOffset_follows (reads_one _) ready rfl).then fun t rest shorter b toB atB => ?_
  exact reaches_map (arguments_end rest b (ready.onward toB) atB)

end

/-- What a run over an encoding has done when it is over. -/
structure Bounded (source : String) (s : State) : Prop where
  inside : ∀ m ∈ s.moments, m.cursor ≤ source.length
  forward : s.moments.Pairwise fun earlier later => earlier.cursor ≤ later.cursor
  moves : ∀ c ∈ s.calls, c.succeeded = true → c.before.cursor < c.after.cursor
  depth : ∀ c ∈ s.calls, c.after.depth = c.before.depth
  few : s.successes ≤ source.length

theorem Reaches.bounded {α : Type} {w : Nat → Run α} {source : String} {r : Except Fault α}
    {s : State} (reaches : Reaches w (start source) r s) : Bounded source s := by
  have onward := reaches.onward
  have inside : s.now.cursor ≤ source.length := by
    have inside := onward.inside (Nat.zero_le _)
    unfold State.Inside at inside
    rwa [onward.source] at inside
  have orderly : s.Orderly :=
    onward.orderly ⟨List.pairwise_singleton _ _, List.forall_mem_nil _⟩
  have few : s.successes ≤ s.now.cursor := by
    have spare : s.successes + 0 ≤ 0 + s.now.cursor := onward.spare
    omega
  obtain ⟨before, -⟩ := List.pairwise_cons.1 orderly.forward
  refine ⟨?_, List.pairwise_reverse.2 orderly.forward,
    fun c member => (orderly.regular c member).moves,
    fun c member => (orderly.regular c member).depth, few.trans inside⟩
  intro m member
  rcases List.mem_cons.1 (List.mem_reverse.1 member) with rfl | member
  · exact inside
  · exact (before m member).trans inside

/-- With enough fuel the machine ends with the answer of the decoder. On its way the cursor has gone
forward from moment to moment within the text; each type that was read has passed some of it, and
each type, read or not, has left the counter as it was. What is wrong with the text is told of the
whole of it, and of a place in it. -/
theorem decoding_bounded (source : String) :
    (∃ least s, (∀ fuel ≥ least, type fuel (start source) = some (decode source, s)) ∧
      Bounded source s) ∧
    (∃ least s, (∀ fuel ≥ least, method fuel (start source) = some (decodeSignature source, s)) ∧
      Bounded source s) ∧
    ∀ cause told place,
      decode source = .error (.encoding cause told place) ∨
        decodeSignature source = .error (.encoding cause told place) →
      told = source ∧ place ≤ source.length := by
  obtain ⟨s, type⟩ := type_ends source
  obtain ⟨t, method⟩ := method_ends source
  obtain ⟨least, typeEnds⟩ := type.ends
  obtain ⟨enough, methodEnds⟩ := method.ends
  refine ⟨⟨least, s, typeEnds, type.bounded⟩, ⟨enough, t, methodEnds, method.bounded⟩, ?_⟩
  have place : ∀ {α : Type} (x : Except Failure α) cause told place,
      located source x = .error (.encoding cause told place) →
      told = source ∧ place ≤ source.length := by
    rintro α ((⟨cause, left⟩ | cause | _) | v) _ _ _ ⟨⟩
    exact ⟨rfl, Nat.sub_le _ _⟩
  rintro cause told position (failed | failed)
  · exact place _ _ _ _ failed
  · exact place _ _ _ _ failed

theorem decoding_bounded_openUnion :
    decodeSignature "v(a" = .error (.encoding .openUnion "v(a" 1) ∧ 1 ≤ "v(a".length := by
  have unclosed : decodeSignature "v(a" = .error (.encoding .openUnion "v(a" 1) := by cbv
  obtain ⟨-, -, places⟩ := decoding_bounded "v(a"
  obtain ⟨-, inside⟩ := places .openUnion "v(a" 1 (.inr unclosed)
  exact ⟨unclosed, inside⟩

end MachImage.TypeCode.Machine
