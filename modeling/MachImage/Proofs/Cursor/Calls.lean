import Mathlib
import MachImage.Proofs.Cursor.Ahead
import MachImage.Proofs.Leb.Wrapping
/-!
Calls of a cursor in any order. A session has one cursor, which a call may set before it answers or
fails, and what was set stays set. `Tells` gives what a call answers at the bytes ahead, and which
bytes it takes. A call that has something to tell brings the cursor behind just those bytes, and any
other one leaves it where it is. So no calls bring it out of its region, and no more reads get ahead
than there are bytes.
-/
namespace MachImage.Cursor

abbrev Session := ExceptT Fault (StateM Cursor)

namespace Session

def atEnd : Session Bool := do
  let c ← get
  return c.region.size ≤ c.offset

def peek : Session UInt8 := do
  let c ← get
  c.region.byte c.offset

def byte : Session UInt8 := do
  let b ← peek
  modify fun c => { c with offset := c.offset + 1 }
  return b

def unsigned : Session Nat := do
  let c ← get
  let (n, next) ← Leb.readUnsigned c.region c.offset
  set { c with offset := next }
  return n

def signed : Session Int := do
  let c ← get
  let (n, next) ← Leb.readSigned c.region c.offset
  set { c with offset := next }
  return n

def string : Session String := do
  let c ← get
  let raw ← c.region.cstringBytes c.offset
  set { c with offset := c.offset + raw.length + 1 }
  return Utf8.decode raw

end Session

inductive Call where
  | byte | peek | unsigned | signed | string | atEnd
  deriving DecidableEq

namespace Call

def Answer : Call → Type
  | .byte | .peek => UInt8
  | .unsigned => Nat
  | .signed => Int
  | .string => String
  | .atEnd => Bool

def moves : Call → Bool
  | .peek | .atEnd => false
  | .byte | .unsigned | .signed | .string => true

def run : (call : Call) → Session call.Answer
  | .byte => Session.byte
  | .peek => Session.peek
  | .unsigned => Session.unsigned
  | .signed => Session.signed
  | .string => Session.string
  | .atEnd => Session.atEnd

def read : (call : Call) → (c : Cursor) → Read call.Answer
  | .byte, c => c.byte
  | .peek, c => c.peek.map (·, c)
  | .unsigned, c => c.unsigned
  | .signed, c => c.signed
  | .string, c => c.cstring
  | .atEnd, c => .ok (c.atEnd, c)

end Call

def settle {α : Type} (c : Cursor) : Read α → Except Fault α × Cursor
  | .ok (a, next) => (.ok a, next)
  | .error e => (.error e, c)

structure Turn where
  call : Call
  before : Cursor
  answer : Except Fault call.Answer
  after : Cursor

def Call.turn (call : Call) (c : Cursor) : Turn :=
  let ended := call.run.run.run c
  ⟨call, c, ended.1, ended.2⟩

def turns (c : Cursor) : List Call → List Turn
  | [] => []
  | call :: calls => call.turn c :: turns (call.turn c).after calls

structure Inside (c : Cursor) : Prop where
  start : 0 ≤ c.offset
  stop : c.offset ≤ c.region.size

/-- What a call answers at the bytes ahead, and which bytes it takes: those of a number or a string
as they stand, with the NUL. -/
inductive Tells (c : Cursor) : (call : Call) → call.Answer → List UInt8 → Prop
  | byte {b : UInt8} {bs : List UInt8} (ahead : c.Faces (b :: bs)) : Tells c .byte b [b]
  | peek {b : UInt8} {bs : List UInt8} (ahead : c.Faces (b :: bs)) : Tells c .peek b []
  | unsigned {run bs : List UInt8} (ahead : c.Faces (run ++ bs)) (whole : Leb.IsRun run)
      (short : run.length ≤ 10) (fits : Leb.total run < 0x10000000000000000) :
      Tells c .unsigned (Leb.total run) run
  | signed {run bs : List UInt8} (ahead : c.Faces (run ++ bs)) (whole : Leb.IsRun run)
      (short : run.length ≤ 10) :
      Tells c .signed ((Leb.signedTotal run).bmod 0x10000000000000000) run
  | string {raw bs : List UInt8} (ahead : c.Faces (raw ++ 0 :: bs)) (noNul : 0 ∉ raw) :
      Tells c .string (Utf8.decode raw) (raw ++ [0])
  | atEnd : Tells c .atEnd (decide (c.offset = c.region.size)) []

namespace Turn

/-- How a call ends in a region. -/
structure Regular (r : Region) (t : Turn) : Prop where
  region : t.after.region = r
  inside : t.after.Inside
  reads : (t.answer, t.after) = settle t.before (t.call.read t.before)
  failed : ∀ e, t.answer = .error e → t.after = t.before
  still : t.call.moves = false → t.after = t.before
  answers : ∀ v, t.answer = .ok v ↔ ∃ taken, Tells t.before t.call v taken
  takes : ∀ v taken, Tells t.before t.call v taken → t.after = t.before.forward taken.length
  passes : ∀ v taken, Tells t.before t.call v taken → t.call.moves = true → taken ≠ []

def moved (t : Turn) : Bool := t.call.moves && t.answer.isOk

end Turn

section
variable {α β : Type} (c : Cursor)

theorem run_get (f : Cursor → Session β) : (get >>= f).run.run c = (f c).run.run c := rfl

theorem run_lift (x : Except Fault α) (f : α → Session β) :
    (liftM x >>= f).run.run c =
      match x with
      | .ok a => (f a).run.run c
      | .error e => (.error e, c) := by
  cases x <;> rfl

/-- No call sets the cursor before it fails, so a session does what the reads of a cursor answer. -/
theorem run_eq (call : Call) : call.run.run.run c = settle c (call.read c) := by
  cases call with
  | byte =>
    show Session.byte.run.run c = settle c c.byte
    rw [Session.byte, Session.peek, bind_assoc, run_get, run_lift, Cursor.byte, Cursor.peek]
    cases c.region.byte c.offset <;> rfl
  | peek =>
    show Session.peek.run.run c = settle c (c.peek.map (·, c))
    rw [Session.peek, run_get, Cursor.peek]
    cases c.region.byte c.offset <;> rfl
  | unsigned =>
    show Session.unsigned.run.run c = settle c c.unsigned
    rw [Session.unsigned, run_get, run_lift, Cursor.unsigned]
    cases Leb.readUnsigned c.region c.offset <;> rfl
  | signed =>
    show Session.signed.run.run c = settle c c.signed
    rw [Session.signed, run_get, run_lift, Cursor.signed]
    cases Leb.readSigned c.region c.offset <;> rfl
  | string =>
    show Session.string.run.run c = settle c c.cstring
    rw [Session.string, run_get, run_lift, Cursor.cstring, Cursor.cstringBytes]
    cases c.region.cstringBytes c.offset <;> rfl
  | atEnd => rfl

end

theorem ok_of_map {α β : Type} {x : Except Fault α} {f : α → β} {b : β} (mapped : x.map f = .ok b) :
    ∃ a, x = .ok a ∧ b = f a := by
  cases x with
  | ok a => exact ⟨a, rfl, (Except.ok.inj mapped).symm⟩
  | error e => cases mapped

section
variable {c d : Cursor} {b : UInt8} {run bs : List UInt8}

theorem forward_zero (c : Cursor) : c.forward 0 = c := by
  rw [Cursor.forward, Int.natCast_zero, Int.add_zero]

theorem Faces.peek (ahead : c.Faces (b :: bs)) : c.peek = .ok b := by
  obtain ⟨found, looked, answer⟩ := ok_of_map ahead.byte
  cases answer
  exact looked

theorem peek_faces (looked : c.peek = .ok b) : ∃ bs, c.Faces (b :: bs) := by
  obtain ⟨bytes, read, -⟩ := ok_of_map looked
  have inside := (Region.read_eq_ok_iff.1 read).1
  rw [Region.contains_iff, Region.size] at inside
  have here : c.offset.toNat < c.region.bytes.toList.length := by
    rw [Array.length_toList]
    omega
  have ahead : c.Faces (c.region.bytes.toList[c.offset.toNat] :: _) :=
    ⟨inside.1, List.drop_eq_getElem_cons here⟩
  rw [ahead.peek] at looked
  cases looked
  exact ⟨_, ahead⟩

theorem spans_faces {next : Int} (spans : Leb.Spans c.region c.offset next run) :
    ∃ bs, c.Faces (run ++ bs) := by
  obtain ⟨bs, whole⟩ := spans.bytes
  exact ⟨bs, spans.inside, whole.symm⟩

theorem Faces.spans (ahead : c.Faces (run ++ bs)) :
    Leb.Spans c.region c.offset (c.offset + run.length) run :=
  ⟨ahead.inside, ⟨bs, ahead.bytes.symm⟩, rfl⟩

theorem cstring_faces {text : String} (read : c.cstring = .ok (text, d)) :
    ∃ raw bs, c.Faces (raw ++ 0 :: bs) ∧ 0 ∉ raw := by
  rw [Cursor.cstring, Cursor.cstringBytes, Region.cstringBytes_eq, Region.stringFrom] at read
  dsimp only at read
  split at read
  · cases read
  · next inside =>
    split at read
    · next nul =>
      obtain ⟨raw, bs, bytes, noNul⟩ := List.eq_append_cons_of_mem nul
      exact ⟨raw, bs, ⟨by omega, bytes⟩, noNul⟩
    · cases read

theorem atEnd_eq (inside : c.Inside) : c.atEnd = decide (c.offset = c.region.size) := by
  have stop := inside.stop
  rw [Cursor.atEnd, decide_eq_decide]
  omega

end

section
variable {c d : Cursor} (inside : c.Inside) {call : Call} {v : call.Answer} {taken : List UInt8}
include inside

theorem Tells.read (told : Tells c call v taken) :
    call.read c = .ok (v, c.forward taken.length) := by
  cases told with
  | byte ahead => exact ahead.byte
  | peek ahead =>
    show c.peek.map (·, c) = _
    rw [ahead.peek, List.length_nil, forward_zero]
    rfl
  | unsigned ahead whole short fits =>
    have read := Leb.readUnsigned_eq_ok_iff.2 ⟨_, ahead.spans, whole, short, rfl, fits⟩
    show c.unsigned = _
    rw [Cursor.unsigned, read]
    rfl
  | signed ahead whole short =>
    have value := (Leb.signedValue_eq whole short).symm
    have read := Leb.readSigned_eq_ok_iff.2 ⟨_, ahead.spans, whole, short, value⟩
    show c.signed = _
    rw [Cursor.signed, read]
    rfl
  | string ahead noNul =>
    show c.cstring = _
    rw [ahead.cstring noNul, List.length_append, List.length_singleton]
    rfl
  | atEnd =>
    show Except.ok (c.atEnd, c) = _
    rw [atEnd_eq inside, List.length_nil, forward_zero]
    rfl

theorem tells_of_read (read : call.read c = .ok (v, d)) : ∃ taken, Tells c call v taken := by
  cases call with
  | byte =>
    obtain ⟨b, looked, answer⟩ := ok_of_map read
    obtain ⟨bs, ahead⟩ := peek_faces looked
    cases answer
    exact ⟨_, .byte ahead⟩
  | peek =>
    obtain ⟨b, looked, answer⟩ := ok_of_map read
    obtain ⟨bs, ahead⟩ := peek_faces looked
    cases answer
    exact ⟨_, .peek ahead⟩
  | unsigned =>
    obtain ⟨⟨n, next⟩, found, answer⟩ := ok_of_map read
    obtain ⟨run, spans, whole, short, rfl, fits⟩ := Leb.readUnsigned_eq_ok_iff.1 found
    obtain ⟨bs, ahead⟩ := spans_faces spans
    cases answer
    exact ⟨_, .unsigned ahead whole short fits⟩
  | signed =>
    obtain ⟨⟨n, next⟩, found, answer⟩ := ok_of_map read
    obtain ⟨run, spans, whole, short, value⟩ := Leb.readSigned_eq_ok_iff.1 found
    obtain ⟨bs, ahead⟩ := spans_faces spans
    rw [Leb.signedValue_eq whole short] at value
    subst value
    cases answer
    exact ⟨_, .signed ahead whole short⟩
  | string =>
    obtain ⟨raw, bs, ahead, noNul⟩ := cstring_faces read
    have answer := (ahead.cstring noNul).symm.trans read
    cases answer
    exact ⟨_, .string ahead noNul⟩
  | atEnd =>
    have answer := Tells.read inside Tells.atEnd
    rw [read] at answer
    cases answer
    exact ⟨_, .atEnd⟩

theorem Tells.unique {w : call.Answer} {other : List UInt8} (told : Tells c call v taken)
    (also : Tells c call w other) : v = w ∧ taken.length = other.length := by
  have same := (told.read inside).symm.trans (also.read inside)
  obtain ⟨value, behind⟩ := Prod.mk.inj (Except.ok.inj same)
  have place : c.offset + (taken.length : Int) = c.offset + other.length :=
    congrArg Cursor.offset behind
  exact ⟨value, by omega⟩

theorem Tells.ahead (told : Tells c call v taken) : ∃ bs, c.Faces (taken ++ bs) := by
  cases told with
  | byte ahead | peek ahead | unsigned ahead | signed ahead => exact ⟨_, ahead⟩
  | @string raw bs ahead noNul =>
    refine ⟨bs, ?_⟩
    rwa [List.append_assoc]
  | atEnd => exact ⟨_, inside.start, rfl⟩

theorem Tells.stays (told : Tells c call v taken) : (c.forward taken.length).Inside := by
  obtain ⟨bs, ahead⟩ := told.ahead inside
  have length := ahead.length
  have start := inside.start
  have stop := inside.stop
  rw [List.length_append] at length
  constructor <;> simp only [Cursor.forward] <;> omega

omit inside in
theorem Tells.moves_iff (told : Tells c call v taken) : call.moves = true ↔ taken ≠ [] := by
  cases told with
  | byte | string => simp [Call.moves]
  | peek | atEnd => simp [Call.moves]
  | unsigned ahead whole | signed ahead whole =>
    simpa [Call.moves] using List.length_pos_iff.1 whole.length_pos

end

section
variable {c : Cursor} (inside : c.Inside) (call : Call)
include inside

theorem turn_ends :
    (∃ v taken, Tells c call v taken ∧ call.turn c = ⟨call, c, .ok v, c.forward taken.length⟩) ∨
    ∃ e, call.read c = .error e ∧ call.turn c = ⟨call, c, .error e, c⟩ := by
  have ran := run_eq c call
  cases read : call.read c with
  | ok p =>
    obtain ⟨taken, told⟩ := tells_of_read inside read
    rw [told.read inside] at ran
    exact .inl ⟨p.1, taken, told, by rw [Call.turn, ran]; rfl⟩
  | error e => exact .inr ⟨e, rfl, by rw [Call.turn, ran, read]; rfl⟩

theorem regular_of_tells {v : call.Answer} {taken : List UInt8} (told : Tells c call v taken) :
    Turn.Regular c.region ⟨call, c, .ok v, c.forward taken.length⟩ where
  region := rfl
  inside := told.stays inside
  reads := by
    show _ = settle c (call.read c)
    rw [told.read inside]
    rfl
  failed := by rintro _ ⟨⟩
  still := by
    intro looks
    have none : taken = [] := by
      by_contra some
      rw [told.moves_iff.2 some] at looks
      cases looks
    rw [none]
    exact forward_zero c
  answers := by
    intro w
    constructor
    · rintro ⟨⟩
      exact ⟨taken, told⟩
    · rintro ⟨other, also⟩
      rw [(told.unique inside also).1]
  takes := by
    intro w other also
    rw [(told.unique inside also).2]
  passes := fun _ _ also => also.moves_iff.1

theorem regular_of_error {e : Fault} (read : call.read c = .error e) :
    Turn.Regular c.region ⟨call, c, .error e, c⟩ := by
  have silent : ∀ v taken, ¬ Tells c call v taken := by
    intro v taken told
    rw [told.read inside] at read
    cases read
  have settled : settle c (call.read c) = (.error e, c) := by rw [read]; rfl
  refine ⟨rfl, inside, settled.symm, fun _ _ => rfl, fun _ => rfl, fun v => ⟨?_, ?_⟩, ?_, ?_⟩
  · rintro ⟨⟩
  · rintro ⟨taken, told⟩
    exact absurd told (silent v taken)
  · exact fun v taken told => absurd told (silent v taken)
  · exact fun v taken told => absurd told (silent v taken)

theorem turn_regular : (call.turn c).Regular c.region := by
  rcases turn_ends inside call with ⟨v, taken, told, ended⟩ | ⟨e, read, ended⟩
  · rw [ended]
    exact regular_of_tells inside call told
  · rw [ended]
    exact regular_of_error inside call read

theorem turn_passes :
    c.offset + (if (call.turn c).moved then 1 else 0 : Nat) ≤ (call.turn c).after.offset := by
  rcases turn_ends inside call with ⟨v, taken, told, ended⟩ | ⟨e, -, ended⟩
  · rw [ended]
    show c.offset + _ ≤ c.offset + (taken.length : Int)
    by_cases moves : call.moves = true
    · have some := List.length_pos_iff.2 (told.moves_iff.1 moves)
      split <;> omega
    · have stays : Turn.moved ⟨call, c, .ok v, c.forward taken.length⟩ = false := by
        simp [Turn.moved, moves]
      rw [stays, if_neg Bool.false_ne_true]
      omega
  · have stays : Turn.moved ⟨call, c, .error e, c⟩ = false := Bool.and_false _
    rw [ended, stays, if_neg Bool.false_ne_true]
    exact (Int.add_zero _).le

end

/-- In whatever order calls come, and also behind those that failed, each one ends in the region,
and where it began unless it took some bytes. So those that get ahead are no more than the bytes
from the first cursor on. -/
theorem turns_regular {c : Cursor} (inside : c.Inside) (calls : List Call) :
    (∀ t ∈ turns c calls, t.Regular c.region) ∧
    ((turns c calls).countP Turn.moved : Int) ≤ c.region.size - c.offset := by
  induction calls generalizing c with
  | nil =>
    have stop := inside.stop
    refine ⟨List.forall_mem_nil _, ?_⟩
    show (0 : Int) ≤ _
    omega
  | cons call calls ih =>
    have regular := turn_regular inside call
    have passes := turn_passes inside call
    obtain ⟨later, few⟩ := ih regular.inside
    rw [regular.region] at later few
    refine ⟨List.forall_mem_cons.2 ⟨regular, later⟩, ?_⟩
    rw [turns, List.countP_cons]
    omega

theorem turns_regular_broken :
    ∃ ts, ts = turns ⟨⟨#[0x81, 0x01, 0xff, 0x61, 0x00, 0x80], 0⟩, 0⟩
        [.peek, .unsigned, .string, .unsigned, .atEnd, .byte, .signed, .atEnd] ∧
      ts.map (·.after.offset) = [0, 2, 5, 5, 5, 6, 6, 6] ∧
      ∀ t ∈ ts, t.Regular ⟨#[0x81, 0x01, 0xff, 0x61, 0x00, 0x80], 0⟩ := by
  have inside : Inside ⟨⟨#[0x81, 0x01, 0xff, 0x61, 0x00, 0x80], 0⟩, 0⟩ :=
    ⟨Int.le_refl 0, by decide⟩
  exact ⟨_, rfl, by cbv, (turns_regular inside _).1⟩

end MachImage.Cursor
