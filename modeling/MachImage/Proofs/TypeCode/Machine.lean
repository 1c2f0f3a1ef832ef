import Mathlib
import MachImage.TypeCode.Decoder
/-!
The decoder with its cursor and its counter. A machine reads an encoding with a cursor that goes
from letter to letter and a counter of the types that it is inside of, and it keeps account of each
moment at which one of the two was set and of each type that it began to read. It loops for as long
as there is something to read. Nothing in it says that this ends, so each round takes some fuel, and
a computation that has none left is cut off and comes to nothing at all. `Reaches` tells what one
comes to as soon as there is enough of it, and what holds on the way there.
-/
namespace MachImage.TypeCode.Machine

structure Moment where
  cursor : Nat := 0
  depth : Nat := 0

structure Call where
  before : Moment
  after : Moment
  succeeded : Bool

/-- Of the past moments, and of the calls that are over, the last one stands first. -/
structure State where
  source : String
  now : Moment := {}
  past : List Moment := []
  calls : List Call := []

namespace State

def set (s : State) (m : Moment) : State := { s with now := m, past := s.now :: s.past }

def next (s : State) : State := s.set { s.now with cursor := s.now.cursor + 1 }

def deeper (s : State) : State := s.set { s.now with depth := s.now.depth + 1 }

def back (s : State) : State := s.set { s.now with depth := s.now.depth - 1 }

def log (s : State) (before : Moment) (succeeded : Bool) : State :=
  { s with calls := ⟨before, s.now, succeeded⟩ :: s.calls }

def ahead (s : State) : List Char := s.source.toList.drop s.now.cursor

def moments (s : State) : List Moment := (s.now :: s.past).reverse

def successes (s : State) : Nat := s.calls.countP (·.succeeded)

end State

def start (source : String) : State := { source }

abbrev Steps := StateT State Option

abbrev Run := ExceptT Fault Steps

def cutOff {α : Type} : Run α := ExceptT.mk fun _ => none

def position : Run Nat := do return (← get).now.cursor

def peek : Run (Option Char) := do return (← get).ahead.head?

def advance : Run Unit := modify State.next

def raise {α : Type} (cause : EncodingFault) (position : Nat) : Run α := do
  throw (.encoding cause (← get).source position)

def nextChar : Run Char := do
  match ← peek with
  | some c => advance; return c
  | none => raise .unexpectedEnd (← position)

def textFrom (start : Nat) : Run (List Char) := do
  let s ← get
  return (s.source.toList.take s.now.cursor).drop start

def skipWhile (p : Char → Bool) : Nat → Run Unit
  | 0 => cutOff
  | fuel + 1 => do
    match ← peek with
    | some c => if p c then do advance; skipWhile p fuel else return
    | none => return

def scanWhile (p : Char → Bool) (fuel : Nat) : Run String := do
  let start ← position
  skipWhile p fuel
  return String.ofList (← textFrom start)

def scanDigits (fuel : Nat) : Run (Option Nat) := do
  let start ← position
  skipWhile Numeral.isDigit fuel
  let run ← textFrom start
  if run.isEmpty then return none
  else match Numeral.value run with
    | .ok n => return some n
    | .error cause => throw (.misuse (.numeral cause))

def quoted (unclosed : EncodingFault) (opened fuel : Nat) : Run String := do
  advance
  let text ← scanWhile (· ≠ '"') fuel
  match ← peek with
  | none => raise unclosed opened
  | some _ => advance; return text

def bitfield (fuel : Nat) : Run TypeCode := do
  match ← scanDigits fuel with
  | none => raise .bitfieldWidth (← position)
  | some width => return .bitfield width

def memberName (opened fuel : Nat) : Run (Option String) := do
  match ← peek with
  | some '"' => return some (← quoted .openFieldName opened fuel)
  | _ => return none

def withOffset (one : Run TypeCode) (fuel : Nat) : Run TypeCode := do
  let t ← one
  let _ ← scanDigits fuel
  return t

def types (one : Run TypeCode) (opened : Nat) : Nat → Run (List TypeCode)
  | 0 => cutOff
  | fuel + 1 => do
    match ← peek with
    | none => raise .openBlock opened
    | some c =>
      if c = '>' then do
        advance
        return []
      else do
        let t ← withOffset one fuel
        return t :: (← types one opened fuel)

def block (one : Run TypeCode) (fuel : Nat) : Run TypeCode := do
  match ← peek with
  | some '<' =>
    let opened ← position
    advance
    match ← types one opened fuel with
    | [] => return .block none
    | returns :: arguments => return .block (some ⟨returns, arguments⟩)
  | _ => return .block none

def object (one : Run TypeCode) (fuel : Nat) : Run TypeCode := do
  match ← peek with
  | some '?' => advance; block one fuel
  | some '"' => return quotedObject (← quoted .openClassName (← position) fuel)
  | _ => return .object none []

def array (one : Run TypeCode) (fuel : Nat) : Run TypeCode := do
  match ← scanDigits fuel with
  | none => raise .arrayCount (← position)
  | some n =>
    let t ← one
    match ← peek with
    | some ']' => advance; return .array (some t) n
    | _ => raise .arrayClose (← position)

def members (one : Run TypeCode) (form : AggregateForm) (opened : Nat) :
    Nat → Run (List (Member TypeCode))
  | 0 => cutOff
  | fuel + 1 => do
    match ← peek with
    | none => raise (openAggregate form) opened
    | some c =>
      if c = form.closeChar then do
        advance
        return []
      else do
        let name ← memberName opened fuel
        let t ← one
        return ⟨name, t⟩ :: (← members one form opened fuel)

def aggregate (one : Run TypeCode) (form : AggregateForm) (fuel : Nat) : Run TypeCode := do
  let opened := (← position) - 1
  let name ← scanWhile (inName form) fuel
  match ← peek with
  | none => raise (openAggregate form) opened
  | some _ =>
    let c ← nextChar
    if c = form.closeChar then return .aggregate form (some name) none
    else return .aggregate form (some name) (some (← members one form opened fuel))

def ofLetter (one : Run TypeCode) (c : Char) (fuel : Nat) : Run TypeCode := do
  match Primitive.ofCode? c with
  | some p => return .primitive p
  | none =>
    if c = '@' then object one fuel
    else if c = '^' then return .pointer (some (← one))
    else if c = '[' then array one fuel
    else if c = AggregateForm.struct.openChar then aggregate one .struct fuel
    else if c = AggregateForm.union.openChar then aggregate one .union fuel
    else if c = 'b' then bitfield fuel
    else return .unknown (some c.toString)

def enter : Steps Moment := do
  let before := (← get).now
  modify State.deeper
  return before

def leave (before : Moment) (succeeded : Bool) : Steps Unit :=
  modify fun s => s.back.log before succeeded

/-- However a type ends, the counter goes down again. -/
def call (body : Run TypeCode) : Run TypeCode := ExceptT.mk do
  let before ← enter
  let outcome ← body.run
  leave before outcome.isOk
  return outcome

def body (one : Run TypeCode) (fuel : Nat) : Run TypeCode := do
  if maxDepth < (← get).now.depth then raise .tooDeep (← position)
  else do
    skipWhile (qualifiers.contains ·) fuel
    ofLetter one (← nextChar) fuel

def one : Nat → Run TypeCode
  | 0 => cutOff
  | fuel + 1 => call (body (one fuel) fuel)

def type (fuel : Nat) : Run TypeCode := do
  let t ← withOffset (one fuel) fuel
  match ← peek with
  | none => return t
  | some _ => raise .trailingData (← position)

def arguments : Nat → Run (List TypeCode)
  | 0 => cutOff
  | fuel + 1 => do
    match ← peek with
    | none => return []
    | some _ =>
      let t ← withOffset (one fuel) fuel
      return t :: (← arguments fuel)

def method (fuel : Nat) : Run MethodSignature := do
  let returns ← withOffset (one fuel) fuel
  return ⟨returns, ← arguments fuel⟩

structure Call.Regular (c : Call) : Prop where
  depth : c.after.depth = c.before.depth
  moves : c.succeeded = true → c.before.cursor < c.after.cursor

def State.Inside (s : State) : Prop := s.now.cursor ≤ s.source.length

structure State.Orderly (s : State) : Prop where
  forward : (s.now :: s.past).Pairwise fun later earlier => earlier.cursor ≤ later.cursor
  regular : ∀ c ∈ s.calls, c.Regular

/-- From one state to a later one outside of all types between them. Each type that was read in the
meantime has a letter of its own among those that were passed. -/
structure Onward (a b : State) : Prop where
  source : b.source = a.source
  depth : b.now.depth = a.now.depth
  forward : a.now.cursor ≤ b.now.cursor
  spare : b.successes + a.now.cursor ≤ a.successes + b.now.cursor
  inside : a.Inside → b.Inside
  orderly : a.Orderly → b.Orderly

section
variable {a b c : State} {l : Char} {ls s : List Char}

theorem length_ahead (a : State) : a.ahead.length = a.source.length - a.now.cursor := by
  rw [State.ahead, List.length_drop, String.length_toList]

theorem left_eq (ahead : a.ahead = s) : a.source.length - a.now.cursor = s.length := by
  rw [← ahead, length_ahead]

theorem cursor_eq (inside : a.Inside) (ahead : a.ahead = s) :
    a.now.cursor = a.source.length - s.length := by
  have left := left_eq ahead
  unfold State.Inside at inside
  omega

theorem cursor_lt (ahead : a.ahead = l :: ls) : a.now.cursor < a.source.length := by
  have left := left_eq ahead
  rw [List.length_cons] at left
  omega

theorem next_ahead (ahead : a.ahead = l :: ls) : a.next.ahead = ls := by
  have behind : a.ahead.drop 1 = ls := by rw [ahead]; rfl
  rwa [State.ahead, List.drop_drop] at behind

theorem State.Orderly.set (orderly : a.Orderly) {m : Moment} (forward : a.now.cursor ≤ m.cursor) :
    (a.set m).Orderly := by
  obtain ⟨before, -⟩ := List.pairwise_cons.1 orderly.forward
  refine ⟨List.pairwise_cons.2 ⟨?_, orderly.forward⟩, orderly.regular⟩
  intro earlier member
  rcases List.mem_cons.1 member with rfl | member
  · exact forward
  · exact (before earlier member).trans forward

theorem Onward.refl (a : State) : Onward a a :=
  ⟨rfl, rfl, Nat.le_refl _, Nat.le_refl _, id, id⟩

theorem Onward.trans (h : Onward a b) (k : Onward b c) : Onward a c where
  source := k.source.trans h.source
  depth := k.depth.trans h.depth
  forward := h.forward.trans k.forward
  spare := by
    have := h.spare
    have := k.spare
    omega
  inside := fun inside => k.inside (h.inside inside)
  orderly := fun orderly => k.orderly (h.orderly orderly)

theorem Onward.next (ahead : a.ahead = l :: ls) : Onward a a.next where
  source := rfl
  depth := rfl
  forward := Nat.le_succ _
  spare := Nat.le_succ _
  inside := fun _ => cursor_lt ahead
  orderly := fun orderly => orderly.set (Nat.le_succ _)

structure Spare (a b : State) : Prop where
  moves : a.now.cursor < b.now.cursor
  letter : b.successes + a.now.cursor < a.successes + b.now.cursor

theorem Spare.next (on : Onward a b) (later : Onward b.next c) : Spare a c := by
  have step : b.next.now.cursor = b.now.cursor + 1 := rfl
  have same : b.next.successes = b.successes := rfl
  have := on.forward
  have := on.spare
  have := later.forward
  have := later.spare
  constructor <;> omega

/-- The letter that a type has to spare counts for the type itself. -/
theorem onward_call {succeeded : Bool} (inner : Onward a.deeper b)
    (spare : succeeded = true → Spare a.deeper b) : Onward a (b.back.log a.now succeeded) := by
  have depth : b.now.depth - 1 = a.now.depth := by
    have entered : b.now.depth = a.now.depth + 1 := inner.depth
    omega
  refine ⟨inner.source, depth, inner.forward, ?_, inner.inside, fun orderly => ?_⟩
  · have outer : b.successes + a.now.cursor ≤ a.successes + b.now.cursor := inner.spare
    show (b.back.log a.now succeeded).calls.countP (·.succeeded) + a.now.cursor ≤
      a.successes + b.now.cursor
    cases succeeded with
    | false => exact outer
    | true =>
      have letter : b.successes + a.now.cursor < a.successes + b.now.cursor := (spare rfl).letter
      rw [State.log, List.countP_cons_of_pos rfl]
      show b.successes + 1 + a.now.cursor ≤ a.successes + b.now.cursor
      omega
  · have entered : a.deeper.Orderly := orderly.set (Nat.le_refl _)
    have left : b.back.Orderly := (inner.orderly entered).set (Nat.le_refl _)
    have regular : Call.Regular ⟨a.now, b.back.now, succeeded⟩ :=
      ⟨depth, fun read => (spare read).moves⟩
    exact ⟨left.forward, List.forall_mem_cons.2 ⟨regular, left.regular⟩⟩

end

/-- With enough fuel a computation ends, and more fuel makes no difference. -/
structure Reaches {α : Type} (w : Nat → Run α) (a : State) (r : Except Fault α) (b : State) :
    Prop where
  ends : ∃ least, ∀ fuel ≥ least, w fuel a = some (r, b)
  onward : Onward a b

section
variable {α β : Type} {w : Nat → Run α} {f : Nat → α → Run β} {a b c : State} {v : α}
  {r : Except Fault β}

theorem Reaches.bind (first : Reaches w a (.ok v) b) (next : Reaches (fun n => f n v) b r c) :
    Reaches (fun n => w n >>= f n) a r c := by
  obtain ⟨least, ends⟩ := first.ends
  obtain ⟨later, goesOn⟩ := next.ends
  refine ⟨⟨max least later, fun fuel enough => ?_⟩, first.onward.trans next.onward⟩
  have here := ends fuel (by omega)
  have there := goesOn fuel (by omega)
  show (w fuel >>= f fuel) a = some (r, c)
  simp only [Bind.bind, ExceptT.bind, ExceptT.mk, StateT.bind, Option.bind, here]
  exact there

theorem Reaches.bind_error {e : Fault} (first : Reaches w a (.error e) b) :
    Reaches (fun n => w n >>= f n) a (.error e) b := by
  obtain ⟨least, ends⟩ := first.ends
  refine ⟨⟨least, fun fuel enough => ?_⟩, first.onward⟩
  have here := ends fuel enough
  show (w fuel >>= f fuel) a = some (.error e, b)
  simp only [Bind.bind, ExceptT.bind, ExceptT.mk, StateT.bind, Option.bind, here]
  rfl

theorem Reaches.round {r : Except Fault α} (rest : Reaches (fun n => w (n + 1)) a r b) :
    Reaches w a r b := by
  obtain ⟨least, ends⟩ := rest.ends
  refine ⟨⟨least + 1, fun fuel enough => ?_⟩, rest.onward⟩
  obtain ⟨n, rfl⟩ : ∃ n, fuel = n + 1 := ⟨fuel - 1, by omega⟩
  exact ends n (by omega)

theorem Reaches.more {r : Except Fault α} (reaches : Reaches w a r b) :
    Reaches (fun n => w (n + 1)) a r b := by
  obtain ⟨least, ends⟩ := reaches.ends
  exact ⟨⟨least, fun fuel enough => ends (fuel + 1) (by omega)⟩, reaches.onward⟩

theorem reaches_of_eq {w : Run α} {r : Except Fault α} (ends : w a = some (r, b))
    (onward : Onward a b) : Reaches (fun _ => w) a r b :=
  ⟨⟨0, fun _ _ => ends⟩, onward⟩

theorem reaches_pure (v : α) (a : State) : Reaches (fun _ => pure v) a (.ok v) a :=
  reaches_of_eq rfl (.refl a)

theorem reaches_throw (e : Fault) (a : State) :
    Reaches (fun _ => (throw e : Run α)) a (.error e) a :=
  reaches_of_eq rfl (.refl a)

theorem reaches_raise (cause : EncodingFault) (place : Nat) (a : State) :
    Reaches (fun _ => (raise cause place : Run α)) a (.error (.encoding cause a.source place)) a :=
  reaches_of_eq rfl (.refl a)

end

theorem reaches_get (a : State) : Reaches (fun _ => (MonadStateOf.get : Run State)) a (.ok a) a :=
  reaches_of_eq rfl (.refl a)

theorem reaches_position (a : State) : Reaches (fun _ => position) a (.ok a.now.cursor) a :=
  reaches_of_eq rfl (.refl a)

theorem reaches_peek (a : State) : Reaches (fun _ => peek) a (.ok a.ahead.head?) a :=
  reaches_of_eq rfl (.refl a)

theorem reaches_textFrom (start : Nat) (a : State) : Reaches (fun _ => textFrom start) a
    (.ok ((a.source.toList.take a.now.cursor).drop start)) a :=
  reaches_of_eq rfl (.refl a)

theorem call_ends {body : Run TypeCode} {a b : State} {r : Except Fault TypeCode}
    (ends : body a.deeper = some (r, b)) :
    call body a = some (r, b.back.log a.now r.isOk) := by
  show (body a.deeper).bind (fun (r, b) => some (r, b.back.log a.now r.isOk)) = _
  rw [ends]
  rfl

section
variable {a : State} {l : Char} {ls s : List Char}

theorem reaches_advance (ahead : a.ahead = l :: ls) :
    Reaches (fun _ => advance) a (.ok ()) a.next :=
  reaches_of_eq rfl (.next ahead)

theorem reaches_nextChar (ahead : a.ahead = l :: ls) :
    Reaches (fun _ => nextChar) a (.ok l) a.next := by
  unfold nextChar
  refine (reaches_peek a).bind ?_
  rw [ahead]
  exact (reaches_advance ahead).bind (reaches_pure l _)

theorem reaches_skipWhile (p : Char → Bool) : ∀ (s : List Char) (a : State), a.ahead = s →
    ∃ b, Reaches (skipWhile p) a (.ok ()) b ∧ b.ahead = s.dropWhile p ∧
      b.now.cursor = a.now.cursor + (s.takeWhile p).length
  | [], a, ahead => by
    refine ⟨a, .round ?_, ahead, rfl⟩
    unfold skipWhile
    refine (reaches_peek a).bind ?_
    rw [ahead]
    exact reaches_pure () a
  | c :: cs, a, ahead => by
    by_cases goes : p c = true
    · obtain ⟨b, later, behind, moved⟩ := reaches_skipWhile p cs a.next (next_ahead ahead)
      have step : a.next.now.cursor = a.now.cursor + 1 := rfl
      refine ⟨b, .round ?_, ?_, ?_⟩
      · unfold skipWhile
        refine (reaches_peek a).bind ?_
        rw [ahead]
        simp only [List.head?_cons, goes, if_true]
        exact (reaches_advance ahead).bind later
      · rw [List.dropWhile_cons_of_pos goes, behind]
      · rw [List.takeWhile_cons_of_pos goes, List.length_cons, moved, step]
        omega
    · refine ⟨a, .round ?_, ?_, ?_⟩
      · unfold skipWhile
        refine (reaches_peek a).bind ?_
        rw [ahead]
        simp only [List.head?_cons, goes]
        exact reaches_pure () a
      · rw [List.dropWhile_cons_of_neg goes, ahead]
      · rw [List.takeWhile_cons_of_neg goes]
        rfl

theorem reaches_skipped (p : Char → Bool) (ahead : a.ahead = s) :
    ∃ b, Reaches (skipWhile p) a (.ok ()) b ∧ b.ahead = s.dropWhile p ∧
      Reaches (fun _ => textFrom a.now.cursor) b (.ok (s.takeWhile p)) b := by
  obtain ⟨b, skips, behind, moved⟩ := reaches_skipWhile p s a ahead
  have text := reaches_textFrom a.now.cursor b
  have between : (b.source.toList.take b.now.cursor).drop a.now.cursor = s.takeWhile p := by
    rw [skips.onward.source, moved, List.drop_take, Nat.add_sub_cancel_left]
    show a.ahead.take _ = _
    rw [ahead]
    exact (List.prefix_iff_eq_take.1 (List.takeWhile_prefix p)).symm
  rw [between] at text
  exact ⟨b, skips, behind, text⟩

theorem reaches_scanWhile (p : Char → Bool) (ahead : a.ahead = s) :
    ∃ b, Reaches (scanWhile p) a (.ok (String.ofList (s.takeWhile p))) b ∧
      b.ahead = s.dropWhile p := by
  obtain ⟨b, skips, behind, text⟩ := reaches_skipped p ahead
  exact ⟨b, (reaches_position a).bind (skips.bind (text.bind (reaches_pure _ b))), behind⟩

end

end MachImage.TypeCode.Machine
