import MachImage.TypeCode.Stack
import MachImage.Proofs.TypeCode.Letters
/-!
How many frames a decoder needs. On as many, or more, it answers as it does with no end of them; on
fewer it is cut short, whatever the text holds. What was decoded tells the number, and no text needs
more than 1027.
-/
namespace MachImage.TypeCode

/-- There is a least number of frames on which a run has its result, and with fewer it has none. It
is related to the value, if there is one. -/
structure Takes {α : Type} (bound : Nat) (run : Nat → Except Failure α)
    (result : Except Failure α) (told : Nat → α → Prop) : Prop where
  settled : result ≠ .error .stack
  least : ∃ needed ≤ bound,
    (∀ frames, run frames = if needed ≤ frames then result else .error .stack) ∧
      ∀ a, result = .ok a → told needed a

section
variable {α β : Type} {bound wider : Nat} {run : Nat → Except Failure α} {x : Except Failure α}
  {told : Nat → α → Prop} {f : α → Except Failure β} {tells : Nat → β → Prop}

theorem takes_free (settled : x ≠ .error .stack) (none : ∀ a, x = .ok a → told 0 a) :
    Takes bound (fun _ => x) x told :=
  ⟨settled, 0, Nat.zero_le _, fun frames => (if_pos (Nat.zero_le frames)).symm, none⟩

theorem takes_ok {a : α} (none : told 0 a) : Takes bound (fun _ => .ok a) (.ok a) told :=
  takes_free nofun fun _ value => by cases value; exact none

theorem takes_fail (cause : EncodingFault) (left : Nat) :
    Takes bound (fun _ => fail cause left) (fail cause left) told :=
  takes_free nofun nofun

theorem Takes.mono {other : Nat → α → Prop} (takes : Takes bound run x told)
    (le : bound ≤ wider) (implies : ∀ n a, told n a → other n a) : Takes wider run x other := by
  obtain ⟨settled, needed, within, runs, relates⟩ := takes
  exact ⟨settled, needed, Nat.le_trans within le, runs,
    fun a value => implies _ a (relates a value)⟩

/-- The second step begins when the first has given its frames back. -/
theorem Takes.bind {next : α → Nat → Except Failure β} (first : Takes bound run x told)
    (second : ∀ m a, told m a → Takes bound (next a) (f a) fun n b => tells (max m n) b) :
    Takes bound (fun frames => run frames >>= fun a => next a frames) (x >>= f) tells := by
  obtain ⟨settled, m, withinM, runs, relates⟩ := first
  cases x with
  | error e =>
    refine ⟨fun same => settled (congrArg _ (Except.error.inj same)), m, withinM, ?_, nofun⟩
    intro frames
    rw [runs frames]
    split <;> rfl
  | ok a =>
    obtain ⟨settledF, n, withinN, goes, ends⟩ := second m a (relates a rfl)
    refine ⟨settledF, max m n, Nat.max_le.2 ⟨withinM, withinN⟩, ?_, ends⟩
    intro frames
    rw [runs frames]
    by_cases fewM : m ≤ frames
    · rw [if_pos fewM]
      refine (goes frames).trans ?_
      by_cases fewN : n ≤ frames
      · rw [if_pos fewN, if_pos (Nat.max_le.2 ⟨fewM, fewN⟩)]
        rfl
      · rw [if_neg fewN, if_neg fun both => fewN (Nat.max_le.1 both).2]
    · rw [if_neg fewM, if_neg fun both => fewM (Nat.max_le.1 both).1]
      rfl

theorem Takes.done (first : Takes bound run x told)
    (last : ∀ m a, told m a → Takes bound (fun _ => f a) (f a) fun n b => tells (max m n) b) :
    Takes bound (fun frames => run frames >>= f) (x >>= f) tells :=
  first.bind last

theorem takes_behind {next : α → Nat → Except Failure β} (settled : x ≠ .error .stack)
    (later : ∀ a, Takes bound (next a) (f a) tells) :
    Takes bound (fun frames => x >>= fun a => next a frames) (x >>= f) tells := by
  have first : Takes bound (fun _ => x) x fun n _ => n = 0 := takes_free settled fun _ _ => rfl
  refine first.bind fun _ a none => ?_
  simpa only [none, Nat.zero_max] using later a

theorem Takes.calls (takes : Takes bound run x told) (count : Nat) :
    Takes (bound + count) (calls count run) x fun n a => ∃ m, n = m + count ∧ told m a := by
  obtain ⟨settled, needed, within, runs, relates⟩ := takes
  refine ⟨settled, needed + count, by omega, ?_, fun a value => ⟨needed, rfl, relates a value⟩⟩
  intro frames
  unfold TypeCode.calls
  by_cases short : frames < count
  · rw [if_pos short, if_neg (by omega)]
  · rw [if_neg short, runs]
    by_cases few : needed ≤ frames - count
    · rw [if_pos few, if_pos (by omega)]
    · rw [if_neg few, if_neg (by omega)]

end

theorem digits_settled (s : List Char) : digits s ≠ .error .stack := by
  intro cut
  simp only [digits] at cut
  split at cut
  · cases cut
  · split at cut <;> cases cut

mutual

/-- The frames that it takes to decode a type from its first character on. A type in a block is
decoded with its offset, one call further in. -/
def typeFrames : TypeCode → Nat
  | .primitive _ => 1
  | .unknown _ => 1
  | .object _ _ => 2
  | .block none => 3
  | .block (some ⟨returns, arguments⟩) => max (typeFrames returns + 1) (rowFrames arguments) + 3
  | .pointer none => 1
  | .pointer (some t) => typeFrames t + 1
  | .array none _ => 2
  | .array (some t) _ => typeFrames t + 2
  | .aggregate _ _ none => 2
  | .aggregate _ _ (some members) => memberFrames members + 2
  | .bitfield _ => 2

def rowFrames : List TypeCode → Nat
  | [] => 0
  | t :: ts => max (typeFrames t + 1) (rowFrames ts)

def memberFrames : List (Member TypeCode) → Nat
  | [] => 0
  | ⟨_, t⟩ :: ms => max (typeFrames t) (memberFrames ms)

end

def encodingFrames (t : TypeCode) : Nat := typeFrames t + 2

def signatureFrames (sig : MethodSignature) : Nat := rowFrames (sig.returns :: sig.arguments) + 1

mutual

theorem typeFrames_le : ∀ t : TypeCode, typeFrames t + 1 ≤ 4 * depth t
  | .primitive _ | .unknown _ | .object _ _ | .block none | .pointer none | .array none _
  | .aggregate _ _ none | .bitfield _ => by
    simp only [typeFrames, depth]
    decide
  | .block (some ⟨returns, arguments⟩) => by
    have first := typeFrames_le returns
    have later := rowFrames_le arguments
    rw [typeFrames, depth]
    omega
  | .pointer (some t) | .array (some t) _ => by
    have inside := typeFrames_le t
    simp only [typeFrames, depth]
    omega
  | .aggregate _ _ (some members) => by
    have inside := memberFrames_le members
    rw [typeFrames, depth]
    omega

theorem rowFrames_le : ∀ ts : List TypeCode, rowFrames ts ≤ 4 * depths ts
  | [] => Nat.zero_le _
  | t :: ts => by
    have first := typeFrames_le t
    have later := rowFrames_le ts
    rw [rowFrames, depths]
    omega

theorem memberFrames_le : ∀ ms : List (Member TypeCode), memberFrames ms ≤ 4 * memberDepths ms
  | [] => Nat.zero_le _
  | ⟨_, t⟩ :: ms => by
    have first := typeFrames_le t
    have later := memberFrames_le ms
    rw [memberFrames, memberDepths]
    omega

end

section
variable {bound : Nat} {on : Nat → Step TypeCode} {one : Step TypeCode}

section
variable (each : ∀ s, Takes bound (fun frames => on frames s) (one s) fun n p =>
  n = typeFrames p.value + 1)
include each

theorem blockTypes_takes (opened : Nat) : ∀ s, Takes bound
    (fun frames => blockTypes (on frames) opened s) (blockTypes one opened s)
    fun n p => n = rowFrames p.value
  | [] => by
    simp only [blockTypes]
    exact takes_fail _ _
  | c :: cs => by
    simp only [blockTypes]
    by_cases close : c = '>'
    · simp only [if_pos close]
      exact takes_ok rfl
    · simp only [if_neg close]
      refine (each (c :: cs)).bind fun _ t first => ?_
      refine takes_behind (digits_settled _) fun offset => ?_
      have shorter : offset.rest.length < (c :: cs).length :=
        Nat.lt_of_le_of_lt (Nat.le_of_lt_succ offset.shorter) t.shorter
      refine (blockTypes_takes opened offset.rest).done fun _ more later => takes_ok ?_
      rw [first, later, Nat.max_zero, rowFrames]
termination_by s => s.length
decreasing_by exact shorter

theorem decodeBlock_takes (s : List Char) : Takes bound
    (fun frames => decodeBlock (on frames) s) (decodeBlock one s)
    fun n p => n + 3 = typeFrames p.value := by
  unfold decodeBlock
  split
  · refine (blockTypes_takes each _ _).done fun _ types row => takes_ok ?_
    rw [row, Nat.max_zero]
    cases types.value with
    | nil => rfl
    | cons t ts => rfl
  · exact takes_ok rfl

theorem decodeObject_takes (s : List Char) : Takes bound
    (fun frames => decodeObject (on frames) s) (decodeObject one s)
    fun n p => n + bodyCalls '@' s + 1 = typeFrames p.value := by
  unfold decodeObject
  split
  · refine (decodeBlock_takes each _).done fun _ b block => takes_ok ?_
    rw [Nat.max_zero]
    exact block
  · split
    · exact takes_fail _ _
    · exact takes_ok rfl
  · next unmarked _ =>
    refine takes_ok ?_
    have mark : s.head? ≠ some '?' := by
      intro mark
      obtain ⟨cs, rfl⟩ := List.head?_eq_some_iff.1 mark
      exact unmarked cs rfl
    rw [bodyCalls, if_pos rfl, if_neg mark]
    rfl

end

section
variable (each : ∀ s, Takes bound (fun frames => on frames s) (one s) fun n p =>
  n = typeFrames p.value)
include each

theorem decodeArray_takes (s : List Char) : Takes bound
    (fun frames => decodeArray (on frames) s) (decodeArray one s)
    fun n p => n + 2 = typeFrames p.value := by
  unfold decodeArray
  refine takes_behind (digits_settled s) fun count => ?_
  split
  · exact takes_fail _ _
  · refine (each _).done fun _ t inside => ?_
    dsimp only
    split
    · refine takes_ok ?_
      rw [inside, Nat.max_zero, typeFrames]
    · exact takes_fail _ _

theorem decodeMembers_takes (form : AggregateForm) (opened : Nat) : ∀ s, Takes bound
    (fun frames => decodeMembers (on frames) form opened s) (decodeMembers one form opened s)
    fun n p => n = memberFrames p.value
  | [] => by
    simp only [decodeMembers]
    exact takes_fail _ _
  | c :: cs => by
    simp only [decodeMembers]
    by_cases close : c = form.closeChar
    · simp only [if_pos close]
      exact takes_ok rfl
    · simp only [if_neg close]
      have member : ∀ name : Parsed (Option String) (cs.length + 2), Takes bound
          (fun frames => do
            let t ← on frames name.rest
            let more ← decodeMembers (on frames) form opened t.rest
            return ⟨⟨name.value, t.value⟩ :: more.value, more.rest, by
              have := name.shorter
              have := t.shorter
              have := more.shorter
              simp only [List.length_cons]
              omega⟩)
          (do
            let t ← one name.rest
            let more ← decodeMembers one form opened t.rest
            return (⟨⟨name.value, t.value⟩ :: more.value, more.rest, by
              have := name.shorter
              have := t.shorter
              have := more.shorter
              simp only [List.length_cons]
              omega⟩ : Parsed _ ((c :: cs).length + 1)))
          fun n p => n = memberFrames p.value := fun name => by
        refine (each name.rest).bind fun _ t first => ?_
        have shorter : t.rest.length < (c :: cs).length :=
          Nat.lt_of_lt_of_le t.shorter (Nat.le_of_lt_succ name.shorter)
        refine (decodeMembers_takes form opened t.rest).done fun _ more later => takes_ok ?_
        rw [first, later, Nat.max_zero, memberFrames]
      by_cases quote : c = '"'
      · simp only [if_pos quote]
        split
        · exact takes_fail _ _
        · exact member _
      · simp only [if_neg quote]
        exact member _
termination_by s => s.length
decreasing_by exact shorter

theorem decodeAggregate_takes (form : AggregateForm) (s : List Char) : Takes bound
    (fun frames => decodeAggregate (on frames) form s) (decodeAggregate one form s)
    fun n p => n + 2 = typeFrames p.value := by
  unfold decodeAggregate
  dsimp only
  split
  · exact takes_fail _ _
  · next c rest cut =>
    by_cases close : c = form.closeChar
    · simp only [if_pos close]
      exact takes_ok rfl
    · simp only [if_neg close]
      refine (decodeMembers_takes each form _ rest).done fun _ members inside => takes_ok ?_
      rw [inside, Nat.max_zero, typeFrames]

theorem decodeBody_takes (c : Char) (s : List Char) : Takes (bound + 1)
    (fun frames => decodeBody
      (fun s => calls (partCalls c) (fun left => on left s) frames) c s)
    (decodeBody one c s) fun n p => n + bodyCalls c s + 1 = typeFrames p.value := by
  have part : ∀ s, Takes (bound + 1) (calls (partCalls c) fun left => on left s) (one s)
      fun n p => n = typeFrames p.value + partCalls c := fun s => by
    refine ((each s).calls (partCalls c)).mono (Nat.add_le_add_left ?_ _) ?_
    · rw [partCalls]
      split <;> decide
    · rintro n p ⟨m, rfl, rfl⟩
      rfl
  have plain (other : c ≠ '@') (s : List Char) : Takes (bound + 1)
      (calls (partCalls c) fun left => on left s) (one s) fun n p => n = typeFrames p.value := by
    simpa only [partCalls, if_neg other, Nat.add_zero] using part s
  obtain ⟨f, reader, same⟩ := decodeBody_reader c
  simp only [same]
  cases reader with
  | primitive p =>
    refine takes_ok ?_
    cases p <;> rfl
  | object => exact decodeObject_takes part s
  | pointer =>
    refine (plain (by decide) s).done fun _ t inside => takes_ok ?_
    rw [inside, Nat.max_zero, typeFrames]
    rfl
  | array => exact decodeArray_takes (plain (by decide)) s
  | aggregate form =>
    cases form with
    | struct => exact decodeAggregate_takes (plain (by decide)) .struct s
    | union => exact decodeAggregate_takes (plain (by decide)) .union s
  | bitfield =>
    unfold decodeBitfield
    refine takes_behind (digits_settled s) fun width => ?_
    split
    · exact takes_fail _ _
    · exact takes_ok rfl
  | unknown _ _ other =>
    refine takes_ok ?_
    simp only [List.mem_cons, List.not_mem_nil, or_false, not_or] at other
    simp [bodyCalls, other, typeFrames]

end

theorem qualified_takes {body : Char → (s : List Char) → Result TypeCode s}
    {bodyOn : Nat → Char → (s : List Char) → Result TypeCode s}
    (each : ∀ c s, Takes bound (fun frames => bodyOn frames c s) (body c s) fun n p =>
      n + 1 = typeFrames p.value) (s : List Char) :
    Takes bound (fun frames => qualified (bodyOn frames) s) (qualified body s) fun n p =>
      n + 1 = typeFrames p.value := by
  unfold qualified
  split
  · exact takes_fail _ _
  · refine (each _ _).done fun _ t inside => takes_ok ?_
    rw [Nat.max_zero]
    exact inside

theorem decodeOne_takes (depth : Nat) (s : List Char) : Takes (4 * depth + 1)
    (fun frames => decodeOneOn depth frames s) (decodeOne depth s)
    fun n p => n = typeFrames p.value := by
  induction depth generalizing s with
  | zero =>
    simp only [decodeOneOn, decodeOne]
    exact ((takes_fail _ _ : Takes 0 _ _ fun _ _ => False).calls 1).mono (Nat.le_refl _)
      fun _ _ ⟨_, _, never⟩ => never.elim
  | succ depth ih =>
    have body : ∀ c s, Takes (4 * depth + 4)
        (fun frames => decodeBodyOn (decodeOneOn depth) frames c s)
        (decodeBody (decodeOne depth) c s) fun n p => n + 1 = typeFrames p.value := fun c s => by
      refine ((decodeBody_takes ih c s).calls (bodyCalls c s)).mono ?_ ?_
      · have few : bodyCalls c s ≤ 2 := by
          unfold bodyCalls
          split
          · split <;> decide
          · split <;> decide
        omega
      · rintro n p ⟨m, rfl, told⟩
        exact told
    simp only [decodeOneOn, decodeOne]
    refine ((qualified_takes body s).calls 1).mono (Nat.le_refl _) ?_
    rintro n p ⟨m, rfl, told⟩
    exact told

theorem decodeWithOffset_takes (s : List Char) : Takes 1026
    (fun frames => decodeWithOffsetOn frames s) (decodeWithOffset s)
    fun n p => n = typeFrames p.value + 1 := by
  have inside : Takes 1025 (fun frames => withOffset (decodeOneOn maxDepth frames) s)
      (withOffset (decodeOne maxDepth) s) fun n p => n = typeFrames p.value := by
    unfold withOffset
    refine (decodeOne_takes maxDepth s).bind fun _ t first => ?_
    refine takes_behind (digits_settled _) fun offset => takes_ok ?_
    rw [first, Nat.max_zero]
  refine (inside.calls 1).mono (Nat.le_refl _) ?_
  rintro n p ⟨m, rfl, rfl⟩
  rfl

theorem row_takes (each : ∀ s, Takes bound (fun frames => on frames s) (one s) fun n p =>
    n = typeFrames p.value + 1) : ∀ s, Takes bound
      (fun frames => row (on frames) s) (row one s) fun n ts => n = rowFrames ts
  | [] => by
    simp only [row_nil]
    exact takes_ok rfl
  | c :: cs => by
    simp only [row_cons]
    refine (each (c :: cs)).bind fun _ t first => ?_
    have shorter : t.rest.length < (c :: cs).length := t.shorter
    refine (row_takes each t.rest).done fun _ ts later => takes_ok ?_
    rw [first, later, Nat.max_zero, rowFrames]
termination_by s => s.length
decreasing_by exact shorter

theorem single_takes (s : List Char) : Takes 1026
    (fun frames => single (decodeWithOffsetOn frames) s) (single decodeWithOffset s)
    fun n t => n + 1 = encodingFrames t := by
  unfold single
  refine (decodeWithOffset_takes s).done fun _ t first => ?_
  split
  · refine takes_ok ?_
    rw [first, Nat.max_zero, encodingFrames]
  · exact takes_fail _ _

theorem signature_takes (s : List Char) : Takes 1026
    (fun frames => signature (decodeWithOffsetOn frames) s) (signature decodeWithOffset s)
    fun n sig => n + 1 = signatureFrames sig := by
  unfold signature
  refine (decodeWithOffset_takes s).bind fun _ t first => ?_
  refine (row_takes decodeWithOffset_takes t.rest).done fun _ ts later => takes_ok ?_
  rw [first, later, Nat.max_zero, signatureFrames, rowFrames]

end

section
variable {α : Type} {source : String} {run : Nat → Except Failure α} {x : Except Failure α}
  {told : Nat → α → Prop}

theorem Takes.located {bound : Nat} (takes : Takes bound run x told) :
    located source x ≠ .error (.misuse .stackExhausted) ∧ ∃ needed ≤ bound,
      (∀ frames, located source (run frames) =
        if needed ≤ frames then located source x else .error (.misuse .stackExhausted)) ∧
      ∀ a, located source x = .ok a → told needed a := by
  obtain ⟨settled, needed, within, runs, relates⟩ := takes
  refine ⟨?_, needed, within, fun frames => ?_, fun a value => relates a (located_ok value)⟩
  · match x, settled with
    | .ok _, _ | .error (.encoding _ _), _ | .error (.numeral _), _ => nofun
    | .error .stack, settled => exact absurd rfl settled
  · rw [runs frames]
    split <;> rfl

end

/-- On a number of frames, at most 1027, and on more, the answer is the one that there is with no
end of them; on fewer there is none. -/
theorem decodeOn_eq (source : String) :
    decode source ≠ .error (.misuse .stackExhausted) ∧ ∃ needed ≤ 1027,
      (∀ frames, decodeOn frames source =
        if needed ≤ frames then decode source else .error (.misuse .stackExhausted)) ∧
      ∀ t, decode source = .ok t → needed = encodingFrames t :=
  (((single_takes source.toList).calls 1).mono (Nat.le_refl _)
    fun _ _ ⟨_, same, told⟩ => same.trans told).located

theorem decodeSignatureOn_eq (source : String) :
    decodeSignature source ≠ .error (.misuse .stackExhausted) ∧ ∃ needed ≤ 1027,
      (∀ frames, decodeSignatureOn frames source =
        if needed ≤ frames then decodeSignature source else .error (.misuse .stackExhausted)) ∧
      ∀ sig, decodeSignature source = .ok sig → needed = signatureFrames sig :=
  (((signature_takes source.toList).calls 1).mono (Nat.le_refl _)
    fun _ _ ⟨_, same, told⟩ => same.trans told).located

theorem decodeOn_enough {frames : Nat} (enough : 1027 ≤ frames) (source : String) :
    decodeOn frames source = decode source ∧
      decodeSignatureOn frames source = decodeSignature source := by
  obtain ⟨-, _, within, type, -⟩ := decodeOn_eq source
  obtain ⟨-, _, withinRow, signature, -⟩ := decodeSignatureOn_eq source
  rw [type, signature, if_pos (Nat.le_trans within enough), if_pos (Nat.le_trans withinRow enough)]
  exact ⟨rfl, rfl⟩

end MachImage.TypeCode
