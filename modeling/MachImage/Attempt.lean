import MachImage.Fault
/-!
Reading on after a fault. Damaged input is expected to stop single readings: `attempt` steps over
such a fault and passes on any other, `report` keeps it as an answer, and `gather` attempts one
reading after the other. A reading is tame when damaged input is all that can stop it, and sure
when nothing can; to attempt what is tame is sure, and to report it.
-/
namespace MachImage

/-- Whether input can be the cause. The other faults lie with the question that was asked. -/
def Fault.isExpected : Fault → Bool
  | .misuse _ | .repetition | .zeroDivisor | .notAWord _ => false
  | .format _ | .corrupt _ | .outOfBounds .. | .unterminated _ | .unmapped _ | .noRuntimeData
  | .noConstantData | .missing _ | .opcode .. | .unsignedLeb _ | .signedLeb _ | .trieNode _
  | .exportInfo _ | .encoding .. => true

def attempt {α : Type} : Except Fault α → Except Fault (Option α)
  | .ok a => .ok (some a)
  | .error e => if e.isExpected then .ok none else .error e

def report {α : Type} : Except Fault α → Except Fault (Except Fault α)
  | .ok a => .ok (.ok a)
  | .error e => if e.isExpected then .ok (.error e) else .error e

def gather {α β : Type} (read : α → Except Fault (Option β)) (places : List α) :
    Except Fault (List β) :=
  places.filterMapM fun a => do return (← attempt (read a)).join

structure Tame {α : Type} (x : Except Fault α) : Prop where
  expected : ∀ e, x = .error e → e.isExpected = true

section
variable {α β : Type}

@[simp] theorem ok_bind {ε : Type} (a : α) (f : α → Except ε β) : (.ok a >>= f) = f a := rfl

theorem of_bind_ok {ε : Type} {x : Except ε α} {f : α → Except ε β} {b : β}
    (run : (x >>= f) = .ok b) : ∃ a, x = .ok a ∧ f a = .ok b := by
  cases x with
  | error e => cases run
  | ok a => exact ⟨a, rfl, run⟩

theorem of_bind_error {ε : Type} {x : Except ε α} {f : α → Except ε β} {e : ε}
    (run : (x >>= f) = .error e) : x = .error e ∨ ∃ a, x = .ok a ∧ f a = .error e := by
  cases x with
  | error e' => exact .inl (congrArg Except.error (Except.error.inj run))
  | ok a => exact .inr ⟨a, rfl, run⟩

theorem of_toOption_some {x : Except Fault α} {a : α} (h : x.toOption = some a) : x = .ok a := by
  cases x with
  | error e => cases h
  | ok b => exact congrArg Except.ok (Option.some.inj h)

theorem toOption_eq_some_iff {x : Except Fault α} {a : α} : x.toOption = some a ↔ x = .ok a := by
  constructor
  · exact of_toOption_some
  · rintro rfl
    rfl

theorem tame_ok (a : α) : Tame (.ok a : Except Fault α) :=
  ⟨fun _ h => by cases h⟩

theorem tame_error {e : Fault} (expected : e.isExpected = true) :
    Tame (.error e : Except Fault α) :=
  ⟨fun _ h => by cases h; exact expected⟩

theorem Tame.bind {x : Except Fault α} {f : α → Except Fault β} (first : Tame x)
    (next : ∀ a, x = .ok a → Tame (f a)) : Tame (x >>= f) := by
  cases x with
  | error e => exact tame_error (first.expected e rfl)
  | ok a => exact next a rfl

theorem Tame.map {x : Except Fault α} (h : Tame x) (f : α → β) : Tame (x.map f) := by
  cases x with
  | error e => exact tame_error (h.expected e rfl)
  | ok a => exact tame_ok (f a)

def Sure (x : Except Fault α) : Prop := ∃ a, x = .ok a

theorem sure_ok (a : α) : Sure (.ok a : Except Fault α) := ⟨a, rfl⟩

theorem Sure.bind {x : Except Fault α} {f : α → Except Fault β} (first : Sure x)
    (next : ∀ a, x = .ok a → Sure (f a)) : Sure (x >>= f) := by
  obtain ⟨a, rfl⟩ := first
  exact next a rfl

theorem Sure.tame {x : Except Fault α} (h : Sure x) : Tame x := by
  obtain ⟨a, rfl⟩ := h
  exact tame_ok a

theorem mapM_of_ok {f : α → Except Fault β} {g : α → β} {places : List α}
    (h : ∀ a ∈ places, f a = .ok (g a)) : places.mapM f = .ok (places.map g) := by
  induction places with
  | nil => rfl
  | cons a places ih =>
    rw [List.mapM_cons, h a List.mem_cons_self,
      ih fun b member => h b (List.mem_cons_of_mem _ member)]
    rfl

theorem mapM_mono {places : List α} {f g : α → Except Fault β} {bs : List β}
    (each : ∀ a b, f a = .ok b → g a = .ok b) (read : places.mapM f = .ok bs) :
    places.mapM g = .ok bs := by
  induction places generalizing bs with
  | nil => exact read
  | cons a places ih =>
    rw [List.mapM_cons] at read ⊢
    obtain ⟨b, first, read⟩ := of_bind_ok read
    obtain ⟨rest, later, read⟩ := of_bind_ok read
    rw [each a b first, ok_bind, ih later, ok_bind]
    exact read

theorem sure_mapM {f : α → Except Fault β} {places : List α} (h : ∀ a ∈ places, Sure (f a)) :
    Sure (places.mapM f) := by
  induction places with
  | nil => exact sure_ok []
  | cons a places ih =>
    rw [List.mapM_cons]
    apply (h a List.mem_cons_self).bind
    intro b _
    exact (ih fun c member => h c (List.mem_cons_of_mem _ member)).bind fun bs _ => sure_ok _

theorem of_attempt_ok {x : Except Fault α} {a : α} (run : attempt x = .ok (some a)) :
    x = .ok a := by
  cases x with
  | ok b =>
    cases run
    rfl
  | error e =>
    rw [attempt] at run
    split at run
    · cases run
    · cases run

theorem attempt_of_tame {x : Except Fault α} (h : Tame x) : attempt x = .ok x.toOption := by
  cases x with
  | error e => simp [attempt, h.expected e rfl, Except.toOption]
  | ok a => rfl

theorem report_of_tame {x : Except Fault α} (h : Tame x) : report x = .ok x := by
  cases x with
  | error e => simp [report, h.expected e rfl]
  | ok a => rfl

theorem attempt_sure {x : Except Fault α} (h : Tame x) : Sure (attempt x) :=
  ⟨_, attempt_of_tame h⟩

theorem gather_cons (read : α → Except Fault (Option β)) (a : α) (places : List α) :
    gather read (a :: places) = (do
      let found ← attempt (read a)
      let rest ← gather read places
      return found.join.toList ++ rest) := by
  rw [gather, List.filterMapM_cons, bind_assoc]
  cases attempt (read a) with
  | error e => rfl
  | ok found =>
    rcases found with _ | _ | b
    · exact (bind_pure _).symm
    · exact (bind_pure _).symm
    · rfl

theorem gather_map {γ : Type} (read : β → Except Fault (Option γ)) (f : α → β)
    (places : List α) : gather read (places.map f) = gather (fun a => read (f a)) places := by
  induction places with
  | nil => rfl
  | cons a places ih => rw [List.map_cons, gather_cons, gather_cons, ih]

theorem gather_of_tame {read : α → Except Fault (Option β)} {places : List α}
    (h : ∀ a ∈ places, Tame (read a)) :
    gather read places = .ok (places.filterMap fun a => (read a).toOption.join) := by
  unfold gather
  induction places with
  | nil => rfl
  | cons a places ih =>
    rw [List.filterMapM_cons, attempt_of_tame (h a List.mem_cons_self),
      ih fun b member => h b (List.mem_cons_of_mem _ member)]
    cases found : (read a).toOption.join <;> simp [found, pure, Except.pure, bind, Except.bind]

theorem gather_sure {read : α → Except Fault (Option β)} {places : List α}
    (h : ∀ a ∈ places, Tame (read a)) : Sure (gather read places) :=
  ⟨_, gather_of_tame h⟩

end
end MachImage
