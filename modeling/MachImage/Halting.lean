import MachImage.Attempt
/-!
Steps that work on a state and may halt. What a step did to the state before it halted stays done,
whether or not the halt is caught.
-/
namespace MachImage

abbrev Halting (σ ε α : Type) := ExceptT ε (StateM σ) α

namespace Halting
variable {σ ε α β : Type}

def outcome (step : Halting σ ε α) (s : σ) : Except ε α × σ := step.run.run s

def ofResult (x : Except ε α) : Halting σ ε α := ExceptT.mk (pure x)

/-- Catches the faults that damaged input causes. -/
def attempted (step : Halting σ Fault α) : Halting σ Fault (Option α) := ExceptT.mk fun s =>
  let (ending, after) := step.outcome s
  (attempt ending, after)

@[simp] theorem outcome_pure (a : α) (s : σ) :
    (pure a : Halting σ ε α).outcome s = (.ok a, s) := rfl

@[simp] theorem outcome_get (s : σ) : (get : Halting σ ε σ).outcome s = (.ok s, s) := rfl

@[simp] theorem outcome_modify (f : σ → σ) (s : σ) :
    (modify f : Halting σ ε Unit).outcome s = (.ok (), f s) := rfl

@[simp] theorem outcome_ofResult (x : Except ε α) (s : σ) : (ofResult x).outcome s = (x, s) := rfl

@[simp] theorem outcome_attempted (step : Halting σ Fault α) (s : σ) :
    step.attempted.outcome s = (attempt (step.outcome s).1, (step.outcome s).2) := rfl

theorem outcome_bind (step : Halting σ ε α) (next : α → Halting σ ε β) (s : σ) :
    (step >>= next).outcome s =
      match step.outcome s with
      | (.ok a, after) => (next a).outcome after
      | (.error e, after) => (.error e, after) := by
  change (ExceptT.bindCont next (step.outcome s).1).run (step.outcome s).2 = _
  rcases step.outcome s with ⟨e | a, after⟩ <;> rfl

section
variable {step : Halting σ ε α} {next : α → Halting σ ε β} {s after : σ}

theorem bind_of_ok {a : α} (first : step.outcome s = (.ok a, after)) :
    (step >>= next).outcome s = (next a).outcome after := by
  rw [outcome_bind, first]

theorem of_bind_returns {b : β} (run : (step >>= next).outcome s = (.ok b, after)) :
    ∃ a t, step.outcome s = (.ok a, t) ∧ (next a).outcome t = (.ok b, after) := by
  rw [outcome_bind] at run
  rcases first : step.outcome s with ⟨e | a, t⟩
  · rw [first] at run
    cases run
  · rw [first] at run
    exact ⟨a, t, rfl, run⟩

theorem of_bind_halts {e : ε} (run : (step >>= next).outcome s = (.error e, after)) :
    step.outcome s = (.error e, after) ∨
      ∃ a t, step.outcome s = (.ok a, t) ∧ (next a).outcome t = (.error e, after) := by
  rw [outcome_bind] at run
  rcases first : step.outcome s with ⟨e' | a, t⟩
  · rw [first] at run
    cases run
    exact .inl rfl
  · rw [first] at run
    exact .inr ⟨a, t, rfl, run⟩

end

theorem of_modify {f : σ → σ} {next : Unit → Halting σ ε β} {s : σ} {out : Except ε β × σ}
    (run : (modify f >>= next).outcome s = out) : (next ()).outcome (f s) = out := run

/-- A walk over a list, by what holds after some of its elements and before the others. -/
theorem outcome_forM {step : α → Halting σ ε Unit} {places : List α}
    (holds : List α → List α → σ → Prop)
    (each : ∀ done a rest s, holds done (a :: rest) s →
      ∃ after, (step a).outcome s = (.ok (), after) ∧ holds (done ++ [a]) rest after)
    {s : σ} (start : holds [] places s) :
    ∃ after, (forM places step).outcome s = (.ok (), after) ∧ holds places [] after := by
  suffices onward : ∀ rest done s, holds done rest s →
      ∃ after, (forM rest step).outcome s = (.ok (), after) ∧ holds (done ++ rest) [] after from
    onward places [] s start
  intro rest
  induction rest with
  | nil => exact fun done s held => ⟨s, rfl, by rwa [List.append_nil]⟩
  | cons a rest ih =>
    intro done s held
    obtain ⟨t, first, held⟩ := each done a rest s held
    obtain ⟨after, others, last⟩ := ih _ t held
    refine ⟨after, ?_, by rwa [List.append_assoc] at last⟩
    rw [List.forM_cons, bind_of_ok first]
    exact others

end Halting
end MachImage
