import Mathlib.Data.List.Basic

/-!
Runs of a deterministic system whose steps are picked from outside: `Along`
says that every step of a run meets a condition in the state it is taken in.
What a step that meets the condition preserves, a whole run preserves
(`Along.keeps`).
-/
namespace Runs

section
variable {S A : Type*} (step : S → A → S)

/-- The state after a sequence of actions. -/
def run (s : S) (actions : List A) : S := actions.foldl step s

/-- Every action of a sequence meets the condition in the state it is taken in. -/
def Along (meets : S → A → Prop) : S → List A → Prop
  | _, [] => True
  | s, action :: rest => meets s action ∧ Along meets (step s action) rest

instance Along.decidable (meets : S → A → Prop) [∀ s action, Decidable (meets s action)] :
    ∀ s actions, Decidable (Along step meets s actions)
  | _, [] => isTrue trivial
  | s, action :: rest => @instDecidableAnd _ _ _ (Along.decidable meets (step s action) rest)

variable {step}

@[simp] theorem run_nil (s : S) : run step s [] = s := rfl

@[simp] theorem run_cons (s : S) (action : A) (rest : List A) :
    run step s (action :: rest) = run step (step s action) rest := rfl

theorem run_append (s : S) (before after : List A) :
    run step s (before ++ after) = run step (run step s before) after := by
  simp [run]

variable {meets : S → A → Prop}

theorem along_append {s : S} {before after : List A} :
    Along step meets s (before ++ after) ↔ Along step meets s before ∧ Along step meets (run step s before) after := by
  induction before generalizing s with
  | nil => simp [Along]
  | cons action rest ih => simp [Along,ih,and_assoc]

/-- What a step that meets the condition preserves holds after a run whose
    steps all meet it. -/
theorem Along.keeps {motive : S → Prop} (preserved : ∀ s action, motive s → meets s action → motive (step s action))
    {s : S} {actions : List A} (along : Along step meets s actions) (start : motive s) : motive (run step s actions) := by
  induction actions generalizing s with
  | nil => exact start
  | cons action rest ih => exact ih along.2 (preserved s action start along.1)

/-- What each step that meets the condition does, given what they all preserve. -/
theorem Along.yields {motive : S → Prop} {does : S → A → Prop}
    (preserved : ∀ s action, motive s → meets s action → motive (step s action))
    (yields : ∀ s action, motive s → meets s action → does s action) {s : S} {actions : List A}
    (along : Along step meets s actions) (start : motive s) : Along step does s actions := by
  induction actions generalizing s with
  | nil => trivial
  | cons action rest ih => exact ⟨yields s action start along.1,ih along.2 (preserved s action start along.1)⟩

/-- A condition on the actions alone. -/
theorem along_of_forall {holds : A → Prop} {s : S} {actions : List A} (each : ∀ action ∈ actions, holds action) :
    Along step (fun _ action => holds action) s actions := by
  induction actions generalizing s with
  | nil => trivial
  | cons action rest ih =>
    obtain ⟨first,later⟩ := List.forall_mem_cons.mp each
    exact ⟨first,ih later⟩

/-- What every step preserves holds after every run. -/
theorem run_keeps {motive : S → Prop} (preserved : ∀ s action, motive s → motive (step s action)) {s : S}
    (actions : List A) (start : motive s) : motive (run step s actions) := by
  induction actions generalizing s with
  | nil => exact start
  | cons action rest ih => exact ih (preserved s action start)

end
end Runs
