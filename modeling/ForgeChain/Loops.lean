import Mathlib.Data.Nat.Notation

/-!
Loops whose body goes on from a state or ends with a result. A loop is run for
a number of rounds; that it ends, and with what, is shown with a condition on
the state at the start of every round that fails after a bounded number of them
(`loop_ends`).
-/
namespace Loops

section
variable {S R : Type*} (body : S → S ⊕ R)

def loop : ℕ → S → Option R
  | 0, _ => none
  | rounds+1, s =>
    match body s with
    | .inl next => loop rounds next
    | .inr result => some result

variable {body}

/-- A loop ends with a result that its condition allows, and no number of
    rounds above the bound makes a difference. -/
theorem loop_ends {holds : ℕ → S → Prop} {allowed : R → Prop} {bound : ℕ}
    (bounded : ∀ round s, holds round s → round < bound)
    (goes_on : ∀ round s next, holds round s → body s = .inl next → holds (round + 1) next)
    (ends : ∀ round s result, holds round s → body s = .inr result → allowed result) {s : S} (start : holds 0 s) :
    ∃ result, allowed result ∧ ∀ rounds ≥ bound, loop body rounds s = some result := by
  suffices from_round : ∀ left round s, left + round = bound → holds round s →
      ∃ result, allowed result ∧ ∀ rounds ≥ left, loop body rounds s = some result from
    from_round bound 0 s rfl start
  intro left
  induction left with
  | zero =>
    intro round s reached held
    have := bounded round s held
    omega
  | succ left ih =>
    intro round s reached held
    cases step : body s with
    | inl next =>
      obtain ⟨result,good,runs⟩ := ih (round + 1) next (by omega) (goes_on round s next held step)
      refine ⟨result,good,fun rounds enough => ?_⟩
      obtain ⟨fewer,rfl⟩ := Nat.exists_eq_add_of_le' enough
      rw [← Nat.add_assoc,loop,step]
      exact runs (fewer + left) (by omega)
    | inr result =>
      refine ⟨result,ends round s result held step,fun rounds enough => ?_⟩
      obtain ⟨fewer,rfl⟩ := Nat.exists_eq_add_of_le' enough
      rw [← Nat.add_assoc,loop,step]

end
end Loops
