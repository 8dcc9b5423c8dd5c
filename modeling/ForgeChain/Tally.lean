import Mathlib.Algebra.BigOperators.Group.List.Basic
import Mathlib.Algebra.Group.Pi.Basic
import Mathlib.Algebra.Group.Prod

/-!
Moves that a machine accepts or refuses, tried one after another. Where a
refused move changes nothing and an accepted one adds its effect to a measure
of the state, the measure after any sequence of moves is the measure before it
and the effects of the accepted ones (`Measured.play`), whatever their order
was.
-/
namespace Tally

section
variable {S M : Type*} (move : S → M → Bool × S)

/-- The state after trying every move in turn. -/
def play : S → List M → S
  | s, [] => s
  | s, x :: xs => play (move s x).2 xs

/-- The moves that are accepted, trying every move in turn. -/
def accepted : S → List M → List M
  | _, [] => []
  | s, x :: xs => if (move s x).1 then x :: accepted (move s x).2 xs else accepted (move s x).2 xs

/-- The moves that are refused, trying every move in turn. -/
def refused : S → List M → List M
  | _, [] => []
  | s, x :: xs => if (move s x).1 then refused (move s x).2 xs else x :: refused (move s x).2 xs

/-- Every move is accepted, trying every move in turn. -/
def AllAccepted : S → List M → Prop
  | _, [] => True
  | s, x :: xs => (move s x).1 = true ∧ AllAccepted (move s x).2 xs

instance AllAccepted.decidable : ∀ s xs, Decidable (AllAccepted move s xs)
  | _, [] => isTrue trivial
  | s, x :: xs => @instDecidableAnd _ _ _ (AllAccepted.decidable (move s x).2 xs)

variable {move}

theorem play_append (s : S) (xs ys : List M) : play move s (xs ++ ys) = play move (play move s xs) ys := by
  induction xs generalizing s with
  | nil => rfl
  | cons x xs ih => exact ih _

theorem allAccepted_append (s : S) (xs ys : List M) :
    AllAccepted move s (xs ++ ys) ↔ AllAccepted move s xs ∧ AllAccepted move (play move s xs) ys := by
  induction xs generalizing s with
  | nil => simp [AllAccepted,play]
  | cons x xs ih => simp [AllAccepted,play,ih,and_assoc]

theorem accepted_sublist (s : S) (xs : List M) : (accepted move s xs).Sublist xs := by
  induction xs generalizing s with
  | nil => exact .slnil
  | cons x xs ih =>
    rw [accepted]
    split
    · exact (ih _).cons_cons x
    · exact (ih _).cons x

theorem refused_sublist (s : S) (xs : List M) : (refused move s xs).Sublist xs := by
  induction xs generalizing s with
  | nil => exact .slnil
  | cons x xs ih =>
    rw [refused]
    split
    · exact (ih _).cons x
    · exact (ih _).cons_cons x

/-- A refused move was refused behind the moves before it. -/
theorem exists_of_mem_refused {s : S} {xs : List M} {x : M} (member : x ∈ refused move s xs) :
    ∃ before after, xs = before ++ x :: after ∧ (move (play move s before) x).1 = false := by
  induction xs generalizing s with
  | nil => cases member
  | cons y ys ih =>
    have later : x ∈ refused move (move s y).2 ys →
        ∃ before after, y :: ys = before ++ x :: after ∧ (move (play move s before) x).1 = false := by
      intro inside
      obtain ⟨before,after,rfl,verdict⟩ := ih inside
      exact ⟨y :: before,after,rfl,verdict⟩
    rw [refused] at member
    split at member
    · exact later member
    · case isFalse refuses =>
      rcases List.mem_cons.mp member with rfl | inside
      · exact ⟨[],ys,rfl,Bool.eq_false_iff.mpr refuses⟩
      · exact later inside

theorem accepted_eq {s : S} {xs : List M} (all : AllAccepted move s xs) : accepted move s xs = xs := by
  induction xs generalizing s with
  | nil => rfl
  | cons x xs ih => rw [accepted,if_pos all.1,ih all.2]

theorem allAccepted_of_refused {s : S} {xs : List M} (nothing : refused move s xs = []) : AllAccepted move s xs := by
  induction xs generalizing s with
  | nil => trivial
  | cons x xs ih =>
    rw [refused] at nothing
    split at nothing
    · case isTrue accepts => exact ⟨accepts,ih nothing⟩
    · cases nothing

/-- Where a refused move changes nothing, some move is accepted exactly where one
    is accepted in the state at the start. -/
theorem accepted_ne_nil_iff (refused : ∀ s x, (move s x).1 = false → (move s x).2 = s) (s : S) (xs : List M) :
    accepted move s xs ≠ [] ↔ ∃ x ∈ xs, (move s x).1 = true := by
  induction xs with
  | nil => simp [accepted]
  | cons x xs ih =>
    rw [accepted]
    split
    · case isTrue accepts => simp [accepts]
    · case isFalse refuses =>
      rw [refused s x (Bool.eq_false_iff.mpr refuses),ih]
      simp [refuses]

/-- Where a refused move changes nothing, the accepted ones are accepted without
    the others. -/
theorem allAccepted_accepted (refused : ∀ s x, (move s x).1 = false → (move s x).2 = s) (s : S) (xs : List M) :
    AllAccepted move s (accepted move s xs) := by
  induction xs generalizing s with
  | nil => trivial
  | cons x xs ih =>
    rw [accepted]
    split
    · case isTrue accepts => exact ⟨accepts,ih _⟩
    · case isFalse refuses =>
      rw [refused s x (Bool.eq_false_iff.mpr refuses)]
      exact ih s

end

section
variable {S M G : Type*} [AddCommGroup G]

/-- Refused moves change nothing and accepted ones add their effect. -/
structure Measured (move : S → M → Bool × S) (measure : S → G) (effect : M → G) : Prop where
  refused : ∀ s x, (move s x).1 = false → (move s x).2 = s
  accepted : ∀ s x, (move s x).1 = true → measure (move s x).2 = measure s + effect x

/-- The effect of a sequence of moves. -/
def total (effect : M → G) (xs : List M) : G := (xs.map effect).sum

@[simp] theorem total_nil (effect : M → G) : total effect [] = 0 := rfl

@[simp] theorem total_cons (effect : M → G) (x : M) (xs : List M) :
    total effect (x :: xs) = effect x + total effect xs := by
  simp [total]

theorem total_neg (effect : M → G) (xs : List M) : total (fun x => -effect x) xs = -total effect xs := by
  induction xs with
  | nil => simp
  | cons x xs ih => rw [total_cons,total_cons,ih,neg_add]

theorem total_reverse (effect : M → G) (xs : List M) : total effect xs.reverse = total effect xs := by
  rw [total,List.map_reverse,List.sum_reverse,total]

theorem total_accepted_add_refused (move : S → M → Bool × S) (effect : M → G) (s : S) (xs : List M) :
    total effect (accepted move s xs) + total effect (refused move s xs) = total effect xs := by
  induction xs generalizing s with
  | nil => simp [accepted,refused]
  | cons x xs ih =>
    rw [accepted,refused,total_cons,← ih (move s x).2]
    split
    · rw [total_cons,add_assoc]
    · rw [total_cons,add_left_comm]

theorem Measured.play {move : S → M → Bool × S} {measure : S → G} {effect : M → G}
    (measured : Measured move measure effect) (s : S) (xs : List M) :
    measure (Tally.play move s xs) = measure s + total effect (Tally.accepted move s xs) := by
  induction xs generalizing s with
  | nil => simp [Tally.play,Tally.accepted]
  | cons x xs ih =>
    rw [Tally.play,Tally.accepted,ih]
    cases verdict : (move s x).1 with
    | false => simp [measured.refused s x verdict]
    | true => simp [measured.accepted s x verdict,add_assoc]

end
end Tally
