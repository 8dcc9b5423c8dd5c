import Mathlib.Data.List.TakeWhile

/-!
The words of a text, with any number of blanks between them: the next word and
what follows it (`next_eq_some_iff`), and all the words in turn. A text with a
blank after each word has just these words (`all_each`).
-/
namespace Words
variable {α : Type*} {blank : α → Bool}

/-- Not empty and without blanks. -/
structure Solid (blank : α → Bool) (word : List α) : Prop where
  given : word ≠ []
  solid : ∀ c ∈ word, blank c = false

/-- The next word and what follows it, if there is one. -/
def next (blank : α → Bool) (text : List α) : Option (List α × List α) :=
  match text.dropWhile blank with
  | [] => none
  | c :: rest => some ((c :: rest).takeWhile (!blank ·),(c :: rest).dropWhile (!blank ·))

theorem next_eq_none_iff {text : List α} : next blank text = none ↔ ∀ c ∈ text, blank c = true := by
  rw [← List.dropWhile_eq_nil_iff,next]
  cases text.dropWhile blank <;> simp

/-- A word stands after blanks and before a blank or the end. -/
theorem next_eq_some_iff {text word rest : List α} :
    next blank text = some (word,rest) ↔ ∃ blanks, text = blanks ++ word ++ rest ∧
      (∀ c ∈ blanks, blank c = true) ∧ Solid blank word ∧ ∀ c ∈ rest.head?, blank c = true := by
  constructor
  · intro found
    have split := List.takeWhile_append_dropWhile (p := blank) (l := text)
    rw [next] at found
    rcases front : text.dropWhile blank with _ | ⟨c,after⟩
    · rw [front] at found
      cases found
    · rw [front] at found split
      obtain ⟨rfl,rfl⟩ := Prod.mk.inj (Option.some.inj found)
      have first : blank c = false := by
        have stops := List.head?_dropWhile_not blank text
        rwa [front] at stops
      refine ⟨text.takeWhile blank,?_,fun c member => List.mem_takeWhile_imp member,⟨?_,?_⟩,?_⟩
      · rw [List.append_assoc,List.takeWhile_append_dropWhile,split]
      · simp [first]
      · intro c member
        simpa using List.mem_takeWhile_imp member
      · intro c' member
        have stops := List.head?_dropWhile_not (!blank ·) (c :: after)
        rw [Option.mem_def] at member
        rw [member] at stops
        simpa using stops
  · rintro ⟨blanks,rfl,blanks_blank,word_solid,ends⟩
    obtain ⟨c,more,rfl⟩ := List.exists_cons_of_ne_nil word_solid.given
    have first : blank c = false := word_solid.solid c (by simp)
    have inside : ∀ c' ∈ c :: more, (!blank c') = true := fun c' member => by simp [word_solid.solid c' member]
    have front : (blanks ++ c :: more ++ rest).dropWhile blank = c :: (more ++ rest) := by
      rw [List.append_assoc,List.dropWhile_append_of_pos blanks_blank]
      simp [first]
    rw [next,front]
    show some ((c :: more ++ rest).takeWhile _,(c :: more ++ rest).dropWhile _) = _
    rw [List.takeWhile_append_of_pos inside,List.dropWhile_append_of_pos inside]
    cases rest with
    | nil => simp
    | cons c' rest => simp [ends c' (by simp)]

theorem length_next {text word rest : List α} (found : next blank text = some (word,rest)) :
    rest.length < text.length := by
  obtain ⟨blanks,rfl,-,solid,-⟩ := next_eq_some_iff.mp found
  have := List.length_pos_iff.mpr solid.given
  simp only [List.length_append]
  omega

/-- All words in turn. -/
def all (blank : α → Bool) (text : List α) : List (List α) :=
  match _found : next blank text with
  | none => []
  | some (word,rest) => word :: all blank rest
termination_by text.length
decreasing_by exact length_next ‹_›

theorem all_none {text : List α} (nothing : next blank text = none) : all blank text = [] := by
  rw [all]
  split
  · rfl
  · case h_2 found => cases nothing.symm.trans found

theorem all_some {text word rest : List α} (found : next blank text = some (word,rest)) :
    all blank text = word :: all blank rest := by
  rw [all]
  split
  · case h_1 nothing => cases nothing.symm.trans found
  · case h_2 found' =>
    cases found.symm.trans found'
    rfl

/-- Words with a blank after each of them. -/
theorem all_each {pieces : List (List α × α)} (proper : ∀ piece ∈ pieces, Solid blank piece.1 ∧ blank piece.2 = true) :
    all blank (pieces.flatMap fun piece => piece.1 ++ [piece.2]) = pieces.map Prod.fst := by
  -- The blank after a word is in front of the next one, or last.
  have led : ∀ blanks, (∀ c ∈ blanks, blank c = true) →
      all blank (blanks ++ pieces.flatMap fun piece => piece.1 ++ [piece.2]) = pieces.map Prod.fst := by
    induction pieces with
    | nil =>
      intro blanks only
      exact all_none (next_eq_none_iff.mpr (by simpa using only))
    | cons piece pieces ih =>
      intro blanks only
      obtain ⟨⟨solid,ends⟩,rest⟩ := List.forall_mem_cons.mp proper
      have found : next blank (blanks ++ (piece :: pieces).flatMap fun piece => piece.1 ++ [piece.2]) =
          some (piece.1,[piece.2] ++ pieces.flatMap fun piece => piece.1 ++ [piece.2]) :=
        next_eq_some_iff.mpr ⟨blanks,by simp,only,solid,by simp [ends]⟩
      rw [all_some found,ih rest [piece.2] (by simpa using ends),List.map_cons]
  exact led [] (by simp)

end Words
