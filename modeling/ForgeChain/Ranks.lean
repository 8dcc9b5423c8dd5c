import Mathlib.Data.List.Sort

/-!
The element that has a given rank in a list, that is, its place after sorting.
Whether this element is in an upper part of the order is a matter of counting:
it is where enough elements of the list are (`Upper.sorted_iff`), so nothing has to
be known of where sorting moves them.
-/
namespace Ranks

section
variable {α : Type*} {r : α → α → Prop} {upper : α → Bool}

/-- A part of an order that contains, with an element, everything above it. -/
def Upper (r : α → α → Prop) (upper : α → Bool) : Prop :=
  ∀ low high, r low high → upper low = true → upper high = true

/-- In a list in order the elements of an upper part come last. -/
theorem Upper.getElem_iff (closed : Upper r upper) {items : List α} (sorted : items.Pairwise r) {rank : Nat}
    (inside : rank < items.length) : upper items[rank] = true ↔ items.length - rank ≤ items.countP upper := by
  induction items generalizing rank with
  | nil => cases inside
  | cons first rest ih =>
    obtain ⟨above,sorted⟩ := List.pairwise_cons.mp sorted
    by_cases low : upper first = true
    · have all : ∀ item ∈ rest, upper item = true := fun item member => closed first item (above item member) low
      have counted : rest.countP upper = rest.length := List.countP_eq_length.mpr all
      have here : upper (first :: rest)[rank] = true := by
        rcases List.mem_cons.mp (List.getElem_mem inside) with same | later
        · rw [same]
          exact low
        · exact all _ later
      simp only [here,true_iff,List.countP_cons_of_pos low,counted,List.length_cons]
      omega
    · rw [List.countP_cons_of_neg low]
      cases rank with
      | zero =>
        have := List.countP_le_length (p := upper) (l := rest)
        simp only [List.getElem_cons_zero,low,Bool.false_eq_true,false_iff,List.length_cons]
        omega
      | succ rank =>
        rw [List.getElem_cons_succ,ih sorted (by simpa using inside),List.length_cons,Nat.add_sub_add_right]

variable [DecidableRel r] [Std.Total r] [IsTrans α r]

/-- The element of a rank is in an upper part exactly where no more elements
    are below that part than the rank says. -/
theorem Upper.sorted_iff (closed : Upper r upper) {items : List α} {rank : Nat}
    (inside : rank < (items.insertionSort r).length) :
    upper (items.insertionSort r)[rank] = true ↔ items.length - rank ≤ items.countP upper := by
  rw [closed.getElem_iff (List.pairwise_insertionSort r items) inside,
    (List.perm_insertionSort r items).countP_eq,List.length_insertionSort]

end
end Ranks
