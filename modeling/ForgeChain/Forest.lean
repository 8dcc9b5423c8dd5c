import Mathlib.Data.Finset.Card
import Mathlib.Logic.Relation

/-!
A depth-first walk over a forest that visits at most a given number of nodes
and collects the ends of the branches. All of them are below the nodes it
starts at (`ends_below`), none comes twice (`nodup_ends`), and every node that
the walk can reach is above or below one (`ends_comparable`). Where the visits
suffice for all nodes, the ends are the nodes without children
(`ends_childless`, `ends_cover`).
-/
namespace Forest

section
variable {A : Type*} (children : A → List A)

/-- The walk with `left` visits to go; the stack has its top first. Whatever is
    on it when no visits are left counts as an end. -/
def ends : Nat → List A → List A → List A
  | _, [], found => found
  | 0, stack, found => found ++ stack
  | left+1, node :: stack, found =>
    match children node with
    | [] => ends left stack (found ++ [node])
    | kids => ends left (kids.reverse ++ stack) found

/-- A node is another one's descendant, or the node itself. -/
def Below : A → A → Prop := Relation.ReflTransGen fun node child => child ∈ children node

/-- The nodes that the walk has not visited yet, among them those on the stack,
    form a forest in which the ones on the stack are roots. -/
structure Pending (unvisited : Finset A) (stack : List A) : Prop where
  nodup : stack.Nodup
  inside : ∀ node ∈ stack, node ∈ unvisited
  roots : ∀ root ∈ stack, ∀ node ∈ unvisited, root ∉ children node
  closed : ∀ node ∈ unvisited, ∀ child ∈ children node, child ∈ unvisited
  unique : ∀ node ∈ unvisited, ∀ other ∈ unvisited, ∀ child ∈ children node, child ∈ children other → node = other
  distinct : ∀ node ∈ unvisited, (children node).Nodup

variable {children} {unvisited : Finset A} {node : A} {stack : List A} {left : Nat}

theorem found_subset_ends : ∀ left stack found, ∀ node ∈ found, node ∈ ends children left stack found := by
  intro left
  induction left with
  | zero =>
    intro stack found node member
    cases stack with
    | nil => exact member
    | cons top stack => exact List.mem_append_left _ member
  | succ left ih =>
    intro stack found node member
    cases stack with
    | nil => exact member
    | cons top stack =>
      rw [ends]
      split
      · exact ih _ _ node (List.mem_append_left _ member)
      · exact ih _ _ node member

/-- Every end is below a node on the stack. -/
theorem ends_below {found : List A} (is_end : node ∈ ends children left stack found) :
    node ∈ found ∨ ∃ root ∈ stack, Below children root node := by
  induction left generalizing stack found with
  | zero =>
    cases stack with
    | nil => exact .inl is_end
    | cons top stack =>
      rcases List.mem_append.mp is_end with old | waiting
      · exact .inl old
      · exact .inr ⟨node,waiting,.refl⟩
  | succ left ih =>
    cases stack with
    | nil => exact .inl is_end
    | cons top stack =>
      rw [ends] at is_end
      split at is_end
      · rcases ih is_end with old | ⟨root,waiting,below⟩
        · rcases List.mem_append.mp old with old | new
          · exact .inl old
          · obtain rfl := List.mem_singleton.mp new
            exact .inr ⟨node,List.mem_cons_self,.refl⟩
        · exact .inr ⟨root,List.mem_cons_of_mem _ waiting,below⟩
      · rcases ih is_end with old | ⟨root,waiting,below⟩
        · exact .inl old
        · rcases List.mem_append.mp waiting with child | waiting
          · exact .inr ⟨top,List.mem_cons_self,.head (List.mem_reverse.mp child) below⟩
          · exact .inr ⟨root,List.mem_cons_of_mem _ waiting,below⟩

/-- Visiting the top of the stack puts its children there. -/
theorem Pending.visit [DecidableEq A] (pending : Pending children unvisited (node :: stack)) :
    Pending children (unvisited.erase node) ((children node).reverse ++ stack) := by
  have here : node ∈ unvisited := pending.inside node (by simp)
  have fresh : ∀ child ∈ children node, child ∉ stack := by
    intro child is_child waiting
    exact pending.roots child (by simp [waiting]) node here is_child
  have other_nodes : ∀ other ∈ unvisited, ∀ child ∈ children other, child ≠ node := by
    rintro other inside child is_child rfl
    exact pending.roots child (by simp) other inside is_child
  have top : node ∉ stack := (List.nodup_cons.mp pending.nodup).1
  refine ⟨?_,?_,?_,?_,?_,?_⟩
  · rw [List.nodup_append']
    refine ⟨List.nodup_reverse.mpr (pending.distinct node here),(List.nodup_cons.mp pending.nodup).2,?_⟩
    intro child is_child
    exact fresh child (List.mem_reverse.mp is_child)
  · intro other member
    rcases List.mem_append.mp member with child | waiting
    · have child := List.mem_reverse.mp child
      exact Finset.mem_erase.mpr ⟨other_nodes node here other child,pending.closed node here other child⟩
    · refine Finset.mem_erase.mpr ⟨?_,pending.inside other (by simp [waiting])⟩
      rintro rfl
      exact top waiting
  · intro root member other inside
    obtain ⟨differs,inside⟩ := Finset.mem_erase.mp inside
    rcases List.mem_append.mp member with child | waiting
    · intro is_child
      exact differs (pending.unique other inside node here root is_child (List.mem_reverse.mp child))
    · exact pending.roots root (by simp [waiting]) other inside
  · intro other inside child is_child
    have inside := Finset.mem_of_mem_erase inside
    exact Finset.mem_erase.mpr ⟨other_nodes other inside child is_child,pending.closed other inside child is_child⟩
  · intro one first two second
    exact pending.unique one (Finset.mem_of_mem_erase first) two (Finset.mem_of_mem_erase second)
  · intro other inside
    exact pending.distinct other (Finset.mem_of_mem_erase inside)

/-- However few the visits are, every node on the stack has an end below it. -/
theorem ends_root {root : A} (on_stack : root ∈ stack) (found : List A) :
    ∃ last ∈ ends children left stack found, Below children root last := by
  induction left generalizing stack found root with
  | zero =>
    cases stack with
    | nil => cases on_stack
    | cons top stack => exact ⟨root,List.mem_append_right _ on_stack,.refl⟩
  | succ left ih =>
    cases stack with
    | nil => cases on_stack
    | cons top stack =>
      rw [ends]
      split
      · rcases List.mem_cons.mp on_stack with rfl | waiting
        · exact ⟨root,found_subset_ends left stack _ root (by simp),.refl⟩
        · exact ih waiting _
      · rename_i some_child
        rcases List.mem_cons.mp on_stack with rfl | waiting
        · obtain ⟨child,is_child⟩ := List.exists_mem_of_ne_nil _ some_child
          obtain ⟨last,is_end,below⟩ := ih (List.mem_append_left _ (List.mem_reverse.mpr is_child)) found
          exact ⟨last,is_end,.head is_child below⟩
        · exact ih (List.mem_append_right _ waiting) found

/-- However few the visits are, every node below the stack is on a line with an
    end: it was visited and has one below it, or the walk did not get to it. -/
theorem ends_comparable {root : A} (on_stack : root ∈ stack) (below : Below children root node) (found : List A) :
    ∃ last ∈ ends children left stack found, Below children node last ∨ Below children last node := by
  induction left generalizing stack found root with
  | zero =>
    cases stack with
    | nil => cases on_stack
    | cons top stack => exact ⟨root,List.mem_append_right _ on_stack,.inr below⟩
  | succ left ih =>
    rcases Relation.ReflTransGen.cases_head below with rfl | ⟨child,is_child,rest⟩
    · obtain ⟨last,is_end,under⟩ := ends_root on_stack found
      exact ⟨last,is_end,.inl under⟩
    · cases stack with
      | nil => cases on_stack
      | cons top stack =>
        rw [ends]
        rcases List.mem_cons.mp on_stack with rfl | waiting
        · split
          · rename_i childless
            rw [childless] at is_child
            cases is_child
          · exact ih (List.mem_append_left _ (List.mem_reverse.mpr is_child)) rest found
        · split
          · exact ih waiting below _
          · exact ih (List.mem_append_right _ waiting) below found

/-- No end is found twice. -/
theorem nodup_ends [DecidableEq A] {found : List A} (pending : Pending children unvisited stack) (once : found.Nodup)
    (done : ∀ node ∈ found, node ∉ unvisited) : (ends children left stack found).Nodup := by
  induction left generalizing unvisited stack found with
  | zero =>
    cases stack with
    | nil => exact once
    | cons top stack =>
      exact once.append pending.nodup fun node old waiting => done node old (pending.inside node waiting)
  | succ left ih =>
    cases stack with
    | nil => exact once
    | cons top stack =>
      have here : top ∈ unvisited := pending.inside top (by simp)
      have visited := pending.visit
      rw [ends]
      split
      · rename_i childless
        rw [childless,List.reverse_nil,List.nil_append] at visited
        refine ih visited (once.append (List.nodup_singleton top) ?_) fun node member => ?_
        · exact List.disjoint_singleton.mpr fun old => done top old here
        · rcases List.mem_append.mp member with old | new
          · exact fun inside => done node old (Finset.mem_of_mem_erase inside)
          · rw [List.mem_singleton.mp new]
            exact Finset.notMem_erase top unvisited
      · exact ih visited once fun node old inside => done node old (Finset.mem_of_mem_erase inside)

/-- Where the visits suffice for all nodes, the ends have no children. -/
theorem ends_childless [DecidableEq A] {found : List A} (pending : Pending children unvisited stack)
    (enough : unvisited.card ≤ left) (childless : ∀ node ∈ found, children node = [])
    (is_end : node ∈ ends children left stack found) : children node = [] := by
  induction left generalizing unvisited stack found with
  | zero =>
    cases stack with
    | nil => exact childless node is_end
    | cons top stack =>
      have here := pending.inside top (by simp)
      rw [Nat.le_zero,Finset.card_eq_zero] at enough
      simp [enough] at here
  | succ left ih =>
    cases stack with
    | nil => exact childless node is_end
    | cons top stack =>
      have fewer : (unvisited.erase top).card ≤ left := by
        rw [Finset.card_erase_of_mem (pending.inside top (by simp))]
        omega
      have visited := pending.visit
      rw [ends] at is_end
      split at is_end
      · rename_i none
        rw [none,List.reverse_nil,List.nil_append] at visited
        refine ih visited fewer (fun other member => ?_) is_end
        rcases List.mem_append.mp member with old | new
        · exact childless other old
        · rwa [List.mem_singleton.mp new]
      · exact ih visited fewer childless is_end

/-- Then every node below the stack has an end of a branch below it. -/
theorem ends_cover [DecidableEq A] (pending : Pending children unvisited stack) (enough : unvisited.card ≤ left)
    {root : A} (on_stack : root ∈ stack) (below : Below children root node) :
    ∃ last ∈ ends children left stack [], Below children node last := by
  obtain ⟨last,is_end,under | above⟩ := ends_comparable on_stack below []
  · exact ⟨last,is_end,under⟩
  · -- An end without children has nothing below it but itself.
    have childless := ends_childless pending enough (by simp) is_end
    rcases Relation.ReflTransGen.cases_head above with rfl | ⟨child,is_child,-⟩
    · exact ⟨last,is_end,.refl⟩
    · rw [childless] at is_child
      cases is_child

end
end Forest
