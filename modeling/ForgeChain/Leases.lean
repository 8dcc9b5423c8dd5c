import ForgeChain.Runs
import Mathlib.Data.List.Flatten

/-!
One place that is leased to one party after another. While a lease is open,
items are put into it; it ends when the items are handed on or dropped. Leases
are numbered in the order they are opened, and a drop names the lease on whose
account it is made. Whatever the order of the steps, the items of a lease are
handed on or dropped as a whole and at most once (`settled_run`). A lease is
dropped on the account of another exactly if some drop comes while another's
items are there (`own_run_iff`).
-/
namespace Leases
open Runs

variable {α : Type*}

inductive Event (α : Type*) where
  | put (lease : Nat) (item : α)
  | handed (lease : Nat) (items : List α)
  | dropped (lease account : Nat) (items : List α)
  deriving DecidableEq

/-- How many leases were opened, the items of the open one, and what happened. -/
structure State (α : Type*) where
  opened : Nat
  contents : Option (List α)
  log : List (Event α)
  deriving DecidableEq

inductive Step (α : Type*) where
  | openNew
  | put (item : α)
  | hand
  | drop (account : Nat)

/-- The end of a lease that holds nothing leaves no trace. -/
def ending (items : List α) (event : Event α) : List (Event α) := if items.isEmpty then [] else [event]

def step (s : State α) : Step α → State α
  | .openNew => match s.contents with
    | none => { s with opened := s.opened + 1,contents := some [] }
    | some _ => s
  | .put item => match s.contents with
    | none => s
    | some items => { s with contents := some (items ++ [item]),log := s.log ++ [.put s.opened item] }
  | .hand => match s.contents with
    | none => s
    | some items => { s with contents := none,log := s.log ++ ending items (.handed s.opened items) }
  | .drop account => match s.contents with
    | none => s
    | some items => { s with contents := none,log := s.log ++ ending items (.dropped s.opened account items) }

/-- The items put into a lease. -/
def putInto (lease : Nat) (log : List (Event α)) : List α :=
  log.filterMap fun
    | .put other item => if other = lease then some item else none
    | _ => none

/-- What the ends of a lease handed on or dropped. -/
def endsOf (lease : Nat) (log : List (Event α)) : List (List α) :=
  log.filterMap fun
    | .handed other items => if other = lease then some items else none
    | .dropped other _ items => if other = lease then some items else none
    | .put _ _ => none

/-- The items of the lease that are still there. -/
def held (lease : Nat) (s : State α) : List α := if lease = s.opened then s.contents.getD [] else []

@[simp] theorem held_closed (lease opened : Nat) (log : List (Event α)) : held lease ⟨opened,none,log⟩ = [] := ite_self []

/-- The account of one lease: each item put into it is still there or has gone
    with its end, which comes once. -/
structure Settled (s : State α) (lease : Nat) : Prop where
  items : putInto lease s.log = (endsOf lease s.log).flatten ++ held lease s
  once : (endsOf lease s.log).length ≤ 1
  lasting : lease = s.opened → s.contents.isSome = true → endsOf lease s.log = []
  later : s.opened < lease → endsOf lease s.log = []

variable {s : State α} {lease : Nat}

@[simp] theorem putInto_append (log more : List (Event α)) :
    putInto lease (log ++ more) = putInto lease log ++ putInto lease more := List.filterMap_append

@[simp] theorem endsOf_append (log more : List (Event α)) :
    endsOf lease (log ++ more) = endsOf lease log ++ endsOf lease more := List.filterMap_append

@[simp] theorem putInto_put (other : Nat) (item : α) :
    putInto lease [.put other item] = if other = lease then [item] else [] := by
  by_cases same : other = lease
  · simp [putInto,same]
  · simp [putInto,same]

@[simp] theorem endsOf_put (other : Nat) (item : α) : endsOf lease [.put other item] = [] := rfl

/-- The event ends a lease with its items. -/
structure Ends (event : Event α) (other : Nat) (items : List α) : Prop where
  putInto : ∀ lease, putInto lease [event] = []
  endsOf : ∀ lease, endsOf lease [event] = if other = lease then [items] else []

theorem ends_handed (other : Nat) (items : List α) : Ends (.handed other items) other items where
  putInto _ := rfl
  endsOf lease := by
    by_cases same : other = lease
    · simp [Leases.endsOf,same]
    · simp [Leases.endsOf,same]

theorem ends_dropped (other account : Nat) (items : List α) : Ends (.dropped other account items) other items where
  putInto _ := rfl
  endsOf lease := by
    by_cases same : other = lease
    · simp [Leases.endsOf,same]
    · simp [Leases.endsOf,same]

/-- The end of the open lease settles it and leaves the others alone. -/
theorem Settled.ended (settled : Settled s lease) {items : List α} (isOpen : s.contents = some items)
    {event : Event α} (ends : Ends event s.opened items) :
    Settled { s with contents := none,log := s.log ++ ending items event } lease := by
  have held_before : held lease s = if s.opened = lease then items else [] := by
    simp only [held,isOpen,Option.getD_some,eq_comm]
  have untouched : endsOf lease (s.log ++ ending items event) =
      endsOf lease s.log ++ if s.opened = lease ∧ items ≠ [] then [items] else [] := by
    rcases items with _ | ⟨first,rest⟩
    · simp [ending]
    · simp [ending,ends.endsOf]
  have account : putInto lease (s.log ++ ending items event) = putInto lease s.log := by
    rcases items with _ | ⟨first,rest⟩
    · simp [ending]
    · simp [ending,ends.putInto]
  -- Only the open lease has items here, and it has not ended before.
  by_cases mine : s.opened = lease
  · have none_yet := settled.lasting mine.symm (by rw [isOpen]; rfl)
    refine ⟨?_,?_,fun _ still => absurd still Bool.false_ne_true,fun later => absurd mine (Nat.ne_of_lt later)⟩
    · rw [account,untouched,settled.items,held_before,none_yet]
      rcases items with _ | ⟨first,rest⟩
      · simp [held]
      · simp [held,mine]
    · rw [untouched,none_yet]
      split
      · exact Nat.le_refl 1
      · exact Nat.zero_le 1
  · simp only [mine,false_and,if_false,List.append_nil] at untouched held_before
    refine ⟨?_,?_,fun same => absurd same.symm mine,?_⟩
    · rw [account,untouched,settled.items,held_before]
      simp [held]
    · rw [untouched]
      exact settled.once
    · rw [untouched]
      exact settled.later

theorem settled_step (settled : ∀ lease, Settled s lease) (action : Step α) (lease : Nat) :
    Settled (step s action) lease := by
  rcases isOpen : s.contents with _ | items
  · cases action with
    | openNew =>
      have before := settled lease
      simp only [step,isOpen]
      refine ⟨?_,before.once,fun same _ => before.later (same ▸ Nat.lt_succ_self s.opened),
        fun later => before.later (Nat.lt_of_succ_lt later)⟩
      rw [before.items]
      simp [held,isOpen]
    | put item => simpa only [step,isOpen] using settled lease
    | hand => simpa only [step,isOpen] using settled lease
    | drop account => simpa only [step,isOpen] using settled lease
  · cases action with
    | openNew => simpa only [step,isOpen] using settled lease
    | put item =>
      have before := settled lease
      simp only [step,isOpen]
      refine ⟨?_,?_,fun same _ => ?_,fun later => ?_⟩
      · by_cases mine : s.opened = lease
        · simp [before.items,held,isOpen,mine]
        · simp [before.items,held,mine,Ne.symm mine]
      · simpa using before.once
      · simpa using before.lasting same (by rw [isOpen]; rfl)
      · simpa using before.later later
    | hand =>
      simp only [step,isOpen]
      exact (settled lease).ended isOpen (ends_handed s.opened items)
    | drop account =>
      simp only [step,isOpen]
      exact (settled lease).ended isOpen (ends_dropped s.opened account items)

/-- No lease was opened yet. -/
def State.start : State α := ⟨0,none,[]⟩

theorem settled_run (steps : List (Step α)) (lease : Nat) : Settled (run step State.start steps) lease := by
  refine run_keeps (motive := fun s => ∀ lease, Settled s lease) (fun s action settled => settled_step settled action)
    steps ?_ lease
  intro lease
  exact ⟨by simp [State.start,putInto,endsOf],Nat.zero_le 1,fun _ _ => rfl,fun _ => rfl⟩

/-! ### On whose account -/

/-- Each lease that was dropped was dropped on its own account. -/
def Own (log : List (Event α)) : Prop := ∀ lease account items, .dropped lease account items ∈ log → account = lease

/-- A drop made on the open lease's account, or when nothing is there to drop. -/
def Fair (s : State α) : Step α → Prop
  | .drop account => s.contents.getD [] ≠ [] → account = s.opened
  | _ => True

theorem own_append {log more : List (Event α)} : Own (log ++ more) ↔ Own log ∧ Own more := by
  simp only [Own,List.mem_append,or_imp,forall_and]

theorem own_nil : Own ([] : List (Event α)) := fun _ _ _ member => absurd member List.not_mem_nil

theorem own_step_iff (action : Step α) : Own (step s action).log ↔ Own s.log ∧ Fair s action := by
  rcases isOpen : s.contents with _ | items
  · cases action with
    | drop account => simp [step,isOpen,Fair]
    | _ => simp [step,isOpen,Fair]
  · cases action with
    | openNew => simp [step,isOpen,Fair]
    | put item => simp [step,isOpen,Fair,Own]
    | hand =>
      simp only [step,isOpen,Fair,own_append,and_true,and_iff_left_iff_imp]
      intro _ lease account dropped member
      rcases items with _ | ⟨first,rest⟩
      · simp [ending] at member
      · simp [ending] at member
    | drop account =>
      simp only [step,isOpen,Fair,own_append,Option.getD_some]
      refine and_congr_right fun _ => ?_
      rcases items with _ | ⟨first,rest⟩
      · simp [ending,own_nil]
      · simp only [ending,List.isEmpty_cons,Bool.false_eq_true,if_false,ne_eq,reduceCtorEq,not_false_eq_true,
          forall_const]
        constructor
        · intro own
          exact own s.opened account _ (List.mem_singleton.mpr rfl)
        · rintro rfl lease other dropped member
          cases List.mem_singleton.mp member
          rfl

theorem own_run_iff (steps : List (Step α)) :
    Own (run step s steps).log ↔ Own s.log ∧ Along step Fair s steps := by
  induction steps generalizing s with
  | nil => simp [Along]
  | cons action rest ih => rw [run_cons,ih,own_step_iff,Along,and_assoc]

end Leases
