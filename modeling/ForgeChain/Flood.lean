import Mathlib.Algebra.GroupWithZero.Nat
import Mathlib.Algebra.BigOperators.Group.Finset.Basic
import Mathlib.Algebra.Order.BigOperators.Group.Finset
import Mathlib.Data.Fintype.Card
import Mathlib.Logic.Relation
import ForgeChain.Runs

/-!
Spreading one item over a graph. A party that gets the item announces it on all
its links but the one it came over; a party that is told of the item and lacks it
asks for it, and one that is asked sends it. Links keep the order of what is on
its way and lose nothing. However the deliveries are ordered, there are not more
of them than a number that the graph gives (`deliveries_bounded`), and when
nothing is left on its way every party that links lead to has the item
(`reached_of_quiet`).
-/
namespace Flood
open Runs

/-- Links between parties, each with two ends. -/
structure Links (ι E : Type) where
  owner : E → ι
  other : E → E
  other_other : ∀ e, other (other e) = e

inductive Note where
  | announce
  | request
  | item
  deriving DecidableEq

/-- Who has the item, and what is on its way to each end, oldest first. -/
structure State (ι E : Type) where
  has : ι → Bool
  queue : E → List Note

section
variable {ι E : Type} [DecidableEq ι] [DecidableEq E] (links : Links ι E)

/-- Puts a note on the link of an end. -/
def State.send (s : State ι E) (e : E) (note : Note) : State ι E :=
  { s with queue := Function.update s.queue (links.other e) (s.queue (links.other e) ++ [note]) }

/-- The owner of an end gets the item there and announces it on its other ends. -/
def State.gain (s : State ι E) (e : E) : State ι E where
  has := Function.update s.has (links.owner e) true
  queue g :=
    if links.owner (links.other g) = links.owner e ∧ links.other g ≠ e then s.queue g ++ [.announce] else s.queue g

/-- The owner of an end handles a note. -/
def State.handle (s : State ι E) (e : E) : Note → State ι E
  | .announce => if s.has (links.owner e) then s else s.send links e .request
  | .request => if s.has (links.owner e) then s.send links e .item else s
  | .item => if s.has (links.owner e) then s else s.gain links e

/-- The oldest note on its way to an end is delivered. -/
def State.deliver (s : State ι E) (e : E) : State ι E :=
  match s.queue e with
  | [] => s
  | note :: rest => { s with queue := Function.update s.queue e rest }.handle links e note

/-- One party has the item and has announced it on all its ends. -/
def State.start (origin : ι) : State ι E where
  has i := i = origin
  queue g := if links.owner (links.other g) = origin then [.announce] else []

/-- Nothing is on its way. -/
def State.Quiet (s : State ι E) : Prop := ∀ e, s.queue e = []

/-- A link leads from one party to the other. -/
def Linked (i j : ι) : Prop := ∃ e, links.owner e = i ∧ links.owner (links.other e) = j

/-! ### What is on its way -/

/-- The party that makes a note meaningful has the item: the one that is asked,
    or the one that announces or sends it. -/
def Backed (has : ι → Bool) (e : E) : Note → Prop
  | .announce => has (links.owner (links.other e)) = true
  | .request => has (links.owner e) = true
  | .item => has (links.owner (links.other e)) = true

/-- Something is on its way that brings the item from the owner of an end to the
    other side. -/
def Helped (s : State ι E) (e : E) : Prop :=
  .announce ∈ s.queue (links.other e) ∨ .request ∈ s.queue e ∨ .item ∈ s.queue (links.other e)

/-- All notes are backed, and help is on its way from every party with the item
    to its neighbours without. -/
structure Sound (s : State ι E) : Prop where
  backed : ∀ e, ∀ note ∈ s.queue e, Backed links s.has e note
  helped : ∀ e, s.has (links.owner e) = true → s.has (links.owner (links.other e)) = false → Helped links s e

/-- A state from which the oldest note of an end was taken. -/
structure Taken (s t : State ι E) (e : E) (note : Note) : Prop where
  has : t.has = s.has
  here : note ∈ s.queue e
  back : ∀ f other, other ∈ t.queue f → other ∈ s.queue f
  left : ∀ f other, other ∈ s.queue f → other ∈ t.queue f ∨ f = e ∧ other = note

end

section
variable {ι E : Type} {links : Links ι E} {s t t' : State ι E} {e f : E} {note other : Note} {rest : List Note}

theorem Backed.mono {has has' : ι → Bool} (grown : ∀ i, has i = true → has' i = true)
    (backed : Backed links has e note) : Backed links has' e note := by
  cases note with
  | announce => exact grown _ backed
  | request => exact grown _ backed
  | item => exact grown _ backed

theorem Helped.mono (more : ∀ f note, note ∈ s.queue f → note ∈ t.queue f) (helped : Helped links s e) :
    Helped links t e :=
  helped.imp (more _ _) (Or.imp (more _ _) (more _ _))

/-- Help is still on its way, unless it was the note that was taken. -/
theorem Taken.helped (taken : Taken s t e note) (helped : Helped links s f) :
    Helped links t f ∨ note = .announce ∧ f = links.other e ∨ note = .request ∧ f = e ∨
      note = .item ∧ links.other f = e := by
  rcases helped with told | asked | sent
  · rcases taken.left _ _ told with left | ⟨rfl,rfl⟩
    · exact .inl (.inl left)
    · exact .inr (.inl ⟨rfl,(links.other_other f).symm⟩)
  · rcases taken.left _ _ asked with left | ⟨rfl,rfl⟩
    · exact .inl (.inr (.inl left))
    · exact .inr (.inr (.inl ⟨rfl,rfl⟩))
  · rcases taken.left _ _ sent with left | ⟨rfl,rfl⟩
    · exact .inl (.inr (.inr left))
    · exact .inr (.inr (.inr ⟨rfl,rfl⟩))

/-- An announcement, or the item, that its reader does not need. -/
theorem Sound.drop (sound : Sound links s) (taken : Taken s t e note) (owned : s.has (links.owner e) = true)
    (unneeded : note ≠ .request) : Sound links t := by
  refine ⟨fun f other member => ?_,fun f there missing => ?_⟩
  · exact taken.has ▸ sound.backed f other (taken.back f other member)
  · rw [taken.has] at there missing
    rcases taken.helped (sound.helped f there missing) with left | ⟨-,rfl⟩ | ⟨asked,-⟩ | ⟨-,rfl⟩
    · exact left
    · rw [links.other_other,owned] at missing
      cases missing
    · exact absurd asked unneeded
    · rw [owned] at missing
      cases missing

variable [DecidableEq E]

theorem taken (first : s.queue e = note :: rest) :
    Taken s { s with queue := Function.update s.queue e rest } e note := by
  refine ⟨rfl,by simp [first],fun f other => ?_,fun f other => ?_⟩
  · by_cases here : f = e
    · subst here
      simpa [first] using Or.inr
    · simp [here]
  · by_cases here : f = e
    · subst here
      simpa [first] using Or.symm
    · simp [here]

theorem mem_send : other ∈ (s.send links e note).queue f ↔ other ∈ s.queue f ∨ f = links.other e ∧ other = note := by
  rw [State.send]
  by_cases here : f = links.other e
  · subst here
    simp
  · simp [here]

/-- A note is answered with one that takes its place. -/
theorem Sound.reply (sound : Sound links s) (taken : Taken s t e note) {answer : Note}
    (backed : Backed links s.has (links.other e) answer)
    (instead : ∀ f, note = .announce ∧ f = links.other e ∨ note = .request ∧ f = e ∨ note = .item ∧ links.other f = e →
      s.has (links.owner (links.other f)) = false → Helped links (t.send links e answer) f) :
    Sound links (t.send links e answer) := by
  have has : (t.send links e answer).has = s.has := taken.has
  refine ⟨fun f other member => ?_,fun f there missing => ?_⟩
  · rw [has]
    rcases mem_send.mp member with old | ⟨rfl,rfl⟩
    · exact sound.backed f other (taken.back f other old)
    · exact backed
  · rw [has] at there missing
    rcases taken.helped (sound.helped f there missing) with left | replaced
    · exact left.mono fun g other old => mem_send.mpr (.inl old)
    · exact instead f replaced missing

/-- An announcement is answered with a request. -/
theorem Sound.ask (sound : Sound links s) (taken : Taken s t e .announce) : Sound links (t.send links e .request) := by
  refine sound.reply taken (sound.backed e .announce taken.here) fun f replaced _ => ?_
  rcases replaced with ⟨-,rfl⟩ | ⟨other,-⟩ | ⟨other,-⟩
  · exact .inr (.inl (mem_send.mpr (.inr ⟨rfl,rfl⟩)))
  · cases other
  · cases other

/-- A request is answered with the item. -/
theorem Sound.answer (sound : Sound links s) (taken : Taken s t e .request) : Sound links (t.send links e .item) := by
  have backed : Backed links s.has (links.other e) .item := by
    rw [Backed,links.other_other]
    exact sound.backed e .request taken.here
  refine sound.reply taken backed fun f replaced _ => ?_
  rcases replaced with ⟨other,-⟩ | ⟨-,rfl⟩ | ⟨other,-⟩
  · cases other
  · exact .inr (.inr (mem_send.mpr (.inr ⟨rfl,rfl⟩)))
  · cases other

variable [DecidableEq ι]

theorem mem_gain : other ∈ (s.gain links e).queue f ↔ other ∈ s.queue f ∨
    links.owner (links.other f) = links.owner e ∧ links.other f ≠ e ∧ other = .announce := by
  rw [State.gain]
  dsimp only
  split
  · case isTrue told => simp [told]
  · case isFalse untold =>
    refine ⟨.inl,?_⟩
    rintro (old | ⟨same,apart,-⟩)
    · exact old
    · exact absurd ⟨same,apart⟩ untold

theorem has_gain {i : ι} : (s.gain links e).has i = true ↔ i = links.owner e ∨ s.has i = true := by
  rw [State.gain]
  by_cases here : i = links.owner e
  · simp [here]
  · simp [here]

/-- The item arrives where it was missing. -/
theorem Sound.gain (sound : Sound links s) (taken : Taken s t e .item) : Sound links (t.gain links e) := by
  have source : s.has (links.owner (links.other e)) = true := sound.backed e .item taken.here
  have grown : ∀ i, s.has i = true → (t.gain links e).has i = true :=
    fun i there => has_gain.mpr (.inr (taken.has ▸ there))
  refine ⟨fun f other member => ?_,fun f there missing => ?_⟩
  · rcases mem_gain.mp member with old | ⟨same,-,rfl⟩
    · exact (sound.backed f other (taken.back f other old)).mono grown
    · exact has_gain.mpr (.inl same)
  · obtain ⟨apart,lacks⟩ := not_or.mp fun gained => Bool.false_ne_true (missing.symm.trans (has_gain.mpr gained))
    rw [taken.has] at lacks
    by_cases own : links.owner f = links.owner e
    · -- on its ends the new owner announces the item, but for the one it came over
      have new_end : f ≠ e := by
        rintro rfl
        exact lacks source
      refine .inl (mem_gain.mpr (.inr ⟨?_,?_,rfl⟩))
      · rw [links.other_other,own]
      · rwa [links.other_other]
    · have old := (has_gain.mp there).resolve_left own
      rw [taken.has] at old
      rcases taken.helped (sound.helped f old (Bool.eq_false_of_not_eq_true lacks)) with
        left | ⟨other,-⟩ | ⟨other,-⟩ | ⟨-,here⟩
      · exact left.mono fun g other old => mem_gain.mpr (.inl old)
      · cases other
      · cases other
      · exact absurd (congrArg links.owner here) apart

theorem Sound.deliver (sound : Sound links s) (e : E) : Sound links (s.deliver links e) := by
  rw [State.deliver]
  rcases first : s.queue e with _ | ⟨note,rest⟩
  · exact sound
  have taken := taken first
  rcases owned : s.has (links.owner e) with _ | _
  · cases note with
    | announce => simpa [State.handle,owned] using sound.ask taken
    | request =>
      have asked : s.has (links.owner e) = true := sound.backed e .request taken.here
      exact absurd (owned.symm.trans asked) Bool.false_ne_true
    | item => simpa [State.handle,owned] using sound.gain taken
  · cases note with
    | announce => simpa [State.handle,owned] using sound.drop taken owned (by simp)
    | request => simpa [State.handle,owned] using sound.answer taken
    | item => simpa [State.handle,owned] using sound.drop taken owned (by simp)

omit [DecidableEq E] in
theorem sound_start (origin : ι) : Sound links (.start links origin) := by
  refine ⟨fun e note member => ?_,fun e there missing => .inl ?_⟩
  · simp only [State.start] at member
    split at member
    · case isTrue told =>
      obtain rfl := List.mem_singleton.mp member
      simpa [Backed,State.start] using told
    · cases member
  · simp only [State.start,decide_eq_true_eq] at there
    simp [State.start,links.other_other,there]

theorem sound_run (origin : ι) (deliveries : List E) :
    Sound links (run (State.deliver links) (State.start links origin) deliveries) :=
  run_keeps (fun _ e sound => sound.deliver e) deliveries (sound_start origin)

theorem has_deliver {i : ι} (e : E) (there : s.has i = true) : (s.deliver links e).has i = true := by
  rw [State.deliver]
  split
  · exact there
  · case h_2 note rest first =>
    cases note with
    | announce =>
      rw [State.handle]
      split
      · exact there
      · exact there
    | request =>
      rw [State.handle]
      split
      · exact there
      · exact there
    | item =>
      rw [State.handle]
      split
      · exact there
      · exact has_gain.mpr (.inr there)

/-- When nothing is on its way, the item has gone wherever links lead. -/
theorem reached_of_quiet {origin i : ι} {deliveries : List E}
    (quiet : (run (State.deliver links) (State.start links origin) deliveries).Quiet)
    (leads : Relation.ReflTransGen (Linked links) origin i) :
    (run (State.deliver links) (State.start links origin) deliveries).has i = true := by
  induction leads with
  | refl =>
    exact run_keeps (motive := fun s : State ι E => s.has origin = true) (fun _ e there => has_deliver e there) deliveries
      (by simp [State.start])
  | tail _ linked ih =>
    obtain ⟨e,rfl,rfl⟩ := linked
    by_contra lacks
    rcases (sound_run origin deliveries).helped e ih (Bool.eq_false_of_not_eq_true lacks) with told | asked | sent
    · rw [quiet] at told
      cases told
    · rw [quiet] at asked
      cases asked
    · rw [quiet] at sent
      cases sent

/-! ### How long it takes -/

/-- How many deliveries a note can lead to on its link, its own included. -/
def Note.price : Note → Nat
  | .announce => 3
  | .request => 2
  | .item => 1

/-- The price of what is on its way to an end. -/
def State.due (s : State ι E) (e : E) : Nat := ((s.queue e).map Note.price).sum

variable [Fintype ι] [Fintype E]

/-- What is on its way, and announcements on all links for every party that has
    not got the item yet. -/
def State.measure (s : State ι E) : Nat :=
  (Finset.univ.filter fun i => s.has i = false).card * (3 * Fintype.card E) + ∑ e, s.due e

omit [DecidableEq ι] [Fintype ι] in
theorem sum_due (same : ∀ f, f ≠ e → t.due f = s.due f) : ∑ f, t.due f + s.due e = ∑ f, s.due f + t.due e := by
  have rest : ∑ f ∈ Finset.univ.erase e, t.due f = ∑ f ∈ Finset.univ.erase e, s.due f :=
    Finset.sum_congr rfl fun f other => same f (Finset.ne_of_mem_erase other)
  rw [← Finset.add_sum_erase _ t.due (Finset.mem_univ e),← Finset.add_sum_erase _ s.due (Finset.mem_univ e),rest]
  omega

omit [DecidableEq ι] in
theorem measure_taken (first : s.queue e = note :: rest) :
    ({ s with queue := Function.update s.queue e rest } : State ι E).measure + note.price = s.measure := by
  have moved := sum_due (s := s) (t := { s with queue := Function.update s.queue e rest }) (e := e)
    fun f other => by simp [State.due,other]
  have here : s.due e = note.price + (rest.map Note.price).sum := by simp [State.due,first]
  have left : ({ s with queue := Function.update s.queue e rest } : State ι E).due e = (rest.map Note.price).sum := by
    simp [State.due]
  simp only [State.measure]
  omega

omit [DecidableEq ι] in
theorem measure_send : (s.send links e note).measure = s.measure + note.price := by
  have moved := sum_due (s := s) (t := s.send links e note) (e := links.other e)
    fun f other => by simp [State.due,State.send,other]
  have here : (s.send links e note).due (links.other e) = s.due (links.other e) + note.price := by
    simp [State.due,State.send]
  have same : (s.send links e note).has = s.has := rfl
  rw [State.measure,State.measure,same]
  omega

omit [Fintype ι] in
theorem due_gain : ∑ f, (s.gain links e).due f ≤ ∑ f, s.due f + 3 * Fintype.card E := by
  have each : ∀ f ∈ Finset.univ, (s.gain links e).due f ≤ s.due f + 3 := by
    intro f _
    simp only [State.due,State.gain]
    split
    · simp [Note.price]
    · exact Nat.le_add_right _ 3
  calc ∑ f, (s.gain links e).due f ≤ ∑ f, (s.due f + 3) := Finset.sum_le_sum each
    _ = ∑ f, s.due f + 3 * Fintype.card E := by
      rw [Finset.sum_add_distrib,Finset.sum_const,Finset.card_univ,Nat.mul_comm]
      rfl

omit [Fintype E] in
theorem card_gain (missing : s.has (links.owner e) = false) :
    (Finset.univ.filter fun i => s.has i = false).card =
      (Finset.univ.filter fun i => (s.gain links e).has i = false).card + 1 := by
  have split : (Finset.univ.filter fun i => s.has i = false) =
      insert (links.owner e) (Finset.univ.filter fun i => (s.gain links e).has i = false) := by
    ext i
    simp only [Finset.mem_filter,Finset.mem_univ,true_and,Finset.mem_insert,← Bool.not_eq_true,has_gain,not_or]
    by_cases here : i = links.owner e
    · simp [here,missing]
    · simp [here]
  have fresh : links.owner e ∉ Finset.univ.filter fun i => (s.gain links e).has i = false := by
    simp [← Bool.not_eq_true,has_gain]
  rw [split,Finset.card_insert_of_notMem fresh]

/-- A party that gets the item pays for its announcements. -/
theorem measure_gain (missing : s.has (links.owner e) = false) : (s.gain links e).measure ≤ s.measure := by
  have told : ∑ f, (s.gain links e).due f ≤ ∑ f, s.due f + 3 * Fintype.card E := due_gain
  rw [State.measure,State.measure,card_gain missing,Nat.add_mul]
  omega

/-- Every delivery of a note lowers the measure. -/
theorem measure_deliver (some_note : s.queue e ≠ []) : (s.deliver links e).measure < s.measure := by
  obtain ⟨note,rest,first⟩ := List.exists_cons_of_ne_nil some_note
  have taken := measure_taken first
  rw [State.deliver,first]
  dsimp only
  generalize ({ s with queue := Function.update s.queue e rest } : State ι E) = t at taken ⊢
  rcases owned : t.has (links.owner e) with _ | _
  · cases note with
    | announce =>
      rw [State.handle,if_neg (by simp [owned]),measure_send,← taken]
      exact Nat.lt_succ_self _
    | request =>
      rw [State.handle,if_neg (by simp [owned]),← taken]
      exact Nat.lt_add_of_pos_right (by decide)
    | item =>
      rw [State.handle,if_neg (by simp [owned]),← taken]
      exact Nat.lt_succ_of_le (measure_gain owned)
  · cases note with
    | announce =>
      rw [State.handle,if_pos owned,← taken]
      exact Nat.lt_add_of_pos_right (by decide)
    | request =>
      rw [State.handle,if_pos owned,measure_send,← taken]
      exact Nat.lt_succ_self _
    | item =>
      rw [State.handle,if_pos owned,← taken]
      exact Nat.lt_succ_self _

omit [DecidableEq E] in
/-- At the start there is at most one announcement on each link for each party. -/
theorem measure_start_le (origin : ι) :
    (State.start links origin).measure ≤ 3 * Fintype.card ι * Fintype.card E := by
  have lacking : (Finset.univ.filter fun i => (State.start links origin).has i = false).card + 1 ≤ Fintype.card ι := by
    refine Finset.card_lt_univ_of_notMem (x := origin) ?_
    simp [State.start]
  have each : ∀ e ∈ Finset.univ, (State.start links origin).due e ≤ 3 := by
    intro e _
    simp only [State.due,State.start]
    split
    · simp [Note.price]
    · simp
  have told : ∑ e, (State.start links origin).due e ≤ 3 * Fintype.card E := by
    rw [Nat.mul_comm]
    simpa using Finset.sum_le_card_nsmul _ _ 3 each
  calc (State.start links origin).measure
      ≤ (Finset.univ.filter fun i => (State.start links origin).has i = false).card * (3 * Fintype.card E) +
          1 * (3 * Fintype.card E) := by
        rw [State.measure]
        omega
    _ ≤ Fintype.card ι * (3 * Fintype.card E) := by
        rw [← Nat.add_mul]
        exact Nat.mul_le_mul_right _ lacking
    _ = 3 * Fintype.card ι * Fintype.card E := by rw [← Nat.mul_assoc,Nat.mul_comm (Fintype.card ι)]

/-- Deliveries of notes come to an end. -/
theorem deliveries_bounded {deliveries : List E}
    (notes : Along (State.deliver links) (fun s e => s.queue e ≠ []) s deliveries) :
    deliveries.length ≤ s.measure := by
  induction deliveries generalizing s with
  | nil => exact Nat.zero_le _
  | cons e rest ih =>
    have fewer : (s.deliver links e).measure < s.measure := measure_deliver notes.1
    have later := ih notes.2
    rw [List.length_cons]
    omega

end
end Flood
