import ForgeChain.Runs
import Mathlib.Data.List.Induction
import Mathlib.Data.Set.Basic

/-!
Parties that hold at most one offer each. A party takes an offer if it holds
none or if the offer is strong, and then refuses the one it held; any other
offer it refuses. A refusal reaches the other parties at some later step, who
then let go of the offer. `Slotted` says what a step may do to what the parties
hold and refuse; `agreed_iff` says after which runs all of them hold one and the
same offer.
-/
namespace Slots
open Runs

section
variable {S E P C : Type*} (step : S → E → S) (held : S → P → Option C) (refused : S → P → Set C)
  (offers : E → P → C → Prop) (strong : C → Prop)

/-- What one step may do, from any state that keeps the invariant. -/
structure Slotted (invariant : S → Prop) : Prop where
  keeps : ∀ {s e}, invariant s → invariant (step s e)
  taken : ∀ {s e p c}, invariant s → offers e p c → held s p = none ∨ strong c → held (step s e) p = some c
  held_from : ∀ {s e p c}, invariant s → held (step s e) p = some c →
    held s p = some c ∨ offers e p c ∧ (held s p = none ∨ strong c)
  refused_from : ∀ {s e p c}, invariant s → c ∈ refused (step s e) p →
    c ∈ refused s p ∨ (offers e p c ∧ held s p ≠ none ∧ ¬ strong c) ∨ held s p = some c ∧ ∃ d, offers e p d ∧ strong d
  lost : ∀ {s e p c}, invariant s → held s p = some c → held (step s e) p ≠ some c →
    (∃ q, c ∈ refused s q) ∨ ∃ d, offers e p d ∧ strong d

/-- No offer is made to a party twice. -/
def Once (events : List E) : Prop :=
  ∀ before e after, events = before ++ e :: after → ∀ p c, offers e p c →
    (∀ e' ∈ before, ¬ offers e' p c) ∧ ∀ e' ∈ after, ¬ offers e' p c

/-- The party is made the offer when it holds nothing or the offer is strong,
    and is made no strong offer after it. -/
def Keeps (s : S) (events : List E) (p : P) (c : C) : Prop :=
  (∃ e ∈ events, offers e p c) ∧ ∀ before e after, events = before ++ e :: after → offers e p c →
    (held (run step s before) p = none ∨ strong c) ∧ ∀ e' ∈ after, ∀ d, offers e' p d → ¬ strong d

variable {step held refused offers strong} {invariant : S → Prop} {s : S} {events : List E} {p : P} {c : C}

/-- What a party holds after a run it held before it or was offered on the way. -/
theorem Slotted.held_offered (slotted : Slotted step held refused offers strong invariant) (start : invariant s)
    (holds : held (run step s events) p = some c) : held s p = some c ∨ ∃ e ∈ events, offers e p c := by
  induction events generalizing s with
  | nil => exact .inl holds
  | cons e rest ih =>
    rcases ih (slotted.keeps start) holds with now | ⟨e',later,offer⟩
    · rcases slotted.held_from start now with before | ⟨offer,-⟩
      · exact .inl before
      · exact .inr ⟨e,List.mem_cons_self,offer⟩
    · exact .inr ⟨e',List.mem_cons_of_mem _ later,offer⟩

section
variable (slotted : Slotted step held refused offers strong invariant) (start : invariant s)
  (idle : ∀ p, held s p = none)
include slotted start idle

/-- As long as the run lasts, nobody refuses an offer that all parties keep,
    and who was made it holds it. -/
theorem Slotted.keeping (kept : ∀ p, Keeps step held offers strong s events p c) (clean : ∀ p, c ∉ refused s p)
    (before : List E) : ∀ after, events = before ++ after →
      (∀ p, c ∉ refused (run step s before) p) ∧
        ∀ p, (∃ e ∈ before, offers e p c) → held (run step s before) p = some c := by
  induction before using List.reverseRecOn with
  | nil =>
    intro after _
    refine ⟨clean,?_⟩
    rintro p ⟨e,nothing,-⟩
    cases nothing
  | append_singleton before e ih =>
    intro after split
    rw [List.append_assoc,List.singleton_append] at split
    obtain ⟨unrefused,holding⟩ := ih _ split
    have valid : invariant (run step s before) := run_keeps (fun _ _ => slotted.keeps) before start
    rw [run_append]
    -- after a party was made the offer it is made no strong one
    have weak : ∀ p, (∃ e ∈ before, offers e p c) → ∀ d, offers e p d → ¬ strong d := by
      rintro p ⟨e',earlier,offer⟩ d other
      obtain ⟨front,back,rfl⟩ := List.append_of_mem earlier
      have split' : events = front ++ e' :: (back ++ e :: after) := by simp [split]
      exact ((kept p).2 front e' _ split' offer).2 e (by simp) d other
    constructor
    · intro p refuses
      rcases slotted.refused_from valid refuses with already | ⟨offer,holds,notStrong⟩ | ⟨holds,d,offer,isStrong⟩
      · exact unrefused p already
      · rcases ((kept p).2 before e after split offer).1 with none | isStrong
        · exact holds none
        · exact notStrong isStrong
      · have offered : ∃ e ∈ before, offers e p c := by
          rcases slotted.held_offered start holds with initially | offered
          · rw [idle p] at initially
            cases initially
          · exact offered
        exact weak p offered d offer isStrong
    · rintro p ⟨e',member,offer⟩
      rcases List.mem_append.mp member with earlier | now
      · by_contra gone
        rcases slotted.lost valid (holding p ⟨e',earlier,offer⟩) gone with ⟨q,refuses⟩ | ⟨d,other,isStrong⟩
        · exact unrefused q refuses
        · exact weak p ⟨e',earlier,offer⟩ d other isStrong
      · rw [List.mem_singleton] at now
        subst now
        exact slotted.taken valid offer ((kept p).2 before e' after split offer).1

/-- What a party holds at the end of a run it has kept. -/
theorem Slotted.kept_of_held (once : Once offers events) (holds : held (run step s events) p = some c) :
    Keeps step held offers strong s events p c := by
  constructor
  · rcases slotted.held_offered start holds with initially | offered
    · rw [idle p] at initially
      cases initially
    · exact offered
  · rintro before e after rfl offer
    obtain ⟨notBefore,notAfter⟩ := once before e after rfl p c offer
    have valid : invariant (run step s before) := run_keeps (fun _ _ => slotted.keeps) before start
    rw [run_append,run_cons] at holds
    constructor
    · rcases slotted.held_offered (slotted.keeps valid) holds with now | ⟨e',later,again⟩
      · rcases slotted.held_from valid now with already | ⟨-,free⟩
        · rcases slotted.held_offered start already with initially | ⟨e',earlier,again⟩
          · rw [idle p] at initially
            cases initially
          · exact absurd again (notBefore e' earlier)
        · exact free
      · exact absurd again (notAfter e' later)
    · intro e' later d other isStrong
      obtain ⟨front,back,rfl⟩ := List.append_of_mem later
      rw [run_append,run_cons] at holds
      have valid' : invariant (run step (step (run step s before) e) front) :=
        run_keeps (fun _ _ => slotted.keeps) front (slotted.keeps valid)
      have replaced := slotted.taken valid' other (.inr isStrong)
      rcases slotted.held_offered (slotted.keeps valid') holds with now | ⟨e'',last,again⟩
      · rw [replaced] at now
        cases now
        exact notAfter e' later other
      · exact notAfter e'' (by simp [last]) again

/-- All parties end up holding one offer exactly if each of them keeps it. -/
theorem Slotted.agreed_iff (clean : ∀ p, refused s p = ∅) (once : Once offers events) :
    (∀ p, held (run step s events) p = some c) ↔ ∀ p, Keeps step held offers strong s events p c := by
  constructor
  · intro agreed p
    exact slotted.kept_of_held start idle once (agreed p)
  · intro kept p
    have unrefused : ∀ p, c ∉ refused s p := by
      intro p
      rw [clean p]
      exact Set.notMem_empty c
    exact (slotted.keeping start idle kept unrefused events [] (List.append_nil _).symm).2 p (kept p).1

end
end
end Slots
