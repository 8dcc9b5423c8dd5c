import Mathlib.Order.Basic
import ForgeChain.Flood

/-!
Parties that keep a head each and tell each other of better ones. A party that
changes its head offers the new one on every link but one over which it was
offered; a party that is offered something better than its head asks for it, and
one that is asked for its head sends it. Every turn of that kind keeps the parties
in touch (`InTouch.turn`): whoever is behind a neighbour has the neighbour's head
on its way or has asked for it. So when nothing is on its way, parties that links
lead between have heads of one rank (`InTouch.agree`).
-/
namespace Heads
open Flood

/-- The heads, and what is on its way to each end. -/
structure State (ι E H M : Type) where
  head : ι → H
  inbox : E → List M

section
variable {ι E H M N : Type} [PartialOrder N] (links : Links ι E) (rank : H → N) (offers requests : M → H → Prop)

/-- The owner of an end is offered something there, or its request is on its way. -/
def Underway (s : State ι E H M) (e : E) (item : H) : Prop :=
  (∃ message ∈ s.inbox e, offers message item) ∨ ∃ message ∈ s.inbox (links.other e), requests message item

/-- Whatever is offered by a party or asked of it is no better than its head, and
    whoever is behind a neighbour will get to know. -/
structure InTouch (s : State ι E H M) : Prop where
  backed : ∀ e item, Underway links offers requests s e item → rank item ≤ rank (s.head (links.owner (links.other e)))
  known : ∀ e, rank (s.head (links.owner (links.other e))) ≤ rank (s.head (links.owner e)) ∨
    Underway links offers requests s e (s.head (links.owner (links.other e)))

/-- A party takes a turn, with a message at one of its ends or without. -/
structure Turn (s s' : State ι E H M) (i : ι) (heard : Option (E × M)) : Prop where
  here : ∀ e message, heard = some (e,message) → links.owner e = i ∧ message ∈ s.inbox e
  others : ∀ j, j ≠ i → s'.head j = s.head j
  rises : rank (s.head i) ≤ rank (s'.head i)
  kept : ∀ e, ∀ message ∈ s.inbox e, message ∈ s'.inbox e ∨ heard = some (e,message)
  /-- only the party sends, and what it offers is no better than its head -/
  offered : ∀ e item, ∀ message ∈ s'.inbox e, offers message item →
    message ∈ s.inbox e ∨ links.owner (links.other e) = i ∧ rank item ≤ rank (s'.head i)
  /-- it asks for nothing better than what it was offered over the same link -/
  asked : ∀ e item, ∀ message ∈ s'.inbox e, requests message item → message ∈ s.inbox e ∨
    ∃ cause better, heard = some (links.other e,cause) ∧ offers cause better ∧ rank item ≤ rank better
  told : s'.head i ≠ s.head i → ∀ e, links.owner e = i →
    (∃ message ∈ s'.inbox (links.other e), offers message (s'.head i)) ∨
      ∃ cause, heard = some (e,cause) ∧ offers cause (s'.head i)
  pursued : ∀ e cause item, heard = some (e,cause) → offers cause item → rank item ≤ rank (s'.head i) ∨
    ∃ message ∈ s'.inbox (links.other e), requests message item
  answered : ∀ e cause, heard = some (e,cause) → requests cause (s.head i) →
    ∃ message ∈ s'.inbox (links.other e), offers message (s.head i)

variable {links rank offers requests} {s s' : State ι E H M} {i : ι} {heard : Option (E × M)}

theorem Turn.rank_le (turn : Turn links rank offers requests s s' i heard) (j : ι) : rank (s.head j) ≤ rank (s'.head j) := by
  by_cases same : j = i
  · exact same ▸ turn.rises
  · rw [turn.others j same]

/-- What others are to hear stays on its way. -/
theorem Turn.kept_elsewhere (turn : Turn links rank offers requests s s' i heard) {e : E} (other : links.owner e ≠ i)
    {message : M} (member : message ∈ s.inbox e) : message ∈ s'.inbox e :=
  (turn.kept e message member).resolve_right fun taken => other (turn.here e message taken).1

theorem InTouch.backed_turn (touch : InTouch links rank offers requests s)
    (turn : Turn links rank offers requests s s' i heard) (e : E) (item : H)
    (underway : Underway links offers requests s' e item) :
    rank item ≤ rank (s'.head (links.owner (links.other e))) := by
  have before : Underway links offers requests s e item → rank item ≤ rank (s'.head (links.owner (links.other e))) :=
    fun there => (touch.backed e item there).trans (turn.rank_le _)
  rcases underway with ⟨message,member,offer⟩ | ⟨message,member,request⟩
  · rcases turn.offered e item message member offer with old | ⟨own,low⟩
    · exact before (.inl ⟨message,old,offer⟩)
    · exact own ▸ low
  · rcases turn.asked _ item message member request with old | ⟨cause,better,taken,offer,low⟩
    · exact before (.inr ⟨message,old,request⟩)
    · rw [links.other_other] at taken
      have there := touch.backed e better (.inl ⟨cause,(turn.here e cause taken).2,offer⟩)
      exact low.trans (there.trans (turn.rank_le _))

/-- The party itself is told of on its links. -/
theorem InTouch.known_of_party (touch : InTouch links rank offers requests s)
    (turn : Turn links rank offers requests s s' i heard) {e : E} (own : links.owner (links.other e) = i)
    (apart : links.owner e ≠ i) :
    rank (s'.head i) ≤ rank (s'.head (links.owner e)) ∨ Underway links offers requests s' e (s'.head i) := by
  have back := links.other_other e
  rw [turn.others _ apart]
  by_cases same : s'.head i = s.head i
  · have known := touch.known e
    rw [own] at known
    rw [same]
    refine known.imp_right fun underway => ?_
    rcases underway with ⟨message,member,offer⟩ | ⟨message,member,request⟩
    · exact .inl ⟨message,turn.kept_elsewhere apart member,offer⟩
    · rcases turn.kept _ message member with still | taken
      · exact .inr ⟨message,still,request⟩
      · obtain ⟨reply,sent,offer⟩ := turn.answered _ message taken request
        exact .inl ⟨reply,back ▸ sent,offer⟩
  · rcases turn.told same _ own with ⟨message,member,offer⟩ | ⟨cause,taken,offer⟩
    · exact .inr (.inl ⟨message,back ▸ member,offer⟩)
    · -- The neighbour has offered the head itself.
      have low := touch.backed (links.other e) _ (.inl ⟨cause,(turn.here _ _ taken).2,offer⟩)
      exact .inl (back ▸ low)

/-- The party gets to know of its neighbours. -/
theorem InTouch.known_by_party (touch : InTouch links rank offers requests s)
    (turn : Turn links rank offers requests s s' i heard) {e : E} (own : links.owner e = i)
    (apart : links.owner (links.other e) ≠ i) :
    rank (s'.head (links.owner (links.other e))) ≤ rank (s'.head i) ∨
      Underway links offers requests s' e (s'.head (links.owner (links.other e))) := by
  have known := touch.known e
  rw [own] at known
  rw [turn.others _ apart]
  rcases known with low | ⟨message,member,offer⟩ | ⟨message,member,request⟩
  · exact .inl (low.trans turn.rises)
  · rcases turn.kept e message member with still | taken
    · exact .inr (.inl ⟨message,still,offer⟩)
    · exact (turn.pursued e message _ taken offer).imp_right .inr
  · exact .inr (.inr ⟨message,turn.kept_elsewhere apart member,request⟩)

/-- Every turn keeps the parties in touch. -/
theorem InTouch.turn (touch : InTouch links rank offers requests s) (turn : Turn links rank offers requests s s' i heard) :
    InTouch links rank offers requests s' := by
  refine ⟨touch.backed_turn turn,fun e => ?_⟩
  by_cases own : links.owner e = i
  · by_cases self : links.owner (links.other e) = i
    · exact .inl (by rw [own,self])
    · have known := touch.known_by_party turn own self
      rwa [own]
  · by_cases other : links.owner (links.other e) = i
    · have known := touch.known_of_party turn other own
      rwa [other]
    · have known := touch.known e
      rw [turn.others _ own,turn.others _ other]
      refine known.imp_right fun underway => ?_
      rcases underway with ⟨message,member,offer⟩ | ⟨message,member,request⟩
      · exact .inl ⟨message,turn.kept_elsewhere own member,offer⟩
      · exact .inr ⟨message,turn.kept_elsewhere other member,request⟩

/-- When nothing is on its way, parties that links lead between agree. -/
theorem InTouch.agree (touch : InTouch links rank offers requests s) (quiet : ∀ e, s.inbox e = []) {j : ι}
    (leads : Relation.ReflTransGen (Linked links) i j) : rank (s.head i) = rank (s.head j) := by
  have behind : ∀ e, rank (s.head (links.owner (links.other e))) ≤ rank (s.head (links.owner e)) := by
    intro e
    refine (touch.known e).resolve_right ?_
    rintro (⟨message,member,-⟩ | ⟨message,member,-⟩)
    · exact absurd (quiet e ▸ member) List.not_mem_nil
    · exact absurd (quiet _ ▸ member) List.not_mem_nil
  induction leads with
  | refl => rfl
  | tail _ link ih =>
    obtain ⟨e,rfl,rfl⟩ := link
    have ahead := behind (links.other e)
    rw [links.other_other] at ahead
    exact ih.trans (le_antisymm ahead (behind e))

/-- Parties with heads of one rank are in touch while nothing is on its way. -/
theorem inTouch_of_quiet (quiet : ∀ e, s.inbox e = []) (same : ∀ i j, rank (s.head i) = rank (s.head j)) :
    InTouch links rank offers requests s := by
  refine ⟨?_,fun e => .inl (same _ _).le⟩
  rintro e item (⟨message,member,-⟩ | ⟨message,member,-⟩)
  · exact absurd (quiet e ▸ member) List.not_mem_nil
  · exact absurd (quiet _ ▸ member) List.not_mem_nil

end
end Heads
