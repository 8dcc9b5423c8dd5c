import Mathlib.Data.List.Basic
import Mathlib.Data.Prod.Lex
import ForgeChain.Runs

/-!
One worker that serves connections one after the other. What a connection brings
arrives over time and waits until the worker reads it; the worker goes through it
with a reader and takes the next connection when the reader has a result. However
connections, arrivals and turns of the worker are interleaved, every result is
what the reader makes of its own connection (`served_run`), the worker comes to
wait (`comes_to_wait`), and then it has served a connection exactly if nothing is
missing on it and on all connections before it (`Served.answered_iff`). A worker
that is told to stop while it reads comes to an end exactly if nothing is missing
on its connection (`stops_iff`).
-/
namespace Serial
open Runs

/-- Goes through events until there is a result. -/
structure Reader (σ E R : Type) where
  start : σ
  step : σ → E → σ ⊕ R

section
variable {σ E R : Type} (reader : Reader σ E R)

def Reader.feed : σ → List E → σ ⊕ R
  | state, [] => .inl state
  | state, event :: rest =>
    match reader.step state event with
    | .inl state => Reader.feed state rest
    | .inr result => .inr result

/-- There is a result. -/
def Reader.Complete (events : List E) : Prop := ∃ result, reader.feed reader.start events = .inr result

/-- What has arrived on each connection, in the order in which they were made, the
    results for the first of them, and how far the worker is with the next one. -/
structure Server (σ E R : Type) where
  arrived : List (List E)
  results : List R
  current : Option (σ × Nat)

/-- Before the first connection. -/
def Server.idle : Server σ E R := ⟨[],[],none⟩

inductive Action (E : Type) where
  | connect
  | arrive (connection : Nat) (event : E)
  | work

/-- The event that the worker reads next, if it has arrived. -/
def Server.next (s : Server σ E R) (read : Nat) : Option E := do
  let events ← s.arrived[s.results.length]?
  events[read]?

/-- A turn of the worker: it takes the next connection, or reads the next event of
    the one it has, or waits. -/
def Server.work (s : Server σ E R) : Server σ E R :=
  match s.current with
  | none => if s.results.length < s.arrived.length then { s with current := some (reader.start,0) } else s
  | some (state,read) =>
    match s.next read with
    | none => s
    | some event =>
      match reader.step state event with
      | .inl state => { s with current := some (state,read + 1) }
      | .inr result => { s with results := s.results ++ [result],current := none }

def Server.step (s : Server σ E R) : Action E → Server σ E R
  | .connect => { s with arrived := s.arrived ++ [[]] }
  | .arrive connection event => { s with arrived := s.arrived.modify connection (· ++ [event]) }
  | .work => s.work reader

/-- The worker can do nothing. -/
def Server.Waits (s : Server σ E R) : Prop :=
  match s.current with
  | none => s.arrived.length ≤ s.results.length
  | some (_,read) => s.next read = none

variable {reader} {s : Server σ E R}

theorem feed_append (state : σ) (before after : List E) :
    reader.feed state (before ++ after) =
      match reader.feed state before with
      | .inl state => reader.feed state after
      | .inr result => .inr result := by
  induction before generalizing state with
  | nil => rfl
  | cons event rest ih =>
    rw [List.cons_append,Reader.feed,Reader.feed]
    rcases reader.step state event with next | result
    · exact ih next
    · rfl

/-- What comes after the result makes no difference. -/
theorem feed_more {state : σ} {events : List E} {result : R} (done : reader.feed state events = .inr result)
    (more : List E) : reader.feed state (events ++ more) = .inr result := by
  rw [feed_append,done]

/-- The results so far are those of the connections, and the worker is where the
    events that it has read lead to. -/
structure Served (reader : Reader σ E R) (s : Server σ E R) : Prop where
  results : ∀ (k : Nat) result, s.results[k]? = some result →
    ∃ events, s.arrived[k]? = some events ∧ reader.feed reader.start events = .inr result
  current : ∀ state read, s.current = some (state,read) → ∃ events, s.arrived[s.results.length]? = some events ∧
    read ≤ events.length ∧ reader.feed reader.start (events.take read) = .inl state

theorem served_idle : Served reader .idle := ⟨nofun,nofun⟩

/-- More events on the connections change nothing about that. -/
theorem Served.grown (served : Served reader s) {arrived : List (List E)}
    (more : ∀ (k : Nat) events, s.arrived[k]? = some events → ∃ extra, arrived[k]? = some (events ++ extra)) :
    Served reader { s with arrived } := by
  refine ⟨fun k result there => ?_,fun state read now => ?_⟩
  · obtain ⟨events,before,done⟩ := served.results k result there
    obtain ⟨extra,after⟩ := more k events before
    exact ⟨_,after,feed_more done extra⟩
  · obtain ⟨events,before,inside,done⟩ := served.current state read now
    obtain ⟨extra,after⟩ := more _ events before
    refine ⟨_,after,?_,?_⟩
    · rw [List.length_append]
      omega
    · rwa [List.take_append_of_le_length inside]

theorem Served.work (served : Served reader s) : Served reader (s.work reader) := by
  unfold Server.work
  split
  · case h_1 idle =>
    split
    · case isTrue more =>
      refine ⟨served.results,fun state read now => ?_⟩
      cases now
      exact ⟨_,List.getElem?_eq_getElem more,Nat.zero_le _,rfl⟩
    · exact served
  · case h_2 state read busy =>
    obtain ⟨events,there,inside,fed⟩ := served.current state read busy
    split
    · exact served
    · case h_2 event next =>
      rw [Server.next,there] at next
      have taken : events.take (read + 1) = events.take read ++ [event] := by
        rw [List.take_add_one,show events[read]? = some event from next]
        rfl
      have further : reader.feed reader.start (events.take read ++ [event]) = _ := feed_append ..
      rw [fed,← taken] at further
      split
      · case h_1 state' went =>
        refine ⟨served.results,fun state read now => ?_⟩
        cases now
        refine ⟨events,there,(List.getElem?_eq_some_iff.mp next).1,?_⟩
        rw [further]
        simp only [Reader.feed,went]
      · case h_2 result went =>
        have done : reader.feed reader.start events = .inr result := by
          rw [← List.take_append_drop (read + 1) events]
          refine feed_more ?_ _
          rw [further]
          simp only [Reader.feed,went]
        refine ⟨fun k other member => ?_,nofun⟩
        rcases Nat.lt_or_ge k s.results.length with old | new
        · rw [List.getElem?_append_left old] at member
          exact served.results k other member
        · rw [List.getElem?_append_right new,List.getElem?_singleton] at member
          obtain ⟨last,same⟩ := Option.ite_none_right_eq_some.mp member
          obtain rfl : k = s.results.length := by omega
          exact ⟨events,there,Option.some.inj same ▸ done⟩

theorem Served.step (served : Served reader s) (action : Action E) : Served reader (s.step reader action) := by
  cases action with
  | connect =>
    refine served.grown fun k events there => ⟨[],?_⟩
    rw [List.append_nil,List.getElem?_append_left (List.getElem?_eq_some_iff.mp there).1,there]
  | arrive connection event =>
    refine served.grown fun k events there => ?_
    rw [List.getElem?_modify,there]
    by_cases here : connection = k
    · exact ⟨[event],by simp [here]⟩
    · exact ⟨[],by simp [here]⟩
  | work => exact served.work

theorem served_run (reader : Reader σ E R) (actions : List (Action E)) :
    Served reader (run (Server.step reader) .idle actions) :=
  run_keeps (motive := Served reader) (fun _ action served => served.step action) actions served_idle

/-! ### Waiting -/

/-- While the worker waits, nothing is left to serve, or something is missing on
    the next connection. -/
theorem Served.waiting (served : Served reader s) (waits : s.Waits) :
    ∀ events, s.arrived[s.results.length]? = some events → ¬ reader.Complete events := by
  intro events there
  unfold Server.Waits at waits
  split at waits
  · exact absurd (List.getElem?_eq_some_iff.mp there).1 (Nat.not_lt.mpr waits)
  · case h_2 state read busy =>
    obtain ⟨others,same,inside,fed⟩ := served.current state read busy
    obtain rfl := Option.some.inj (there.symm.trans same)
    rw [Server.next,there] at waits
    have all : events.take read = events := List.take_of_length_le (List.getElem?_eq_none_iff.mp waits)
    rw [all] at fed
    rintro ⟨result,done⟩
    rw [fed] at done
    cases done

/-- While the worker waits, it has served a connection exactly if nothing is
    missing on it and on those before. -/
theorem Served.answered_iff (served : Served reader s) (waits : s.Waits) (k : Nat) :
    k < s.results.length ↔ ∀ j ≤ k, ∃ events, s.arrived[j]? = some events ∧ reader.Complete events := by
  constructor
  · intro inside j low
    obtain ⟨events,there,done⟩ := served.results j _ (List.getElem?_eq_getElem (low.trans_lt inside))
    exact ⟨events,there,_,done⟩
  · intro all
    by_contra outside
    obtain ⟨events,there,complete⟩ := all s.results.length (Nat.not_lt.mp outside)
    exact served.waiting waits events there complete

/-- What is left for the worker: connections, then events of the next one. -/
def Server.left (s : Server σ E R) : Nat ×ₗ Nat :=
  toLex (s.arrived.length - s.results.length,
    match s.current with
    | none => ((s.arrived[s.results.length]?).elim 0 List.length) + 1
    | some (_,read) => ((s.arrived[s.results.length]?).elim 0 List.length) - read)

theorem Served.left_work (served : Served reader s) (busy : ¬ s.Waits) : (s.work reader).left < s.left := by
  unfold Server.Waits at busy
  unfold Server.work
  split at busy
  · case h_1 idle =>
    rw [if_pos (Nat.not_le.mp busy)]
    refine Prod.Lex.toLex_lt_toLex.mpr (.inr ⟨rfl,?_⟩)
    dsimp only
    rw [idle]
    dsimp only
    omega
  · case h_2 state read now =>
    obtain ⟨event,next⟩ := Option.ne_none_iff_exists'.mp busy
    obtain ⟨events,there,-,-⟩ := served.current state read now
    have inside := (List.getElem?_eq_some_iff.mp there).1
    rw [next]
    dsimp only
    rw [Server.next,there] at next
    have short := (List.getElem?_eq_some_iff.mp next).1
    split
    · refine Prod.Lex.toLex_lt_toLex.mpr (.inr ⟨rfl,?_⟩)
      dsimp only
      rw [now,there]
      dsimp only [Option.elim]
      omega
    · refine Prod.Lex.toLex_lt_toLex.mpr (.inl ?_)
      dsimp only
      rw [List.length_append,List.length_singleton]
      omega

/-- Without anything new, the worker comes to wait. -/
theorem Served.settles (served : Served reader s) :
    ∃ count, (run (Server.step reader) s (List.replicate count .work)).Waits := by
  induction rest : s.left using WellFoundedLT.induction generalizing s with
  | ind left ih =>
    by_cases waits : s.Waits
    · exact ⟨0,waits⟩
    · obtain ⟨count,later⟩ := ih _ (rest ▸ served.left_work waits) served.work rfl
      exact ⟨count + 1,later⟩

/-- After any run the worker comes to wait, having served as it should. -/
theorem comes_to_wait (reader : Reader σ E R) (actions : List (Action E)) :
    ∃ count, (run (Server.step reader) .idle (actions ++ List.replicate count .work)).Waits ∧
      Served reader (run (Server.step reader) .idle (actions ++ List.replicate count .work)) := by
  obtain ⟨count,waits⟩ := (served_run reader actions).settles
  rw [← run_append] at waits
  exact ⟨count,waits,served_run reader _⟩

/-! ### Stopping -/

/-- A turn of a worker that has been told to stop: it reads on, and takes no other
    connection. -/
def Server.finish (reader : Reader σ E R) (s : Server σ E R) : Server σ E R :=
  if s.current.isSome then s.work reader else s

def Server.stopStep (reader : Reader σ E R) (s : Server σ E R) : Action E → Server σ E R
  | .work => s.finish reader
  | action => s.step reader action

/-- A turn of a worker that reads: it goes on, or there is a result. -/
theorem work_reading (busy : s.current.isSome = true) :
    (s.work reader).arrived = s.arrived ∧
      ((s.work reader).current.isSome = true ∧ (s.work reader).results = s.results ∨
        (s.work reader).current = none ∧ s.results.length < (s.work reader).results.length) := by
  obtain ⟨current,now⟩ := Option.isSome_iff_exists.mp busy
  obtain ⟨state,read⟩ := current
  unfold Server.work
  rw [now]
  dsimp only
  split
  · exact ⟨rfl,.inl ⟨busy,rfl⟩⟩
  · split
    · exact ⟨rfl,.inl ⟨rfl,rfl⟩⟩
    · exact ⟨rfl,.inr ⟨rfl,by simp⟩⟩

/-- The worker has been told to stop with some results, and is still reading, or
    has one more and is done. -/
structure Stopping (reader : Reader σ E R) (results : List R) (s : Server σ E R) : Prop where
  served : Served reader s
  place : s.current.isSome = true ∧ s.results = results ∨ s.current = none ∧ results.length < s.results.length

theorem Stopping.finish {results : List R} (stopping : Stopping reader results s) :
    Stopping reader results (s.finish reader) := by
  rw [Server.finish]
  split
  · case isTrue busy =>
    refine ⟨stopping.served.work,?_⟩
    rcases stopping.place with ⟨-,same⟩ | ⟨off,-⟩
    · exact same ▸ (work_reading busy).2
    · rw [off] at busy
      cases busy
  · exact stopping

theorem Stopping.step {results : List R} (stopping : Stopping reader results s) (action : Action E) :
    Stopping reader results (s.stopStep reader action) := by
  cases action with
  | connect => exact ⟨stopping.served.step .connect,stopping.place⟩
  | arrive connection event => exact ⟨stopping.served.step (.arrive connection event),stopping.place⟩
  | work => exact stopping.finish

theorem arrived_finish (s : Server σ E R) (count : Nat) :
    (run (Server.stopStep reader) s (List.replicate count .work)).arrived = s.arrived := by
  induction count generalizing s with
  | zero => rfl
  | succ count ih =>
    rw [List.replicate_succ,run_cons,ih]
    show (s.finish reader).arrived = s.arrived
    rw [Server.finish]
    split
    · case isTrue busy => exact (work_reading busy).1
    · rfl

/-- A worker with all of its connection before it reads it to the end. -/
theorem Served.finishes (served : Served reader s) (busy : s.current.isSome = true) {events : List E}
    (there : s.arrived[s.results.length]? = some events) (complete : reader.Complete events) :
    ∃ count, (run (Server.stopStep reader) s (List.replicate count .work)).current = none := by
  induction rest : s.left using WellFoundedLT.induction generalizing s with
  | ind left ih =>
    have goes : ¬ s.Waits := fun waits => served.waiting waits events there complete
    have turn : s.stopStep reader .work = s.work reader := if_pos busy
    obtain ⟨same,⟨still,results⟩ | ⟨off,-⟩⟩ := @work_reading _ _ _ reader s busy
    · obtain ⟨count,done⟩ := ih _ (rest ▸ served.left_work goes) served.work still (by rwa [same,results]) rfl
      exact ⟨count + 1,by rwa [List.replicate_succ,run_cons,turn]⟩
    · exact ⟨1,by rwa [List.replicate_one,run_cons,turn]⟩

/-- A worker that is told to stop while it reads, whatever arrives and whoever
    connects from then on, comes to an end exactly if nothing is missing on its
    connection. -/
theorem stops_iff (served : Served reader s) (busy : s.current.isSome = true) (later : List (Action E)) :
    (∃ count, (run (Server.stopStep reader) s (later ++ List.replicate count .work)).current = none) ↔
      ∃ events, (run (Server.stopStep reader) s later).arrived[s.results.length]? = some events ∧
        reader.Complete events := by
  have stopping : ∀ actions, Stopping reader s.results (run (Server.stopStep reader) s actions) := fun actions =>
    run_keeps (motive := Stopping reader s.results) (fun _ action stopping => stopping.step action) actions
      ⟨served,.inl ⟨busy,rfl⟩⟩
  constructor
  · rintro ⟨count,off⟩
    have last := stopping (later ++ List.replicate count .work)
    rcases last.place with ⟨still,-⟩ | ⟨-,more⟩
    · rw [off] at still
      cases still
    · obtain ⟨events,there,done⟩ := last.served.results _ _ (List.getElem?_eq_getElem more)
      rw [run_append,arrived_finish] at there
      exact ⟨events,there,_,done⟩
  · rintro ⟨events,there,complete⟩
    have middle := stopping later
    simp only [run_append]
    rcases middle.place with ⟨still,same⟩ | ⟨off,-⟩
    · exact middle.served.finishes still (by rwa [same]) complete
    · exact ⟨0,off⟩

end
end Serial
