import Mathlib.Data.List.Basic

/-!
A connection to a database whose statements can fail. A change outside of a
transaction takes effect at once, one inside when the transaction is committed;
a statement that fails has no effect, or takes the open transaction with it. A
client that puts its changes between a begin and a commit, and rolls back when
one fails, makes all of them or none (`access_spec`); but where the commit
itself fails the transaction is left open, and from then on nothing that the
client does reaches the disk (`Unfinished.access`).
-/
namespace Journal

/-- What is on disk, and what an open transaction has made of it. -/
structure Connection (S : Type) where
  committed : S
  working : Option S
  deriving DecidableEq

inductive Statement (S : Type) where
  | begin
  | commit
  | rollback
  | write (change : S → S)

/-- How a statement fares: it is executed, it fails, it fails and the open
    transaction is rolled back, or the process is killed before it. -/
inductive Attempt where
  | done
  | failed
  | aborted
  | killed
  deriving DecidableEq

inductive Reply where
  | ok
  | error
  | killed
  deriving DecidableEq

section
variable {S : Type}

/-- There is no transaction inside another, and none to end outside of one. -/
def Connection.exec (c : Connection S) (event : Attempt) (statement : Statement S) : Reply × Connection S :=
  match event with
  | .killed => (.killed,c)
  | .failed => (.error,c)
  | .aborted => (.error,{ c with working := none })
  | .done =>
    match statement,c.working with
    | .begin,none => (.ok,{ c with working := some c.committed })
    | .begin,some _ => (.error,c)
    | .commit,some state => (.ok,⟨state,none⟩)
    | .commit,none => (.error,c)
    | .rollback,some _ => (.ok,{ c with working := none })
    | .rollback,none => (.error,c)
    | .write change,some state => (.ok,{ c with working := some (change state) })
    | .write change,none => (.ok,⟨change c.committed,none⟩)

/-- The connection, and how the next statements will fare; those after them are
    executed. -/
structure Session (S : Type) where
  connection : Connection S
  events : List Attempt

namespace Session

def exec (s : Session S) (statement : Statement S) : Reply × Session S :=
  let (reply,connection) := s.connection.exec (s.events.headD .done) statement
  (reply,⟨connection,s.events.tail⟩)

/-- One change after another, up to the first that is not made. -/
def writes : Session S → List (S → S) → Reply × Session S
  | s, [] => (.ok,s)
  | s, change :: rest =>
    match s.exec (.write change) with
    | (.ok,s) => writes s rest
    | (reply,s) => (reply,s)

/-- The changes between a begin and a commit; a failure among them is answered by
    a rollback, whose own failure is ignored. -/
def transaction (s : Session S) (changes : List (S → S)) : Reply × Session S :=
  match s.exec .begin with
  | (.ok,s) =>
    match s.writes changes with
    | (.ok,s) => s.exec .commit
    | (.error,s) =>
      match s.exec .rollback with
      | (.killed,s) => (.killed,s)
      | (_,s) => (.error,s)
    | (.killed,s) => (.killed,s)
  | (reply,s) => (reply,s)

/-- What a client asks for: a change on its own, or several in a transaction. -/
inductive Access (S : Type) where
  | single (change : S → S)
  | transaction (changes : List (S → S))

def Access.changes : Access S → List (S → S)
  | .single change => [change]
  | .transaction changes => changes

def access (s : Session S) : Access S → Reply × Session S
  | .single change => s.exec (.write change)
  | .transaction changes => s.transaction changes

/-- What the disk holds. -/
def disk (s : Session S) : S := s.connection.committed

/-! ### All or nothing -/

variable {s : Session S} {state : S} {changes : List (S → S)} {statement : Statement S}

/-- What a statement that is no commit does inside of a transaction. -/
theorem exec_inside (working : s.connection.working = some state) (other : statement ≠ .commit) :
    (s.exec statement).2.disk = s.disk := by
  obtain ⟨⟨committed,_⟩,events⟩ := s
  cases working
  rcases fares : events.headD .done with _ | _ | _ | _
  all_goals simp only [exec,Connection.exec,fares,disk]
  cases statement with
  | begin => rfl
  | commit => exact absurd rfl other
  | rollback => rfl
  | write change => rfl

theorem exec_write (working : s.connection.working = some state) (change : S → S)
    (ok : (s.exec (.write change)).1 = .ok) : (s.exec (.write change)).2.connection.working = some (change state) := by
  obtain ⟨⟨committed,_⟩,events⟩ := s
  cases working
  rcases fares : events.headD .done with _ | _ | _ | _
  all_goals simp only [exec,Connection.exec,fares] at ok ⊢
  all_goals cases ok

/-- Only a change and a commit can reach the disk. -/
theorem exec_quiet (commit : statement ≠ .commit) (write : ∀ change, statement ≠ .write change) :
    (s.exec statement).2.disk = s.disk := by
  obtain ⟨⟨committed,working⟩,events⟩ := s
  rcases fares : events.headD .done with _ | _ | _ | _
  all_goals simp only [exec,Connection.exec,fares,disk]
  cases statement with
  | begin => cases working <;> rfl
  | commit => exact absurd rfl commit
  | rollback => cases working <;> rfl
  | write change => exact absurd rfl (write change)

/-- A change outside of a transaction is made on disk, or not at all. -/
theorem exec_alone (closed : s.connection.working = none) (change : S → S) :
    ((s.exec (.write change)).1 = .ok ∧ (s.exec (.write change)).2.connection = ⟨change s.disk,none⟩)
      ∨ ((s.exec (.write change)).1 ≠ .ok ∧ (s.exec (.write change)).2.connection = s.connection) := by
  obtain ⟨⟨committed,_⟩,events⟩ := s
  cases closed
  rcases fares : events.headD .done with _ | _ | _ | _
  all_goals simp only [exec,Connection.exec,fares,disk]
  all_goals simp

theorem exec_begin (ok : (s.exec .begin).1 = .ok) : (s.exec .begin).2.connection.working = some s.disk := by
  obtain ⟨⟨committed,working⟩,events⟩ := s
  rcases fares : events.headD .done with _ | _ | _ | _
  all_goals cases working
  all_goals simp only [exec,Connection.exec,fares,disk] at ok ⊢
  all_goals cases ok

theorem exec_commit (working : s.connection.working = some state) :
    ((s.exec .commit).1 = .ok ∧ (s.exec .commit).2.connection = ⟨state,none⟩)
      ∨ ((s.exec .commit).1 ≠ .ok ∧ (s.exec .commit).2.disk = s.disk) := by
  obtain ⟨⟨committed,_⟩,events⟩ := s
  cases working
  rcases fares : events.headD .done with _ | _ | _ | _
  all_goals simp only [exec,Connection.exec,fares,disk]
  all_goals simp

/-- The changes inside of a transaction leave the disk as it is; where all are
    made, the transaction holds them in their order. -/
theorem writes_inside (working : s.connection.working = some state) :
    (s.writes changes).2.disk = s.disk
      ∧ ((s.writes changes).1 = .ok →
          (s.writes changes).2.connection.working = some (changes.foldl (fun state change => change state) state)) := by
  induction changes generalizing s state with
  | nil => exact ⟨rfl,fun _ => working⟩
  | cons change rest ih =>
    have same : (s.exec (.write change)).2.disk = s.disk := exec_inside working nofun
    have made := exec_write working change
    unfold writes
    generalize s.exec (.write change) = wrote at same made ⊢
    obtain ⟨_ | _ | _,next⟩ := wrote
    · obtain ⟨kept,held⟩ := ih (made rfl)
      exact ⟨kept.trans same,held⟩
    all_goals exact ⟨same,nofun⟩

/-- A transaction makes all of its changes on disk and says so, or makes none. -/
theorem transaction_spec (s : Session S) (changes : List (S → S)) :
    ((s.transaction changes).1 = .ok
        ∧ (s.transaction changes).2.connection = ⟨changes.foldl (fun state change => change state) s.disk,none⟩)
      ∨ ((s.transaction changes).1 ≠ .ok ∧ (s.transaction changes).2.disk = s.disk) := by
  have begun := @exec_begin _ s
  have same : (s.exec .begin).2.disk = s.disk := exec_quiet nofun nofun
  unfold transaction
  generalize s.exec .begin = began at begun same ⊢
  obtain ⟨_ | _ | _,first⟩ := began
  all_goals dsimp only at begun same ⊢
  · obtain ⟨kept,held⟩ := @writes_inside _ first _ changes (begun rfl)
    generalize first.writes changes = wrote at kept held ⊢
    obtain ⟨_ | _ | _,second⟩ := wrote
    all_goals dsimp only at kept held ⊢
    · rcases exec_commit (held rfl) with done | ⟨refused,left⟩
      · exact .inl done
      · exact .inr ⟨refused,left.trans (kept.trans same)⟩
    · have left : (second.exec .rollback).2.disk = second.disk := exec_quiet nofun nofun
      generalize second.exec .rollback = ended at left ⊢
      obtain ⟨_ | _ | _,third⟩ := ended
      all_goals exact .inr ⟨nofun,left.trans (kept.trans same)⟩
    · exact .inr ⟨nofun,kept.trans same⟩
  all_goals exact .inr ⟨nofun,same⟩

/-! ### An access as a sequence of statements -/

section
variable {R : Session S → Session S → Prop} (refl : ∀ s, R s s) (trans : ∀ {s s' s''}, R s s' → R s' s'' → R s s'')
include refl trans

theorem writes_steps (step : ∀ s, ∀ change ∈ changes, R s (s.exec (.write change)).2) (s : Session S) :
    R s (s.writes changes).2 := by
  induction changes generalizing s with
  | nil => exact refl s
  | cons change rest ih =>
    have first := step s change List.mem_cons_self
    unfold writes
    generalize s.exec (.write change) = wrote at first ⊢
    obtain ⟨_ | _ | _,next⟩ := wrote
    · exact trans first (ih (fun s other member => step s other (List.mem_cons_of_mem _ member)) next)
    all_goals exact first

/-- What each statement does, an access does. -/
theorem access_steps (access : Access S)
    (step : ∀ s statement, (∀ change, statement = .write change → change ∈ access.changes) → R s (s.exec statement).2)
    (s : Session S) : R s (s.access access).2 := by
  cases access with
  | single change => exact step s _ fun other same => Statement.write.inj same ▸ List.mem_cons_self
  | transaction changes =>
    have begun := step s .begin nofun
    unfold Session.access transaction
    generalize s.exec .begin = began at begun ⊢
    obtain ⟨_ | _ | _,first⟩ := began
    all_goals dsimp only at begun ⊢
    · have wrote : R s (first.writes changes).2 := trans begun (writes_steps refl trans
        (fun s change member => step s _ fun other same => Statement.write.inj same ▸ member) first)
      generalize first.writes changes = written at wrote ⊢
      obtain ⟨_ | _ | _,second⟩ := written
      all_goals dsimp only at wrote ⊢
      · exact trans wrote (step second .commit nofun)
      · have ended := trans wrote (step second .rollback nofun)
        generalize second.exec .rollback = rolled at ended ⊢
        obtain ⟨_ | _ | _,third⟩ := rolled
        all_goals exact ended
      · exact wrote
    all_goals exact begun

end

/-- Where no transaction is open, the changes are all made or none is. -/
theorem access_spec (closed : s.connection.working = none) (access : Access S) :
    ((s.access access).1 = .ok
        ∧ (s.access access).2.connection = ⟨access.changes.foldl (fun state change => change state) s.disk,none⟩)
      ∨ ((s.access access).1 ≠ .ok ∧ (s.access access).2.disk = s.disk) := by
  cases access with
  | single change =>
    exact (exec_alone closed change).imp_right fun refused => ⟨refused.1,congrArg Connection.committed refused.2⟩
  | transaction changes => exact transaction_spec s changes

theorem writes_done (committed state : S) (changes : List (S → S)) :
    (⟨⟨committed,some state⟩,[]⟩ : Session S).writes changes =
      (.ok,⟨⟨committed,some (changes.foldl (fun state change => change state) state)⟩,[]⟩) := by
  induction changes generalizing state with
  | nil => rfl
  | cons change rest ih => exact ih (change state)

/-- Without failures all changes are made. -/
theorem access_done (committed : S) (access : Access S) :
    (⟨⟨committed,none⟩,[]⟩ : Session S).access access =
      (.ok,⟨⟨access.changes.foldl (fun state change => change state) committed,none⟩,[]⟩) := by
  cases access with
  | single change => rfl
  | transaction changes =>
    have begun : (⟨⟨committed,none⟩,[]⟩ : Session S).exec .begin = (.ok,⟨⟨committed,some committed⟩,[]⟩) := rfl
    rw [Session.access,transaction,begun]
    dsimp only
    rw [writes_done]
    rfl

/-! ### A transaction that is left open -/

/-- The statements of an access are the next ones of the session. -/
theorem access_events (access : Access S) : (s.access access).2.events <:+ s.events :=
  access_steps (R := fun s s' => s'.events <:+ s.events) (fun _ => List.suffix_rfl)
    (fun first second => second.trans first) access (fun _ _ _ => List.tail_suffix _) s

/-- A transaction is open, and no failure will take it back. -/
structure Unfinished (s : Session S) : Prop where
  inside : s.connection.working.isSome
  plain : ∀ event ∈ s.events, event = .done ∨ event = .failed

theorem plain_head {events : List Attempt} (plain : ∀ event ∈ events, event = .done ∨ event = .failed) :
    events.headD .done = .done ∨ events.headD .done = .failed := by
  cases events with
  | nil => exact .inl rfl
  | cons event rest => exact plain event List.mem_cons_self

theorem Unfinished.exec_begin (unfinished : Unfinished s) :
    (s.exec .begin).1 = .error ∧ Unfinished (s.exec .begin).2 := by
  obtain ⟨⟨committed,_ | state⟩,events⟩ := s
  · cases unfinished.inside
  have later : ∀ event ∈ events.tail, event = .done ∨ event = .failed :=
    fun event member => unfinished.plain event (List.mem_of_mem_tail member)
  rcases plain_head unfinished.plain with fares | fares
  all_goals simp only at fares
  all_goals simp only [exec,Connection.exec,fares]
  all_goals exact ⟨trivial,rfl,later⟩

theorem Unfinished.exec_write (unfinished : Unfinished s) (change : S → S) :
    Unfinished (s.exec (.write change)).2 := by
  obtain ⟨⟨committed,_ | state⟩,events⟩ := s
  · cases unfinished.inside
  have later : ∀ event ∈ events.tail, event = .done ∨ event = .failed :=
    fun event member => unfinished.plain event (List.mem_of_mem_tail member)
  rcases plain_head unfinished.plain with fares | fares
  all_goals simp only at fares
  all_goals simp only [exec,Connection.exec,fares]
  all_goals exact ⟨rfl,later⟩

/-- Once a transaction is left open nothing reaches the disk: a change becomes
    part of it, and another transaction cannot begin. -/
theorem Unfinished.access (unfinished : Unfinished s) (access : Access S) :
    Unfinished (s.access access).2 ∧ (s.access access).2.disk = s.disk := by
  obtain ⟨state,working⟩ := Option.isSome_iff_exists.mp unfinished.inside
  cases access with
  | single change => exact ⟨unfinished.exec_write change,exec_inside working nofun⟩
  | transaction changes =>
    obtain ⟨refused,still⟩ := unfinished.exec_begin
    have same : (s.exec .begin).2.disk = s.disk := exec_quiet nofun nofun
    unfold Session.access transaction
    generalize s.exec .begin = began at refused still same ⊢
    obtain ⟨reply,next⟩ := began
    cases refused
    exact ⟨still,same⟩

/-! ### What every change keeps -/

/-- A property of the disk and of what an open transaction has made of it. -/
structure Both (T : S → Prop) (s : Session S) : Prop where
  disk : T s.disk
  working : ∀ state, s.connection.working = some state → T state

section
variable {T : S → Prop}

theorem Both.exec (both : Both T s)
    (keeps : ∀ change, statement = .write change → ∀ state, T state → T (change state)) : Both T (s.exec statement).2 := by
  obtain ⟨⟨committed,working⟩,events⟩ := s
  rcases fares : events.headD .done with _ | _ | _ | _
  all_goals simp only [Session.exec,Connection.exec,fares]
  · cases statement with
    | begin =>
      cases working with
      | none => exact ⟨both.disk,fun state same => Option.some.inj same ▸ both.disk⟩
      | some state => exact ⟨both.disk,both.working⟩
    | commit =>
      cases working with
      | none => exact ⟨both.disk,both.working⟩
      | some state => exact ⟨both.working state rfl,nofun⟩
    | rollback =>
      cases working with
      | none => exact ⟨both.disk,both.working⟩
      | some state => exact ⟨both.disk,nofun⟩
    | write change =>
      cases working with
      | none => exact ⟨keeps change rfl _ both.disk,nofun⟩
      | some state =>
        exact ⟨both.disk,fun next same => Option.some.inj same ▸ keeps change rfl state (both.working state rfl)⟩
  · exact ⟨both.disk,both.working⟩
  · exact ⟨both.disk,nofun⟩
  · exact ⟨both.disk,both.working⟩

/-- What every single change keeps holds on disk and in an open transaction,
    however the statements fare. -/
theorem Both.access (both : Both T s) (access : Access S)
    (keeps : ∀ change ∈ access.changes, ∀ state, T state → T (change state)) : Both T (s.access access).2 :=
  access_steps (R := fun s s' => Both T s → Both T s') (fun _ both => both)
    (fun first second both => second (first both)) access
    (fun _ _ own both => both.exec fun change same => keeps change (own change same)) s both

end
end Session
end
end Journal
