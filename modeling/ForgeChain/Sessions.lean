import ForgeChain.Leases
import ForgeChain.Sync

/-!
Catch-up sessions. A caller that starts one sends its `GETBLOCKS` outside the
lock; meanwhile blocks are buffered, the session can end and another can start.
The steps under `sync_mutex_` are taken one at a time, in any order. The buffer
is leased to one session after another (`Leases`): its blocks go to
`adopt_branch` or are thrown away as a whole, at most once. A send that fails
resets whatever session is current, so another's blocks are lost exactly when
some are there (`isolated_iff`).
-/
namespace ForgeChain
open Runs Leases

/-- `SYNC_IDLE_TIMEOUT`, in nanoseconds. -/
def syncIdleTimeout : Int := 300000000

/-- A session's peer is its connection. -/
structure SyncState where
  active : Bool
  peer : Option Nat
  buffer : List Block
  lastBlock : Int
  deriving DecidableEq

namespace SyncState

/-- `SyncState{}`. -/
def idle : SyncState := ⟨false,none,[],0⟩

def startSyncState (s : SyncState) (peer now : Nat) : Bool × SyncState :=
  if s.active then (false,s) else (true,⟨true,some peer,[],now⟩)

def resetSyncState (_ : SyncState) : SyncState := idle

/-- The session is with this peer. -/
def With (s : SyncState) (peer : Nat) : Prop := s.active = true ∧ s.peer = some peer

instance (s : SyncState) (peer : Nat) : Decidable (s.With peer) := inferInstanceAs (Decidable (_ ∧ _))

/-- The part of `handle_block` under the lock; none if the block is not for the
    session. A full buffer is due at once. -/
def bufferBlock (P : Primitives) (s : SyncState) (peer : Nat) (payload : Bytes) (now : Nat) : Option SyncState :=
  if s.With peer then
    match Block.deserialize P payload with
    | none => some s
    | some block =>
      let buffer := s.buffer ++ [block]
      let lastBlock : Int := if buffer.length ≥ Sync.maxBlocksPerResponse then now - syncIdleTimeout else now
      some { s with buffer,lastBlock }
  else none

/-- The session's peer is gone, or has been quiet for too long. -/
def Due (s : SyncState) (alive : Bool) (now : Nat) : Prop :=
  (s.peer = none ∨ alive = false) ∨ now - s.lastBlock > syncIdleTimeout

instance (s : SyncState) (alive : Bool) (now : Nat) : Decidable (s.Due alive now) := inferInstanceAs (Decidable (_ ∨ _))

/-- The blocks for `adopt_branch`, if it is called, and the state left. -/
def finishSyncIfDue (s : SyncState) (alive : Bool) (now : Nat) : Option (List Block) × SyncState :=
  if s.active = false then (none,s)
  else if ¬ s.Due alive now then (none,s)
  else (if s.buffer.isEmpty then none else some s.buffer,idle)

end SyncState

/-- The shared state, the number of sessions started so far, the sessions whose
    `GETBLOCKS` is on its way, and what became of the blocks. -/
structure Sessions where
  syncState : SyncState
  session : Nat
  sending : List Nat
  log : List (Leases.Event Block)
  deriving DecidableEq

namespace Sessions

def start : Sessions := ⟨.idle,0,[],[]⟩

inductive Action where
  | start (peer now : Nat)
  | sent (session : Nat)
  | failed (session : Nat)
  | deliver (peer : Nat) (payload : Bytes) (now : Nat)
  | finish (alive : Bool) (now : Nat)

/-- One step of `request_sync` or `register_new_peer` for a session, of a peer's
    thread or of the cleaner. -/
def step (P : Primitives) (t : Sessions) : Action → Sessions
  | .start peer now =>
    match t.syncState.startSyncState peer now with
    | (false,_) => t
    | (true,syncState) =>
      ⟨syncState,t.session + 1,(t.session + 1) :: t.sending,
        t.log ++ ending t.syncState.buffer (.dropped t.session (t.session + 1) t.syncState.buffer)⟩
  | .sent session => { t with sending := t.sending.erase session }
  | .failed session =>
    if session ∈ t.sending then
      { t with
        syncState := t.syncState.resetSyncState
        sending := t.sending.erase session
        log := t.log ++ ending t.syncState.buffer (.dropped t.session session t.syncState.buffer) }
    else t
  | .deliver peer payload now =>
    match t.syncState.bufferBlock P peer payload now with
    | none => t
    | some syncState =>
      { t with syncState,log := t.log ++ (syncState.buffer.drop t.syncState.buffer.length).map (.put t.session) }
  | .finish alive now =>
    match t.syncState.finishSyncIfDue alive now with
    | (none,syncState) => { t with syncState }
    | (some blocks,syncState) => { t with syncState,log := t.log ++ [.handed t.session blocks] }

/-- The lease on the buffer. -/
def lease (t : Sessions) : Leases.State Block :=
  ⟨t.session,if t.syncState.active = true then some t.syncState.buffer else none,t.log⟩

/-- What a step does to the lease. -/
def moves (P : Primitives) (t : Sessions) : Action → List (Leases.Step Block)
  | .start _ _ => [.openNew]
  | .sent _ => []
  | .failed session => if session ∈ t.sending then [.drop session] else []
  | .deliver peer payload _ => if t.syncState.With peer then (Block.deserialize P payload).toList.map .put else []
  | .finish alive now => if t.syncState.Due alive now then [.hand] else []

variable {P : Primitives} {t : Sessions}

/-- Between sessions nothing is buffered. -/
def Tidy (t : Sessions) : Prop := t.syncState.active = false → t.syncState.buffer = []

theorem failed_syncState {session : Nat} (waiting : session ∈ t.sending) :
    (t.step P (.failed session)).syncState = .idle := by
  rw [step,if_pos waiting]
  rfl

theorem lease_idle (tidy : t.Tidy) (idle : t.syncState.active = false) :
    t.lease = ⟨t.session,none,t.log⟩ ∧ t.syncState.buffer = [] := by
  refine ⟨?_,tidy idle⟩
  simp [lease,idle]

theorem lease_active (active : t.syncState.active = true) : t.lease = ⟨t.session,some t.syncState.buffer,t.log⟩ := by
  simp [lease,active]

/-- Each step moves the lease, and leaves nothing behind between sessions. -/
theorem lease_step (tidy : t.Tidy) (action : Action) :
    (t.step P action).lease = run Leases.step t.lease (t.moves P action) ∧ (t.step P action).Tidy := by
  cases action with
  | start peer now =>
    cases active : t.syncState.active with
    | true =>
      have stays : t.step P (.start peer now) = t := by simp [step,SyncState.startSyncState,active]
      rw [stays]
      exact ⟨by simp [moves,lease_active active,Leases.step],tidy⟩
    | false =>
      obtain ⟨free,empty⟩ := lease_idle tidy active
      have opens : t.step P (.start peer now) =
          ⟨⟨true,some peer,[],now⟩,t.session + 1,(t.session + 1) :: t.sending,t.log⟩ := by
        simp [step,SyncState.startSyncState,active,empty,ending]
      rw [opens]
      refine ⟨?_,fun idle => absurd idle.symm Bool.false_ne_true⟩
      rw [moves,free]
      rfl
  | sent session => exact ⟨rfl,tidy⟩
  | failed session =>
    by_cases waiting : session ∈ t.sending
    · simp only [step,moves,waiting,if_true,run_cons,run_nil]
      refine ⟨?_,fun _ => rfl⟩
      cases active : t.syncState.active with
      | true => simp [lease,active,Leases.step,SyncState.resetSyncState,SyncState.idle]
      | false => simp [lease,active,tidy active,Leases.step,SyncState.resetSyncState,SyncState.idle,ending]
    · simp only [step,moves,waiting,if_false,run_nil]
      exact ⟨trivial,tidy⟩
  | deliver peer payload now =>
    by_cases ours : t.syncState.With peer
    · rcases block : Block.deserialize P payload with _ | block
      · simp only [step,moves,SyncState.bufferBlock,ours,block,if_true,List.drop_length,List.map_nil,List.append_nil]
        exact ⟨rfl,tidy⟩
      · simp only [step,moves,SyncState.bufferBlock,ours,block,if_true,List.drop_left,List.map_cons,List.map_nil]
        refine ⟨?_,fun idle => absurd (idle.symm.trans ours.1) Bool.false_ne_true⟩
        simp [lease,ours.1,Leases.step]
    · simp only [step,moves,SyncState.bufferBlock,ours,if_false,run_nil]
      exact ⟨trivial,tidy⟩
  | finish alive now =>
    by_cases due : t.syncState.Due alive now
    · rw [moves,if_pos due,run_cons,run_nil]
      cases active : t.syncState.active with
      | false =>
        have stays : t.step P (.finish alive now) = t := by simp [step,SyncState.finishSyncIfDue,active]
        rw [stays,(lease_idle tidy active).1]
        exact ⟨rfl,tidy⟩
      | true =>
        rw [lease_active active]
        -- Without blocks the session ends and `adopt_branch` is not called.
        rcases held : t.syncState.buffer with _ | ⟨first,rest⟩
        · have ends : t.step P (.finish alive now) = { t with syncState := .idle } := by
            simp [step,SyncState.finishSyncIfDue,active,due,held]
          rw [ends]
          exact ⟨by simp [lease,SyncState.idle,Leases.step,ending],fun _ => rfl⟩
        · have ends : t.step P (.finish alive now) =
              { t with syncState := .idle,log := t.log ++ [.handed t.session (first :: rest)] } := by
            simp [step,SyncState.finishSyncIfDue,active,due,held]
          rw [ends]
          exact ⟨by simp [lease,SyncState.idle,Leases.step,ending],fun _ => rfl⟩
    · have stays : t.step P (.finish alive now) = t := by simp [step,SyncState.finishSyncIfDue,due]
      rw [stays,moves,if_neg due]
      exact ⟨rfl,tidy⟩

/-! ### Runs -/

/-- Each session's blocks are handed on or thrown away as a whole and at most
    once, and thrown away only as its own send fails. -/
structure Isolated (t : Sessions) : Prop where
  settled : ∀ session, Settled t.lease session
  own : Own t.log

/-- A send fails while nothing is buffered or the session is still its own. -/
def Orderly (t : Sessions) : Action → Prop
  | .failed session => session ∈ t.sending → t.syncState.buffer ≠ [] → session = t.session
  | _ => True

instance (t : Sessions) : (action : Action) → Decidable (Orderly t action)
  | .failed session => inferInstanceAs (Decidable (session ∈ t.sending → t.syncState.buffer ≠ [] → session = t.session))
  | .start _ _ => .isTrue trivial
  | .sent _ => .isTrue trivial
  | .deliver _ _ _ => .isTrue trivial
  | .finish _ _ => .isTrue trivial

theorem fair_moves (tidy : t.Tidy) (action : Action) :
    Along Leases.step Fair t.lease (t.moves P action) ↔ Orderly t action := by
  cases action with
  | start peer now => simp [moves,Along,Fair,Orderly]
  | sent session => simp [moves,Along,Orderly]
  | failed session =>
    have contents : t.lease.contents.getD [] = t.syncState.buffer := by
      cases active : t.syncState.active with
      | true => rw [lease_active active]; rfl
      | false =>
        obtain ⟨free,empty⟩ := lease_idle tidy active
        rw [free,empty]
        rfl
    by_cases waiting : session ∈ t.sending
    · simp only [moves,waiting,if_true,Along,and_true,Fair,contents,Orderly,forall_const]
      rfl
    · simp [moves,waiting,Along,Orderly]
  | deliver peer payload now =>
    by_cases ours : t.syncState.With peer
    · rcases block : Block.deserialize P payload with _ | block
      · simp [moves,ours,block,Along,Orderly]
      · simp [moves,ours,block,Along,Fair,Orderly]
    · simp [moves,ours,Along,Orderly]
  | finish alive now =>
    by_cases due : t.syncState.Due alive now
    · simp [moves,due,Along,Fair,Orderly]
    · simp [moves,due,Along,Orderly]

theorem own_run (tidy : t.Tidy) (actions : List Action) :
    Own (run (step P) t actions).log ↔ Own t.log ∧ Along (step P) Orderly t actions := by
  induction actions generalizing t with
  | nil => simp [Along]
  | cons action rest ih =>
    obtain ⟨moved,tidy'⟩ := lease_step (P := P) tidy action
    have first : Own (t.step P action).log ↔ Own t.log ∧ Orderly t action := by
      have own := own_run_iff (s := t.lease) (t.moves P action)
      rw [← moved,fair_moves tidy] at own
      exact own
    rw [run_cons,ih tidy',first,Along,and_assoc]

theorem settled_sessions (P : Primitives) (actions : List Action) :
    (run (step P) start actions).Tidy ∧ ∀ session, Settled (run (step P) start actions).lease session := by
  have kept : ∀ t action, Tidy t ∧ (∀ session, Settled t.lease session) →
      Tidy (t.step P action) ∧ ∀ session, Settled (t.step P action).lease session := by
    rintro t action ⟨tidy,settled⟩
    obtain ⟨moved,tidy'⟩ := lease_step (P := P) tidy action
    refine ⟨tidy',?_⟩
    rw [moved]
    exact run_keeps (motive := fun s => ∀ session, Settled s session) (fun s move settled => settled_step settled move)
      (t.moves P action) settled
  have first : Tidy start ∧ ∀ session, Settled start.lease session := ⟨fun _ => rfl,settled_run []⟩
  exact run_keeps kept actions first

/-- The sessions of a run are isolated exactly if each send that fails does so
    while nothing is buffered or while its own session is the current one. -/
theorem isolated_iff (P : Primitives) (actions : List Action) :
    Isolated (run (step P) start actions) ↔ Along (step P) Orderly start actions := by
  have own := own_run (P := P) (t := start) (fun _ => rfl) actions
  constructor
  · intro isolated
    exact (own.mp isolated.own).2
  · intro orderly
    exact ⟨(settled_sessions P actions).2,own.mpr ⟨own_nil,orderly⟩⟩

/-- The first session's peer does not answer. The session times out while its
    send still blocks, another starts and gets a block; then the send fails. -/
def overtaken : List Action :=
  [.start 1 0,.finish true 300000001,.start 2 300000002,.deliver 2 Samples.plainA.serialize 300000003,.failed 1]

theorem overtaken_cancels :
    (run (step Samples.sample) start overtaken).log = [.put 2 Samples.plainA,.dropped 2 1 [Samples.plainA]] ∧
      ¬ Isolated (run (step Samples.sample) start overtaken) := by
  have log : (run (step Samples.sample) start overtaken).log =
      [.put 2 Samples.plainA,.dropped 2 1 [Samples.plainA]] := by decide +kernel
  refine ⟨log,fun isolated => ?_⟩
  have own := isolated.own
  rw [log] at own
  exact absurd (own 2 1 [Samples.plainA] (by simp)) (by decide)

end Sessions
end ForgeChain
