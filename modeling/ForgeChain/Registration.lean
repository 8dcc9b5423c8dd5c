import ForgeChain.Payloads
import ForgeChain.Slots
import Mathlib.Data.List.Nodup

/-!
Registering connections. After the handshake a node looks for a live peer of the
same host and port; finding one, it keeps the new connection if the side with
the lower id dialed it, and the old one if not. Both sides of a connection come
to the same answer about the new connection, but not about the old one: the
rule does not ask who dialed that. What two nodes do with the connections
between them is the holding of one offer (`Slots`), where the strong offers are
the connections that the side with the lower id dialed.
-/
namespace ForgeChain
open Runs Slots

/-- A peer's connection, what it said of itself, and the host it was met at. -/
structure Peer where
  socket : Nat
  remoteVersion : VersionInfo
  host : Bytes
  alive : Bool
  deriving DecidableEq

structure PeerEntry where
  peer : Peer
  isOutbound : Bool
  deriving DecidableEq

structure Node where
  info : VersionInfo
  peers : List PeerEntry
  stopping : Bool
  deriving DecidableEq

def PeerEntry.markDead (entry : PeerEntry) : PeerEntry := { entry with peer := { entry.peer with alive := false } }

/-- The entry that the loop in `register_new_peer` does not pass over. -/
def PeerEntry.Matches (host : Bytes) (port : UInt16) (entry : PeerEntry) : Prop :=
  (entry.peer.alive = true ∧ entry.peer.remoteVersion.listenPort ≠ 0) ∧
    entry.peer.host = host ∧ entry.peer.remoteVersion.listenPort = port

instance (host : Bytes) (port : UInt16) (entry : PeerEntry) : Decidable (entry.Matches host port) :=
  inferInstanceAs (Decidable (_ ∧ _))

namespace Node

/-- The loop over the peers: whether the new connection is accepted, the peers
    with the old one marked dead, and the connection closed. -/
def resolveDuplicate (host : Bytes) (port : UInt16) (keepNew : Bool) :
    List PeerEntry → Bool × List PeerEntry × List Nat
  | [] => (true,[],[])
  | entry :: rest =>
    if entry.Matches host port then
      if keepNew then (true,entry.markDead :: rest,[entry.peer.socket]) else (false,entry :: rest,[])
    else
      let (accepted,rest,closed) := resolveDuplicate host port keepNew rest
      (accepted,entry :: rest,closed)

/-- `register_new_peer` with what the handshake returned: whether the connection
    is kept, the node, and the connections closed. One that is not kept is
    closed as its socket is destroyed. -/
def registerNewPeer (node : Node) (socket : Nat) (host : Bytes) (isOutbound : Bool)
    (incomingInfo : Option VersionInfo) : Bool × Node × List Nat :=
  match incomingInfo with
  | none => (false,node,[socket])
  | some incoming =>
    if node.info.nodeId = incoming.nodeId then (false,node,[socket])
    else if node.stopping then (false,node,[socket])
    else
      let keepNew := decide (node.info.nodeId < incoming.nodeId) == isOutbound
      match resolveDuplicate host incoming.listenPort keepNew node.peers with
      | (false,_,_) => (false,node,[socket])
      | (true,peers,closed) =>
        (true,{ node with peers := peers ++ [⟨⟨socket,incoming,host,true⟩,isOutbound⟩] },closed)

/-- `peer_loop` fails to receive and gives the connection up. -/
def markDead (node : Node) (socket : Nat) : Node :=
  { node with peers := node.peers.map fun entry => if entry.peer.socket = socket then entry.markDead else entry }

/-- One turn of `cleaner_loop`. -/
def clean (node : Node) : Node := { node with peers := node.peers.filter (·.peer.alive) }

/-- The connections of the live peers of a host and port. -/
def live (node : Node) (host : Bytes) (port : UInt16) : List Nat :=
  (node.peers.filter (·.Matches host port)).map (·.peer.socket)

variable {node : Node} {host : Bytes} {port : UInt16}

theorem resolveDuplicate_none {peers : List PeerEntry} {keepNew : Bool}
    (none : peers.filter (·.Matches host port) = []) : resolveDuplicate host port keepNew peers = (true,peers,[]) := by
  induction peers with
  | nil => rfl
  | cons entry rest ih =>
    rw [List.filter_cons] at none
    split at none
    · cases none
    · case isFalse other =>
      rw [decide_eq_true_eq] at other
      rw [resolveDuplicate,if_neg other,ih none]

/-- The first match loses its place to the new connection, or keeps it. -/
theorem resolveDuplicate_some {peers : List PeerEntry} (keepNew : Bool) {entry : PeerEntry} {others : List PeerEntry}
    (found : peers.filter (·.Matches host port) = entry :: others) :
    ∃ left, left.filter (·.Matches host port) = others ∧
      resolveDuplicate host port keepNew peers =
        if keepNew then (true,left,[entry.peer.socket]) else (false,peers,[]) := by
  induction peers with
  | nil => cases found
  | cons first rest ih =>
    rw [List.filter_cons] at found
    split at found
    · case isTrue same =>
      cases found
      rw [decide_eq_true_eq] at same
      have dead : ¬ entry.markDead.Matches host port := fun alive => Bool.false_ne_true alive.1.1
      refine ⟨entry.markDead :: rest,?_,?_⟩
      · rw [List.filter_cons,if_neg (by simpa using dead)]
      · rw [resolveDuplicate,if_pos same]
    · case isFalse other =>
      rw [decide_eq_true_eq] at other
      obtain ⟨left,matching,result⟩ := ih found
      refine ⟨first :: left,?_,?_⟩
      · rw [List.filter_cons,if_neg (by simpa using other),matching]
      · rw [resolveDuplicate,if_neg other,result]
        cases keepNew with
        | true => rfl
        | false => rfl

/-- What a node that has heard a peer with another id does with the connection:
    it takes the place of a live one, or goes to a free one, or is closed. -/
inductive Registered (node : Node) (socket : Nat) (host : Bytes) (isOutbound : Bool) (incoming : VersionInfo) :
    Bool × Node × List Nat → Prop
  | added {after : Node} (free : node.live host incoming.listenPort = [])
      (live : after.live host incoming.listenPort = [socket]) (info : after.info = node.info)
      (stopping : after.stopping = node.stopping) :
      Registered node socket host isOutbound incoming (true,after,[])
  | replaced {after : Node} {old : Nat} {others : List Nat} (found : node.live host incoming.listenPort = old :: others)
      (wins : (decide (node.info.nodeId < incoming.nodeId) == isOutbound) = true)
      (live : after.live host incoming.listenPort = others ++ [socket]) (info : after.info = node.info)
      (stopping : after.stopping = node.stopping) :
      Registered node socket host isOutbound incoming (true,after,[old])
  | dropped {old : Nat} {others : List Nat} (found : node.live host incoming.listenPort = old :: others)
      (loses : (decide (node.info.nodeId < incoming.nodeId) == isOutbound) = false) :
      Registered node socket host isOutbound incoming (false,node,[socket])

theorem registerNewPeer_cases {socket : Nat} {isOutbound : Bool} {incoming : VersionInfo}
    (stranger : node.info.nodeId ≠ incoming.nodeId) (running : node.stopping = false)
    (listens : incoming.listenPort ≠ 0) :
    Registered node socket host isOutbound incoming (node.registerNewPeer socket host isOutbound (some incoming)) := by
  have matching : PeerEntry.Matches host incoming.listenPort ⟨⟨socket,incoming,host,true⟩,isOutbound⟩ :=
    ⟨⟨rfl,listens⟩,rfl,rfl⟩
  unfold registerNewPeer
  simp only [if_neg stranger,running,Bool.false_eq_true,if_false]
  cases found : node.peers.filter (·.Matches host incoming.listenPort) with
  | nil =>
    rw [resolveDuplicate_none found]
    refine .added ?_ ?_ rfl running.symm
    · rw [live,found,List.map_nil]
    · simp [live,found,matching]
  | cons entry others =>
    have lives : node.live host incoming.listenPort = entry.peer.socket :: others.map (·.peer.socket) := by
      rw [live,found,List.map_cons]
    cases keepNew : decide (node.info.nodeId < incoming.nodeId) == isOutbound with
    | true =>
      obtain ⟨left,rest,result⟩ := resolveDuplicate_some true found
      rw [result]
      refine .replaced lives keepNew ?_ rfl running.symm
      simp [live,rest,matching]
    | false =>
      obtain ⟨left,rest,result⟩ := resolveDuplicate_some false found
      rw [result]
      exact .dropped lives keepNew

theorem live_markDead (socket : Nat) :
    (node.markDead socket).live host port = (node.live host port).filter (· ≠ socket) := by
  unfold live markDead
  induction node.peers with
  | nil => rfl
  | cons entry rest ih =>
    have dead : ¬ entry.markDead.Matches host port := fun alive => Bool.false_ne_true alive.1.1
    by_cases same : entry.peer.socket = socket
    · by_cases matching : entry.Matches host port
      · simpa [same,matching,dead] using ih
      · simpa [same,matching,dead] using ih
    · by_cases matching : entry.Matches host port
      · simpa [same,matching] using ih
      · simpa [same,matching] using ih

theorem live_clean : node.clean.live host port = node.live host port := by
  have alive : ∀ entry : PeerEntry, (decide (entry.Matches host port) && entry.peer.alive) =
      decide (entry.Matches host port) := by
    intro entry
    by_cases matching : entry.Matches host port
    · simp [matching,matching.1.1]
    · simp [matching]
  simp only [live,clean,List.filter_filter,alive]

end Node

/-- The two nodes of a pair. -/
inductive Side
  | one
  | two
  deriving DecidableEq

def Side.other : Side → Side
  | one => two
  | two => one

/-- Two nodes before they register a connection to each other. Each meets the
    other at one host, whoever dials, and hears its id and port on every
    connection; it knows no live peer under them yet. -/
structure Pair where
  node : Side → Node
  host : Side → Bytes
  dialer : Nat → Side
  version : Side → Nat → VersionInfo
  ids : ∀ side, (node side).info.nodeId ≠ (node side.other).info.nodeId
  running : ∀ side, (node side).stopping = false
  listens : ∀ side, (node side).info.listenPort ≠ 0
  hears : ∀ side socket, (version side socket).nodeId = (node side.other).info.nodeId ∧
    (version side socket).listenPort = (node side.other).info.listenPort
  strangers : ∀ side, (node side).live (host side) (node side.other).info.listenPort = []

/-- The nodes, and the connections that each has closed. -/
structure Link where
  node : Side → Node
  closed : Side → List Nat

inductive Event
  | register (side : Side) (socket : Nat)
  | notice (side : Side) (socket : Nat)
  | clean (side : Side)
  deriving DecidableEq

namespace Pair
variable (pair : Pair)

def start : Link := ⟨pair.node,fun _ => []⟩

/-- A side registers a connection, or notices that the other side has closed
    one, or sweeps out its dead peers. -/
def step (link : Link) : Event → Link
  | .register side socket =>
    let (_,node,closed) := (link.node side).registerNewPeer socket (pair.host side) (decide (pair.dialer socket = side))
      (some (pair.version side socket))
    ⟨Function.update link.node side node,Function.update link.closed side (link.closed side ++ closed)⟩
  | .notice side socket =>
    if socket ∈ link.closed side.other then
      { link with node := Function.update link.node side ((link.node side).markDead socket) }
    else link
  | .clean side => { link with node := Function.update link.node side (link.node side).clean }

/-- The connections to the other side that are alive on a side. -/
def live (link : Link) (side : Side) : List Nat :=
  (link.node side).live (pair.host side) (pair.node side.other).info.listenPort

/-- One connection is alive, and it is alive on both sides. -/
def Resolved (link : Link) : Prop := ∃ socket, ∀ side, pair.live link side = [socket]

/-- The side with the lower id dialed the connection. -/
def DialedByLower (socket : Nat) : Prop :=
  (pair.node (pair.dialer socket)).info.nodeId < (pair.node (pair.dialer socket).other).info.nodeId

instance (socket : Nat) : Decidable (pair.DialedByLower socket) := inferInstanceAs (Decidable (_ < _))

/-- The connections that a side registers, in its order. -/
def registered (side : Side) (events : List Event) : List Nat :=
  events.filterMap fun event =>
    match event with
    | .register registrant socket => if registrant = side then some socket else none
    | _ => none

/-- The rule decides alike on both sides of a connection. -/
theorem keepNew_iff (side : Side) (socket : Nat) :
    (decide ((pair.node side).info.nodeId < (pair.node side.other).info.nodeId) == decide (pair.dialer socket = side)) =
      decide (pair.DialedByLower socket) := by
  have differ := pair.ids side
  have opposite : ¬ (pair.node side).info.nodeId < (pair.node side.other).info.nodeId ↔
      (pair.node side.other).info.nodeId < (pair.node side).info.nodeId := by
    rw [UInt64.not_lt,UInt64.le_iff_lt_or_eq]
    exact or_iff_left differ.symm
  by_cases dials : pair.dialer socket = side
  · simp [DialedByLower,dials]
  · have other : pair.dialer socket = side.other := by
      cases side <;> cases dialer : pair.dialer socket <;> simp_all [Side.other]
    have apart : side.other ≠ side := by cases side <;> decide
    have back : side.other.other = side := by cases side <;> rfl
    simp only [DialedByLower,other,back,← opposite,apart,decide_false,decide_not,beq_false]

/-- What holds of the two nodes at any time. -/
structure Kept (link : Link) : Prop where
  info : ∀ side, (link.node side).info = (pair.node side).info
  running : ∀ side, (link.node side).stopping = false
  single : ∀ side, (pair.live link side).length ≤ 1

variable {pair} {link : Link}

/-- What a side does with a connection it registers. -/
inductive Offered (pair : Pair) (link : Link) (side : Side) (socket : Nat) : Prop
  | added (free : pair.live link side = []) (live : pair.live (pair.step link (.register side socket)) side = [socket])
      (closed : (pair.step link (.register side socket)).closed side = link.closed side)
  | replaced {old : Nat} (found : pair.live link side = [old]) (lower : pair.DialedByLower socket)
      (live : pair.live (pair.step link (.register side socket)) side = [socket])
      (closed : (pair.step link (.register side socket)).closed side = link.closed side ++ [old])
  | dropped {old : Nat} (found : pair.live link side = [old]) (higher : ¬ pair.DialedByLower socket)
      (live : pair.live (pair.step link (.register side socket)) side = [old])
      (closed : (pair.step link (.register side socket)).closed side = link.closed side ++ [socket])

theorem live_same (side : Side) (after : Node) (closed : Side → List Nat) :
    pair.live ⟨Function.update link.node side after,closed⟩ side =
      after.live (pair.host side) (pair.node side.other).info.listenPort := by
  simp only [live,Function.update_self]

theorem live_other {side s : Side} (apart : s ≠ side) (after : Node) (closed : Side → List Nat) :
    pair.live ⟨Function.update link.node side after,closed⟩ s = pair.live link s := by
  simp only [live,Function.update_of_ne apart]

/-- A step of one node that is still who it was and has one live peer at most. -/
theorem Kept.update (kept : pair.Kept link) {side : Side} {after : Node} (closed : Side → List Nat)
    (info : after.info = (link.node side).info) (stopping : after.stopping = (link.node side).stopping)
    (single : (after.live (pair.host side) (pair.node side.other).info.listenPort).length ≤ 1) :
    pair.Kept ⟨Function.update link.node side after,closed⟩ := by
  constructor
  · intro s
    by_cases same : s = side
    · subst same
      simp only [Function.update_self,info,kept.info]
    · simp only [Function.update_of_ne same,kept.info]
  · intro s
    by_cases same : s = side
    · subst same
      simp only [Function.update_self,stopping,kept.running]
    · simp only [Function.update_of_ne same,kept.running]
  · intro s
    by_cases same : s = side
    · subst same
      rwa [live_same]
    · rw [live_other same]
      exact kept.single s

/-- A registration as the pair's state shows it. -/
theorem register_cases (kept : pair.Kept link) (side : Side) (socket : Nat) :
    Offered pair link side socket ∧ pair.Kept (pair.step link (.register side socket)) := by
  obtain ⟨id,port⟩ := pair.hears side socket
  have registered : Node.Registered (link.node side) socket (pair.host side) (decide (pair.dialer socket = side))
      (pair.version side socket) ((link.node side).registerNewPeer socket (pair.host side)
        (decide (pair.dialer socket = side)) (some (pair.version side socket))) := by
    refine Node.registerNewPeer_cases ?_ (kept.running side) ?_
    · rw [kept.info,id]
      exact pair.ids side
    · rw [port]
      exact pair.listens side.other
  have single := kept.single side
  have decided := pair.keepNew_iff side socket
  generalize result : (link.node side).registerNewPeer socket (pair.host side) (decide (pair.dialer socket = side))
    (some (pair.version side socket)) = outcome at registered
  have stepped : pair.step link (.register side socket) =
      ⟨Function.update link.node side outcome.2.1,
        Function.update link.closed side (link.closed side ++ outcome.2.2)⟩ := by
    rw [step,result]
  rw [← id,← kept.info side] at decided
  cases registered with
  | @added after free live info stopping =>
    rw [port] at free live
    refine ⟨.added free ?_ ?_,?_⟩
    · rw [stepped,live_same,live]
    · simp only [stepped,Function.update_self,List.append_nil]
    · rw [stepped]
      exact kept.update _ info stopping (by rw [live]; rfl)
  | @replaced after old others found wins live info stopping =>
    rw [port] at found live
    have alone : others = [] := by
      rw [Pair.live,found,List.length_cons] at single
      exact List.length_eq_zero_iff.mp (by omega)
    subst alone
    rw [decided,decide_eq_true_eq] at wins
    refine ⟨.replaced found wins ?_ ?_,?_⟩
    · rw [stepped,live_same,live,List.nil_append]
    · simp only [stepped,Function.update_self]
    · rw [stepped]
      exact kept.update _ info stopping (by rw [live]; rfl)
  | @dropped old others found loses =>
    rw [port] at found
    have alone : others = [] := by
      rw [Pair.live,found,List.length_cons] at single
      exact List.length_eq_zero_iff.mp (by omega)
    subst alone
    rw [decided,decide_eq_false_iff_not] at loses
    refine ⟨.dropped found loses ?_ ?_,?_⟩
    · rw [stepped,live_same,found]
    · simp only [stepped,Function.update_self]
    · rw [stepped]
      exact kept.update _ rfl rfl single

/-- What an event does to the live connections of a side and to those it has closed. -/
inductive Change (pair : Pair) (link : Link) (event : Event) (side : Side) : Prop
  | offered {socket : Nat} (registers : event = .register side socket) (offer : Offered pair link side socket)
  | noticed {socket : Nat} (others : ∀ socket, event ≠ .register side socket) (dropped : socket ∈ link.closed side.other)
      (live : pair.live (pair.step link event) side = (pair.live link side).filter (· ≠ socket))
      (closed : (pair.step link event).closed side = link.closed side)
  | idle (others : ∀ socket, event ≠ .register side socket)
      (live : pair.live (pair.step link event) side = pair.live link side)
      (closed : (pair.step link event).closed side = link.closed side)

theorem step_cases (kept : pair.Kept link) (event : Event) (side : Side) : Change pair link event side := by
  cases event with
  | register registrant socket =>
    by_cases same : registrant = side
    · subst same
      exact .offered rfl (register_cases kept registrant socket).1
    · refine .idle (by simp [same]) ?_ ?_
      · rw [step,live_other (Ne.symm same)]
      · simp only [step,Function.update_of_ne (Ne.symm same)]
  | notice s socket =>
    by_cases dropped : socket ∈ link.closed s.other
    · by_cases same : s = side
      · subst same
        refine .noticed (by simp) dropped ?_ ?_
        · rw [step,if_pos dropped,live_same,Node.live_markDead,live]
        · rw [step,if_pos dropped]
      · refine .idle (by simp) ?_ ?_
        · rw [step,if_pos dropped,live_other (Ne.symm same)]
        · rw [step,if_pos dropped]
    · refine .idle (by simp) ?_ ?_
      · rw [step,if_neg dropped]
      · rw [step,if_neg dropped]
  | clean s =>
    refine .idle (by simp) ?_ rfl
    by_cases same : s = side
    · subst same
      rw [step,live_same,Node.live_clean,live]
    · rw [step,live_other (Ne.symm same)]

theorem Kept.step (kept : pair.Kept link) (event : Event) : pair.Kept (pair.step link event) := by
  cases event with
  | register side socket => exact (register_cases kept side socket).2
  | notice side socket =>
    rw [Pair.step]
    split
    · refine kept.update _ rfl rfl ?_
      rw [Node.live_markDead]
      exact (List.length_filter_le _ _).trans (kept.single side)
    · exact kept
  | clean side =>
    refine kept.update _ rfl rfl ?_
    rw [Node.live_clean]
    exact kept.single side

theorem kept_start : pair.Kept pair.start where
  info _ := rfl
  running := pair.running
  single side := by
    have none : pair.live pair.start side = [] := pair.strangers side
    rw [none]
    exact Nat.zero_le 1

/-- A side holds the connection that is alive on it. -/
def held (pair : Pair) (link : Link) (side : Side) : Option Nat := (pair.live link side).head?

theorem Kept.held_eq_some (kept : pair.Kept link) {side : Side} {socket : Nat} :
    pair.held link side = some socket ↔ pair.live link side = [socket] := by
  have single := kept.single side
  unfold held
  generalize pair.live link side = sockets at single ⊢
  match sockets with
  | [] => simp
  | [only] => simp
  | _ :: _ :: _ =>
    simp only [List.length_cons] at single
    omega

theorem held_eq_none {side : Side} : pair.held link side = none ↔ pair.live link side = [] := List.head?_eq_none_iff

/-- The pair is a holding of one offer on each side. -/
theorem slotted (pair : Pair) :
    Slotted pair.step pair.held (fun link side => { socket | socket ∈ link.closed side })
      (fun event side socket => event = .register side socket) pair.DialedByLower pair.Kept where
  keeps kept := kept.step _
  taken := by
    rintro link event side socket kept rfl free
    rw [(kept.step _).held_eq_some]
    cases (register_cases kept side socket).1 with
    | added _ live _ => exact live
    | replaced _ _ live _ => exact live
    | @dropped old found higher _ _ =>
      rcases free with none | lower
      · rw [held_eq_none,found] at none
        cases none
      · exact absurd lower higher
  held_from := by
    intro link event side socket kept holds
    rw [(kept.step _).held_eq_some] at holds
    rw [kept.held_eq_some]
    cases step_cases kept event side with
    | @offered new registers offer =>
      subst registers
      cases offer with
      | added free live _ =>
        rw [live] at holds
        cases holds
        exact .inr ⟨rfl,.inl (held_eq_none.mpr free)⟩
      | replaced _ lower live _ =>
        rw [live] at holds
        cases holds
        exact .inr ⟨rfl,.inr lower⟩
      | dropped found _ live _ =>
        rw [live] at holds
        exact .inl (found.trans holds)
    | @noticed gone _ _ live _ =>
      have member : socket ∈ pair.live link side := by
        refine List.mem_of_mem_filter (p := fun other => decide (other ≠ gone)) ?_
        rw [← live,holds]
        exact List.mem_singleton_self socket
      obtain ⟨only,alone⟩ :=
        List.length_eq_one_iff.mp (le_antisymm (kept.single side) (List.length_pos_of_mem member))
      rw [alone,List.mem_singleton] at member
      rw [alone,member]
      exact .inl rfl
    | idle _ live _ =>
      rw [live] at holds
      exact .inl holds
  refused_from := by
    intro link event side socket kept refuses
    change socket ∈ (pair.step link event).closed side at refuses
    cases step_cases kept event side with
    | @offered new registers offer =>
      subst registers
      cases offer with
      | added _ _ closed =>
        rw [closed] at refuses
        exact .inl refuses
      | replaced found lower _ closed =>
        rw [closed,List.mem_append,List.mem_singleton] at refuses
        rcases refuses with already | rfl
        · exact .inl already
        · exact .inr (.inr ⟨kept.held_eq_some.mpr found,new,rfl,lower⟩)
      | dropped found higher _ closed =>
        rw [closed,List.mem_append,List.mem_singleton] at refuses
        rcases refuses with already | rfl
        · exact .inl already
        · refine .inr (.inl ⟨rfl,?_,higher⟩)
          rw [kept.held_eq_some.mpr found]
          exact Option.some_ne_none _
    | noticed _ _ _ closed =>
      rw [closed] at refuses
      exact .inl refuses
    | idle _ _ closed =>
      rw [closed] at refuses
      exact .inl refuses
  lost := by
    intro link event side socket kept holds gone
    rw [kept.held_eq_some] at holds
    rw [Ne,(kept.step _).held_eq_some] at gone
    cases step_cases kept event side with
    | @offered new registers offer =>
      subst registers
      cases offer with
      | added free _ _ =>
        rw [free] at holds
        cases holds
      | replaced _ lower _ _ => exact .inr ⟨new,rfl,lower⟩
      | dropped found _ live _ =>
        rw [live,← found,holds] at gone
        exact absurd rfl gone
    | @noticed dropped _ closed live _ =>
      rw [live,holds] at gone
      by_cases same : socket = dropped
      · subst same
        exact .inl ⟨side.other,closed⟩
      · exact absurd (by simp [same]) gone
    | idle _ live _ =>
      rw [live,holds] at gone
      exact absurd rfl gone

theorem mem_registered {side : Side} {socket : Nat} {events : List Event} :
    socket ∈ registered side events ↔ .register side socket ∈ events := by
  unfold registered
  rw [List.mem_filterMap]
  constructor
  · rintro ⟨event,member,registers⟩
    cases event with
    | register registrant other =>
      simp only [Option.ite_none_right_eq_some,Option.some.injEq] at registers
      obtain ⟨rfl,rfl⟩ := registers
      exact member
    | notice _ _ => cases registers
    | clean _ => cases registers
  · intro member
    exact ⟨_,member,if_pos rfl⟩

theorem once_of_nodup {events : List Event} (once : ∀ side, (registered side events).Nodup) :
    Once (fun event side socket => event = .register side socket) events := by
  rintro before _ after rfl side socket rfl
  have split : registered side (before ++ .register side socket :: after) =
      registered side before ++ socket :: registered side after := by
    simp [registered,List.filterMap_append]
  have nodup := once side
  rw [split,List.nodup_middle,List.nodup_cons,List.mem_append,not_or,mem_registered,mem_registered] at nodup
  obtain ⟨⟨notBefore,notAfter⟩,-⟩ := nodup
  constructor
  · rintro _ earlier rfl
    exact notBefore earlier
  · rintro _ later rfl
    exact notAfter later

/-- A connection survives on both sides exactly if both keep it. -/
theorem survives_iff (pair : Pair) {events : List Event} (once : ∀ side, (registered side events).Nodup) (socket : Nat) :
    (∀ side, pair.live (run pair.step pair.start events) side = [socket]) ↔
      ∀ side, Keeps pair.step pair.held (fun event side socket => event = .register side socket) pair.DialedByLower
        pair.start events side socket := by
  have kept : pair.Kept (run pair.step pair.start events) :=
    run_keeps (fun _ event kept => kept.step event) events kept_start
  have idle : ∀ side, pair.held pair.start side = none := fun side => held_eq_none.mpr (pair.strangers side)
  have clean : ∀ side, { socket | socket ∈ pair.start.closed side } = ∅ :=
    fun side => Set.eq_empty_of_forall_notMem fun _ => List.not_mem_nil
  rw [← pair.slotted.agreed_iff kept_start idle clean (once_of_nodup once)]
  exact forall_congr' fun side => kept.held_eq_some.symm

/-- After a run each side of which registers a connection at most once, the
    duplicates are resolved exactly if there is a connection that each side
    registers when it has no live one to the other or because the lower side
    dialed it, and after which it registers none that the lower side dialed. -/
theorem resolved_iff (pair : Pair) (events : List Event) (once : ∀ side, (registered side events).Nodup) :
    pair.Resolved (run pair.step pair.start events) ↔
      ∃ socket, ∀ side, .register side socket ∈ events ∧
        ∀ before after, events = before ++ .register side socket :: after →
          (pair.live (run pair.step pair.start before) side = [] ∨ pair.DialedByLower socket) ∧
            ∀ later, .register side later ∈ after → ¬ pair.DialedByLower later := by
  refine exists_congr fun socket => (pair.survives_iff once socket).trans ?_
  simp only [Keeps,held_eq_none,exists_eq_right]
  refine forall_congr' fun side => and_congr_right fun _ => ?_
  constructor
  · intro all before after split
    obtain ⟨free,weak⟩ := all before _ after split rfl
    exact ⟨free,fun later member => weak _ member later rfl⟩
  · rintro all before _ after split rfl
    obtain ⟨free,weak⟩ := all before after split
    refine ⟨free,?_⟩
    rintro _ member later rfl
    exact weak later member

/-- The crossed connections of the protocol: where the lower side dialed one
    connection only, that one survives every order and every delay. -/
theorem resolved_of_single {events : List Event} {socket : Nat} (once : ∀ side, (registered side events).Nodup)
    (both : ∀ side, .register side socket ∈ events) (lower : pair.DialedByLower socket)
    (single : ∀ side other, .register side other ∈ events → pair.DialedByLower other → other = socket) :
    pair.Resolved (run pair.step pair.start events) := by
  refine ⟨socket,(pair.survives_iff once socket).mpr ?_⟩
  intro side
  refine ⟨⟨_,both side,rfl⟩,?_⟩
  rintro before _ after split rfl
  refine ⟨.inr lower,?_⟩
  rintro _ member other rfl otherLower
  have again : .register side other ∈ events := by
    rw [split]
    simp [member]
  rw [single side other again otherLower] at member
  exact (once_of_nodup once before _ after split side socket rfl).2 _ member rfl

/-- Both sides have registered all connections, each once, and have noticed
    what the other side closed. -/
structure Processed (pair : Pair) (sockets : List Nat) (events : List Event) : Prop where
  registers : ∀ side, (registered side events).Perm sockets
  notices : ∀ side, ∀ socket ∈ pair.live (run pair.step pair.start events) side,
    socket ∉ (run pair.step pair.start events).closed side.other

end Pair

namespace Samples

def version (nodeId : UInt64) : VersionInfo := ⟨1,0,0,9000,nodeId⟩

def idOf : Side → UInt64
  | .one => 1
  | .two => 2

/-- Nodes with the ids 1 and 2, without peers; the first dials the connections with even numbers. -/
def neighbours : Pair where
  node side := ⟨version (idOf side),[],false⟩
  host side := leBytes 4 (idOf side.other).toNat
  dialer socket := if socket % 2 = 0 then .one else .two
  version side _ := version (idOf side.other)
  ids side := by cases side <;> decide
  running _ := rfl
  listens side := by cases side <;> decide
  hears _ _ := ⟨rfl,rfl⟩
  strangers _ := rfl

theorem crossed_resolved :
    neighbours.Resolved (run neighbours.step neighbours.start
      [.register .one 1,.register .two 0,.register .one 0,.register .two 1,.notice .two 1]) := by
  have once : ∀ side, (Pair.registered side [.register .one 1,.register .two 0,.register .one 0,.register .two 1,
      .notice .two 1]).Nodup := by
    intro side
    cases side <;> decide
  refine (neighbours.resolved_iff _ once).mpr ⟨0,fun side => ⟨by cases side <;> decide,?_⟩⟩
  intro before after split
  refine ⟨.inr (by decide),?_⟩
  intro later member lower
  have listed : later = 0 ∨ later = 1 := by
    have among : .register side later ∈ before ++ .register side 0 :: after := by simp [member]
    rw [← split] at among
    simp only [List.mem_cons,Event.register.injEq,List.not_mem_nil,reduceCtorEq] at among
    tauto
  rcases listed with rfl | rfl
  · exact (Pair.once_of_nodup once before _ after split side 0 rfl).2 _ member rfl
  · exact absurd lower (by decide)

/-- The first node dials twice and the nodes register in opposite orders: each
    closes the connection that the other one keeps. -/
theorem two_dials_unresolved :
    let events : List Event := [.register .one 0,.register .two 2,.register .one 2,.register .two 0,.notice .one 2,
      .notice .two 0]
    neighbours.Processed [0,2] events ∧ ¬ neighbours.Resolved (run neighbours.step neighbours.start events) := by
  intro events
  have alive : ∀ side, neighbours.live (run neighbours.step neighbours.start events) side = [] := by
    intro side
    cases side <;> decide +kernel
  refine ⟨⟨?_,?_⟩,?_⟩
  · intro side
    cases side <;> decide
  · intro side socket member
    rw [alive side] at member
    cases member
  · rintro ⟨socket,survives⟩
    have one := survives .one
    rw [alive .one] at one
    cases one

end Samples
end ForgeChain
