import ForgeChain.Boundary
import ForgeChain.Sessions

/-!
A node at work, `src/network/Node.cpp`: its peers, its address book, its chain
and the catch-up it may be in. A reaction is one turn of one of its threads or
one call from outside; it is given what the turn finds out there, such as the
message that arrived or the answer of the host that was dialed, and returns the
connections made and the messages sent, in order. A raised exception ends the
reaction where it stands. Whatever the inputs, the catch-up goes through states
that the steps of sessions lead to (`syncSteps_next`).
-/
namespace ForgeChain
open Runs

/-- A message as it is handed to `send_msg`. -/
inductive Outgoing where
  | version (info : VersionInfo)
  | inv (items : List InventoryItem)
  | getdata (items : List InventoryItem)
  | block (block : Block)
  | tx (tx : Transaction)
  | getblocks (locator : List HashBytes)
  | ping
  | pong
  | peers (list : List PeerAddress)
  deriving DecidableEq

def Outgoing.message : Outgoing → Message
  | .version info => ⟨.version,serializeVersion info⟩
  | .inv items => ⟨.inv,serializeInventory items⟩
  | .getdata items => ⟨.getdata,serializeInventory items⟩
  | .block sent => ⟨.block,sent.serialize⟩
  | .tx sent => ⟨.tx,sent.serialize⟩
  | .getblocks locator => ⟨.getblocks,serializeGetblocks locator⟩
  | .ping => ⟨.ping,[]⟩
  | .pong => ⟨.pong,[]⟩
  | .peers list => ⟨.peers,serializePeerList list⟩

/-- A connection made, or a message handed to a connection. -/
inductive Output where
  | dialed (address : PeerAddress)
  | sendMsg (socket : Nat) (message : Outgoing)
  deriving DecidableEq

structure RunningNode where
  listenPort : UInt16
  node : Node
  addressBook : AddressBook
  chain : ChainManager
  syncState : SyncState
  syncCursor : Nat
  deriving DecidableEq

/-- What a host that is dialed answers: a connection, and the version that the
    handshake reads off it; and whether the `GETBLOCKS` of a catch-up that is
    started with the peer gets through. -/
structure Answer where
  connection : Option Nat
  incoming : Option VersionInfo
  delivered : Bool

def targetOutboundPeers : Nat := 8
def pingInterval : Nat := 5
def pingTimeout : Nat := 40

/-- Only an IPv4 literal can be dialed. -/
def connectTo (address : PeerAddress) (answer : Answer) : Option Nat :=
  match inetPton (cString address.host) with
  | none => none
  | some _ => answer.connection

namespace RunningNode

def new (listenPort : UInt16) (info : VersionInfo) (chain : ChainManager) : RunningNode :=
  ⟨listenPort,⟨info,[],false⟩,.empty,chain,.idle,0⟩

abbrev Reaction := RunningNode × List Output

section Peers

def alreadyConnected (n : RunningNode) (address : PeerAddress) : Bool :=
  n.node.peers.any fun entry =>
    entry.peer.alive && entry.peer.host = address.host && entry.peer.remoteVersion.listenPort = address.port

def outboundPeerCount (n : RunningNode) : Nat :=
  n.node.peers.countP fun entry => entry.isOutbound && entry.peer.alive

/-- The live peers, without one of them. -/
def targets (n : RunningNode) (exclude : Option Nat) : List Peer :=
  (n.node.peers.map PeerEntry.peer).filter fun peer => some peer.socket ≠ exclude ∧ peer.alive = true

def broadcastInv (n : RunningNode) (exclude : Option Nat) (type : InventoryItemType) (hash : HashBytes) : List Output :=
  (n.targets exclude).map fun peer => .sendMsg peer.socket (.inv [⟨type,hash⟩])

def sendPeerList (n : RunningNode) (socket : Nat) (peerAddr : PeerAddress) : List Output :=
  (n.addressBook.sendPeerList peerAddr).toList.map fun gossip => .sendMsg socket (.peers gossip)

def gossipPeers (n : RunningNode) : List Output :=
  (n.targets none).flatMap fun peer => n.sendPeerList peer.socket (AddressBook.peerAddress peer)

end Peers

section Handlers
variable (P : Primitives)

def handleInv (n : RunningNode) (socket : Nat) (payload : Bytes) : List Output :=
  match deserializeInventory payload with
  | none => []
  | some items =>
    let missing := items.filter fun item => match item.type with
      | .block => !n.chain.hasBlock item.hash
      | .transaction => !n.chain.hasTransaction P item.hash
    if missing = [] then [] else [.sendMsg socket (.getdata missing)]

def handleGetdata (n : RunningNode) (socket : Nat) (payload : Bytes) : List Output :=
  match deserializeInventory payload with
  | none => []
  | some items =>
    items.filterMap fun item => match item.type with
      | .block => (n.chain.findBlock item.hash).map fun block => .sendMsg socket (.block block)
      | .transaction => (n.chain.findTransaction P item.hash).map fun tx => .sendMsg socket (.tx tx)

/-- The messages that `handle_block` sends by the outcome. -/
def respond (n : RunningNode) (socket : Nat) (outcome : BlockOutcome) : List Output :=
  match outcome.status with
  | .Accepted => outcome.toBroadcast.flatMap (n.broadcastInv (some socket) .block)
  | .Reorged => outcome.toBroadcast.flatMap (n.broadcastInv (some socket) .block)
  | .NeedParent => outcome.missingParent.toList.map fun hash => .sendMsg socket (.getdata [⟨.block,hash⟩])
  | .Rejected => []

/-- A block goes to the catch-up with its peer, or to the chain. -/
def handleBlock (n : RunningNode) (socket : Nat) (payload : Bytes) (reading : Reading) (now : Nat) : Reaction :=
  match n.syncState.bufferBlock P socket payload now with
  | some syncState => ({ n with syncState },[])
  | none =>
    match Block.deserialize P payload with
    | none => (n,[])
    | some block =>
      match n.chain.submitBlock P reading block with
      | (.error _,chain) => ({ n with chain },[])
      | (.ok outcome,chain) => ({ n with chain },n.respond socket outcome)

def handleTx (n : RunningNode) (socket : Nat) (payload : Bytes) : Reaction :=
  match Transaction.deserialize payload with
  | none => (n,[])
  | some tx =>
    match n.chain.submitTransaction P tx with
    | (.ok true,chain) => ({ n with chain },n.broadcastInv (some socket) .transaction (tx.computeHash P))
    | (_,chain) => ({ n with chain },[])

def handleGetblocks (n : RunningNode) (socket : Nat) (payload : Bytes) : List Output :=
  match deserializeGetblocks payload with
  | none => []
  | some locator =>
    (n.chain.blocksAfterLocator locator Sync.maxBlocksPerResponse).map fun block => .sendMsg socket (.block block)

def handlePeers (n : RunningNode) (peer : Peer) (payload : Bytes) (now : Nat) : RunningNode :=
  { n with addressBook := n.addressBook.handlePeers now (some peer) payload }

/-- One turn of `peer_loop` with a message. -/
def handle (n : RunningNode) (peer : Peer) (message : Message) (reading : Reading) (now : Nat) : Reaction :=
  if message.type = .inv then (n,n.handleInv P peer.socket message.payload)
  else if message.type = .getdata then (n,n.handleGetdata P peer.socket message.payload)
  else if message.type = .block then n.handleBlock P peer.socket message.payload reading now
  else if message.type = .tx then n.handleTx P peer.socket message.payload
  else if message.type = .getblocks then (n,n.handleGetblocks peer.socket message.payload)
  else if message.type = .ping then (n,[.sendMsg peer.socket .pong])
  else if message.type = .peers then (n.handlePeers peer message.payload now,[])
  else (n,[])

def submitBlock (n : RunningNode) (reading : Reading) (block : Block) : Reaction :=
  match n.chain.submitBlock P reading block with
  | (.error _,chain) => ({ n with chain },[])
  | (.ok outcome,chain) => ({ n with chain },outcome.toBroadcast.flatMap (n.broadcastInv none .block))

def submitTransaction (n : RunningNode) (tx : Transaction) : Reaction :=
  match n.chain.submitTransaction P tx with
  | (.ok true,chain) => ({ n with chain },n.broadcastInv none .transaction (tx.computeHash P))
  | (_,chain) => ({ n with chain },[])

/-- The session's peer is still alive. -/
def syncAlive (n : RunningNode) : Bool :=
  n.node.peers.any fun entry => some entry.peer.socket = n.syncState.peer ∧ entry.peer.alive = true

def finishSyncIfDue (n : RunningNode) (now : Nat) (wall : UInt64) : RunningNode :=
  match n.syncState.finishSyncIfDue n.syncAlive now with
  | (none,syncState) => { n with syncState }
  | (some buffer,syncState) => { n with syncState,chain := (n.chain.adoptBranch P wall buffer).2 }

/-- One turn of `cleaner_loop`. -/
def clean (n : RunningNode) (now : Nat) (wall : UInt64) : RunningNode :=
  finishSyncIfDue P { n with node := n.node.clean } now wall

end Handlers

section Connections

/-- Starts a catch-up with a peer if none is going on. -/
def startSync (n : RunningNode) (socket now : Nat) (delivered : Bool) : Reaction :=
  match n.syncState.startSyncState socket now with
  | (false,_) => (n,[])
  | (true,syncState) =>
    match n.chain.locator with
    -- the locator is an argument of the send, so the session stays open
    | .error _ => ({ n with syncState },[])
    | .ok locator =>
      if delivered then ({ n with syncState },[.sendMsg socket (.getblocks locator)])
      else ({ n with syncState := syncState.resetSyncState },[.sendMsg socket (.getblocks locator)])

/-- The book after a peer has registered: an outbound one counts as reached
    under the port it reports. -/
def noted (n : RunningNode) (candidate : PeerAddress) (isOutbound : Bool) (now : Nat) : RunningNode :=
  { n with addressBook :=
      if isOutbound then (n.addressBook.add now candidate true).2.markSuccess now candidate
      else (n.addressBook.add now candidate (!AddressBook.isRoutable candidate)).2 }

/-- What `register_new_peer` does once the peer is in. -/
def welcome (n : RunningNode) (socket : Nat) (host : Bytes) (isOutbound : Bool) (incoming : VersionInfo) (now : Nat)
    (delivered : Bool) : Reaction :=
  let candidate : PeerAddress := ⟨host,incoming.listenPort⟩
  let n := n.noted candidate isOutbound now
  let told := n.sendPeerList socket candidate
  if UInt64.ofNat n.chain.chainHeight < incoming.chainHeight then
    let (n,asked) := n.startSync socket now delivered
    (n,told ++ asked)
  else (n,told)

def registerNewPeer (n : RunningNode) (socket : Nat) (host : Bytes) (isOutbound : Bool) (incoming : Option VersionInfo)
    (now : Nat) (delivered : Bool) : Bool × Reaction :=
  let greeting := .sendMsg socket (.version { n.node.info with chainHeight := UInt64.ofNat n.chain.chainHeight })
  match incoming,n.node.registerNewPeer socket host isOutbound incoming with
  | some incoming,(true,node,_) =>
    let (n,said) := { n with node }.welcome socket host isOutbound incoming now delivered
    (true,n,greeting :: said)
  | _,(_,node,_) => (false,{ n with node },[greeting])

/-- `accept_one_peer`; the host is none if the peer is gone already. -/
def acceptOnePeer (n : RunningNode) (host : Option Bytes) (answer : Answer) (now : Nat) : Reaction :=
  match host,answer.connection with
  | some host,some socket => (n.registerNewPeer socket host false answer.incoming now answer.delivered).2
  | _,_ => (n,[])

/-- Names of the own host, which the node does not dial on its own port. -/
def ownHosts : List Bytes := [text "127.0.0.1",text "localhost",text "0.0.0.0"]

def connectToPeer (n : RunningNode) (address : PeerAddress) (answer : Answer) (now : Nat) : Reaction :=
  if address.port = n.listenPort ∧ address.host ∈ ownHosts then (n,[])
  else if n.alreadyConnected address then (n,[])
  else
    let n := { n with addressBook := (n.addressBook.add now address true).2 }
    match connectTo address answer with
    | none => (n,[])
    | some socket =>
      let (_,n,said) := n.registerNewPeer socket address.host true answer.incoming now answer.delivered
      (n,.dialed address :: said)

/-- One turn of the inner loop of `connect_loop`. -/
def dialCandidate (n : RunningNode) (answer : Answer) (now : Nat) : Reaction :=
  if n.outboundPeerCount ≥ targetOutboundPeers then (n,[])
  else
    match n.addressBook.selectCandidate now with
    | (none,addressBook) => ({ n with addressBook },[])
    | (some candidate,addressBook) =>
      let n := { n with addressBook }
      if n.alreadyConnected candidate then
        match connectTo candidate answer with
        | none => ({ n with addressBook := n.addressBook.markFailure now candidate },[])
        | some _ => ({ n with addressBook := n.addressBook.markSuccess now candidate },[.dialed candidate])
      else
        match connectTo candidate answer with
        | none => ({ n with addressBook := n.addressBook.markFailure now candidate },[])
        | some socket =>
          let (connected,n,said) := n.registerNewPeer socket candidate.host true answer.incoming now answer.delivered
          let addressBook :=
            if connected then n.addressBook.markSuccess now candidate else n.addressBook.markFailure now candidate
          ({ n with addressBook },.dialed candidate :: said)

/-- Asks one of the peers that said they were ahead, in turn. -/
def requestSync (n : RunningNode) (now : Nat) (delivered : Bool) : Reaction :=
  let ahead := (n.targets none).filter fun peer => peer.remoteVersion.chainHeight > UInt64.ofNat n.chain.chainHeight
  match ahead[n.syncCursor % ahead.length]? with
  | none => (n,[])
  | some target => { n with syncCursor := n.syncCursor + 1 }.startSync target.socket now delivered

/-- The part of `ping_loop` about quiet peers, by the seconds since each was
    heard of. -/
def pingPeers (n : RunningNode) (elapsed : Nat → Nat) : Reaction :=
  let quiet := n.targets none
  let peers := n.node.peers.map fun entry =>
    if entry.peer.alive = true ∧ elapsed entry.peer.socket ≥ pingTimeout then entry.markDead else entry
  let overdue := quiet.filter fun peer => elapsed peer.socket < pingTimeout ∧ elapsed peer.socket ≥ pingInterval
  ({ n with node := { n.node with peers } },overdue.map fun peer => .sendMsg peer.socket .ping)

def rememberPeer (n : RunningNode) (address : PeerAddress) (now : Nat) : RunningNode :=
  { n with addressBook := (n.addressBook.add now address true).2 }

def stop (n : RunningNode) : RunningNode := { n with node := { n.node with peers := [],stopping := true } }

end Connections

/-! ### Reactions -/

inductive Input where
  | received (socket : Nat) (message : Message) (reading : Reading) (now : Nat)
  | lost (socket : Nat)
  | cleaned (now : Nat) (wall : UInt64)
  | pinged (elapsed : Nat → Nat)
  | syncRequested (now : Nat) (delivered : Bool)
  | gossiped
  | accepted (host : Option Bytes) (answer : Answer) (now : Nat)
  | connectTold (address : PeerAddress) (answer : Answer) (now : Nat)
  | dialed (answer : Answer) (now : Nat)
  | mined (reading : Reading) (block : Block)
  | paid (tx : Transaction)
  | remembered (address : PeerAddress) (now : Nat)
  | stopped

/-- The live peer of a connection. -/
def livePeer (n : RunningNode) (socket : Nat) : Option Peer := (n.targets none).find? (·.socket = socket)

def react (P : Primitives) (n : RunningNode) : Input → Reaction
  | .received socket message reading now =>
    match n.livePeer socket with
    | none => (n,[])
    | some peer => n.handle P peer message reading now
  | .lost socket => ({ n with node := n.node.markDead socket },[])
  | .cleaned now wall => (n.clean P now wall,[])
  | .pinged elapsed => n.pingPeers elapsed
  | .syncRequested now delivered => n.requestSync now delivered
  | .gossiped => (n,n.gossipPeers)
  | .accepted host answer now => n.acceptOnePeer host answer now
  | .connectTold address answer now => n.connectToPeer address answer now
  | .dialed answer now => n.dialCandidate answer now
  | .mined reading block => n.submitBlock P reading block
  | .paid tx => n.submitTransaction P tx
  | .remembered address now => (n.rememberPeer address now,[])
  | .stopped => (n.stop,[])

/-- The node after a reaction. -/
def next (P : Primitives) (n : RunningNode) (input : Input) : RunningNode := (n.react P input).1

/-- The node and all it has done so far. -/
def step (P : Primitives) (state : Reaction) (input : Input) : Reaction :=
  let (n,said) := state.1.react P input
  (n,state.2 ++ said)

/-- A node that has met nobody. -/
def newcomer : RunningNode := new 9000 ⟨1,0,0,9000,1⟩ Samples.start

/-! ### What the handlers can do -/

variable {P : Primitives} {n : RunningNode}

/-- A block that arrives is buffered, cannot be read, or is submitted. -/
inductive BlockHandled (P : Primitives) (n : RunningNode) (socket : Nat) (payload : Bytes) (reading : Reading)
    (now : Nat) : Prop
  | buffered (syncState : SyncState) (taken : n.syncState.bufferBlock P socket payload now = some syncState)
      (run : n.handleBlock P socket payload reading now = ({ n with syncState },[]))
  | unread (unreadable : Block.deserialize P payload = none)
      (run : n.handleBlock P socket payload reading now = (n,[]))
  | raised (block : Block) (chain : ChainManager) (e : Exn) (read : Block.deserialize P payload = some block)
      (submitted : n.chain.submitBlock P reading block = (.error e,chain))
      (run : n.handleBlock P socket payload reading now = ({ n with chain },[]))
  | submitted (block : Block) (chain : ChainManager) (outcome : BlockOutcome)
      (read : Block.deserialize P payload = some block)
      (submitted : n.chain.submitBlock P reading block = (.ok outcome,chain))
      (run : n.handleBlock P socket payload reading now = ({ n with chain },n.respond socket outcome))

theorem handleBlock_cases (P : Primitives) (n : RunningNode) (socket : Nat) (payload : Bytes) (reading : Reading)
    (now : Nat) : BlockHandled P n socket payload reading now := by
  rcases taken : n.syncState.bufferBlock P socket payload now with _ | syncState
  · rcases read : Block.deserialize P payload with _ | block
    · exact .unread read (by simp only [handleBlock,taken,read])
    · rcases submitted : n.chain.submitBlock P reading block with ⟨e | outcome,chain⟩
      · exact .raised block chain e read submitted (by simp only [handleBlock,taken,read,submitted])
      · exact .submitted block chain outcome read submitted (by simp only [handleBlock,taken,read,submitted])
  · exact .buffered syncState taken (by simp only [handleBlock,taken])

/-- A catch-up that ends hands its blocks to the chain, or there are none. -/
inductive Finished (P : Primitives) (n : RunningNode) (now : Nat) (wall : UInt64) : Prop
  | quiet (syncState : SyncState) (none : (n.syncState.finishSyncIfDue n.syncAlive now).1 = none)
      (run : n.finishSyncIfDue P now wall = { n with syncState })
  | handed (syncState : SyncState) (buffer : List Block)
      (some : (n.syncState.finishSyncIfDue n.syncAlive now).1 = some buffer)
      (run : n.finishSyncIfDue P now wall = { n with syncState,chain := (n.chain.adoptBranch P wall buffer).2 })

theorem finishSyncIfDue_cases (P : Primitives) (n : RunningNode) (now : Nat) (wall : UInt64) :
    Finished P n now wall := by
  rcases finished : n.syncState.finishSyncIfDue n.syncAlive now with ⟨_ | buffer,syncState⟩
  · exact .quiet syncState (by rw [finished]) (by simp only [finishSyncIfDue,finished])
  · exact .handed syncState buffer (by rw [finished]) (by simp only [finishSyncIfDue,finished])

/-- A transaction is submitted to the chain and announced if it is taken. -/
theorem handleTx_cases (P : Primitives) (n : RunningNode) (socket : Nat) (payload : Bytes) :
    n.handleTx P socket payload = (n,[]) ∨ ∃ tx said, n.handleTx P socket payload =
      ({ n with chain := (n.chain.submitTransaction P tx).2 },said) ∧
      (said = [] ∨ said = n.broadcastInv (some socket) .transaction (tx.computeHash P)) := by
  rcases read : Transaction.deserialize payload with _ | tx
  · exact Or.inl (by simp only [handleTx,read])
  · rcases submitted : n.chain.submitTransaction P tx with ⟨e | _ | _,chain⟩
    · exact Or.inr ⟨tx,_,by simp only [handleTx,read,submitted],Or.inl rfl⟩
    · exact Or.inr ⟨tx,_,by simp only [handleTx,read,submitted],Or.inl rfl⟩
    · exact Or.inr ⟨tx,_,by simp only [handleTx,read,submitted],Or.inr rfl⟩

theorem submitTransaction_cases (P : Primitives) (n : RunningNode) (tx : Transaction) :
    ∃ said, n.submitTransaction P tx = ({ n with chain := (n.chain.submitTransaction P tx).2 },said) ∧
      (said = [] ∨ said = n.broadcastInv none .transaction (tx.computeHash P)) := by
  rcases submitted : n.chain.submitTransaction P tx with ⟨e | _ | _,chain⟩
  · exact ⟨_,by simp only [submitTransaction,submitted],Or.inl rfl⟩
  · exact ⟨_,by simp only [submitTransaction,submitted],Or.inl rfl⟩
  · exact ⟨_,by simp only [submitTransaction,submitted],Or.inr rfl⟩

/-- Starting a catch-up touches nothing but its state, and asks for blocks. -/
theorem startSync_cases (n : RunningNode) (socket now : Nat) (delivered : Bool) :
    ∃ syncState said, n.startSync socket now delivered = ({ n with syncState },said) ∧
      (said = [] ∨ ∃ locator, said = [.sendMsg socket (.getblocks locator)]) := by
  rcases started : n.syncState.startSyncState socket now with ⟨_ | _,syncState⟩
  · exact ⟨n.syncState,[],by simp only [startSync,started],Or.inl rfl⟩
  · rcases located : n.chain.locator with e | locator
    · exact ⟨syncState,_,by simp only [startSync,started,located],Or.inl rfl⟩
    · cases delivered with
      | true => exact ⟨syncState,_,by simp only [startSync,started,located,if_true],Or.inr ⟨locator,rfl⟩⟩
      | false =>
        exact ⟨syncState.resetSyncState,_,by simp only [startSync,started,located,Bool.false_eq_true,if_false],
          Or.inr ⟨locator,rfl⟩⟩

/-- A connection gets the greeting, and the welcome if it is kept. -/
inductive Registering (n : RunningNode) (socket : Nat) (host : Bytes) (isOutbound : Bool) (incoming : Option VersionInfo)
    (now : Nat) (delivered : Bool) : Prop
  | turnedAway (node : Node) (own : VersionInfo)
      (run : n.registerNewPeer socket host isOutbound incoming now delivered =
        (false,{ n with node },[.sendMsg socket (.version own)]))
  | kept (node : Node) (own info : VersionInfo) (heard : incoming = some info)
      (run : n.registerNewPeer socket host isOutbound incoming now delivered =
        (true,({ n with node }.welcome socket host isOutbound info now delivered).1,
          .sendMsg socket (.version own) :: ({ n with node }.welcome socket host isOutbound info now delivered).2))

theorem registerNewPeer_cases (n : RunningNode) (socket : Nat) (host : Bytes) (isOutbound : Bool)
    (incoming : Option VersionInfo) (now : Nat) (delivered : Bool) :
    Registering n socket host isOutbound incoming now delivered := by
  rcases registered : n.node.registerNewPeer socket host isOutbound incoming with ⟨_ | _,node,closed⟩
  · rcases incoming with _ | info
    · exact .turnedAway node _ (by simp only [registerNewPeer,registered]; rfl)
    · exact .turnedAway node _ (by simp only [registerNewPeer,registered]; rfl)
  · rcases incoming with _ | info
    · exact .turnedAway node _ (by simp only [registerNewPeer,registered]; rfl)
    · exact .kept node _ info rfl (by simp only [registerNewPeer,registered]; rfl)

/-! ### The catch-up of a node -/

/-- Steps of sessions lead from one catch-up state to another. -/
def SyncSteps (P : Primitives) (before after : SyncState) : Prop :=
  ∀ t : Sessions, t.syncState = before → ∃ actions, (run (Sessions.step P) t actions).syncState = after

theorem SyncSteps.refl (P : Primitives) (syncState : SyncState) : SyncSteps P syncState syncState :=
  fun _ same => ⟨[],same⟩

theorem syncSteps_startSync (P : Primitives) (n : RunningNode) (socket now : Nat) (delivered : Bool) :
    SyncSteps P n.syncState (n.startSync socket now delivered).1.syncState := by
  rintro t same
  rcases started : n.syncState.startSyncState socket now with ⟨_ | _,syncState⟩
  · exact ⟨[],by simp only [startSync,started,run_nil,same]⟩
  obtain ⟨opens,sending⟩ : (t.step P (.start socket now)).syncState = syncState ∧
      t.session + 1 ∈ (t.step P (.start socket now)).sending := by
    simp only [Sessions.step,same,started]
    exact ⟨trivial,List.mem_cons_self⟩
  rcases located : n.chain.locator with e | locator
  · exact ⟨[.start socket now],by simp only [startSync,started,located,run_cons,run_nil,opens]⟩
  · cases delivered with
    | true => exact ⟨[.start socket now],by simp only [startSync,started,located,run_cons,run_nil,opens,if_true]⟩
    | false =>
      refine ⟨[.start socket now,.failed (t.session + 1)],?_⟩
      simp only [startSync,started,located,run_cons,run_nil,Bool.false_eq_true,if_false]
      exact Sessions.failed_syncState sending

theorem syncSteps_bufferBlock {socket : Nat} {payload : Bytes} {now : Nat} {before after : SyncState}
    (taken : before.bufferBlock P socket payload now = some after) : SyncSteps P before after := by
  rintro t same
  exact ⟨[.deliver socket payload now],by simp only [run_cons,run_nil,Sessions.step,same,taken]⟩

theorem syncSteps_finishSyncIfDue (P : Primitives) (syncState : SyncState) (alive : Bool) (now : Nat) :
    SyncSteps P syncState (syncState.finishSyncIfDue alive now).2 := by
  rintro t same
  refine ⟨[.finish alive now],?_⟩
  rcases finished : syncState.finishSyncIfDue alive now with ⟨_ | blocks,after⟩
  · simp only [run_cons,run_nil,Sessions.step,same,finished]
  · simp only [run_cons,run_nil,Sessions.step,same,finished]

/-- The chain stays, and the catch-up goes on by steps of sessions. -/
structure Calm (P : Primitives) (n after : RunningNode) : Prop where
  chain : after.chain = n.chain
  sync : SyncSteps P n.syncState after.syncState

theorem calm_startSync (P : Primitives) (n : RunningNode) (socket now : Nat) (delivered : Bool) :
    Calm P n (n.startSync socket now delivered).1 := by
  obtain ⟨syncState,said,run,-⟩ := startSync_cases n socket now delivered
  refine ⟨?_,syncSteps_startSync P n socket now delivered⟩
  rw [run]

theorem calm_welcome (P : Primitives) (n : RunningNode) (socket : Nat) (host : Bytes) (isOutbound : Bool)
    (incoming : VersionInfo) (now : Nat) (delivered : Bool) :
    Calm P n (n.welcome socket host isOutbound incoming now delivered).1 := by
  unfold welcome
  dsimp only
  split
  · obtain ⟨chain,sync⟩ := calm_startSync P (n.noted ⟨host,incoming.listenPort⟩ isOutbound now) socket now delivered
    exact ⟨chain,sync⟩
  · exact ⟨rfl,.refl P n.syncState⟩

theorem calm_registerNewPeer (P : Primitives) (n : RunningNode) (socket : Nat) (host : Bytes) (isOutbound : Bool)
    (incoming : Option VersionInfo) (now : Nat) (delivered : Bool) :
    Calm P n (n.registerNewPeer socket host isOutbound incoming now delivered).2.1 := by
  cases registerNewPeer_cases n socket host isOutbound incoming now delivered with
  | turnedAway node own run =>
    rw [run]
    exact ⟨rfl,.refl P n.syncState⟩
  | kept node own info heard run =>
    rw [run]
    obtain ⟨chain,sync⟩ := calm_welcome P { n with node } socket host isOutbound info now delivered
    exact ⟨chain,sync⟩

theorem calm_acceptOnePeer (P : Primitives) (n : RunningNode) (host : Option Bytes) (answer : Answer) (now : Nat) :
    Calm P n (n.acceptOnePeer host answer now).1 := by
  unfold acceptOnePeer
  split
  · exact calm_registerNewPeer P n _ _ false answer.incoming now answer.delivered
  · exact ⟨rfl,.refl P n.syncState⟩

theorem calm_connectToPeer (P : Primitives) (n : RunningNode) (address : PeerAddress) (answer : Answer) (now : Nat) :
    Calm P n (n.connectToPeer address answer now).1 := by
  unfold connectToPeer
  split
  · exact ⟨rfl,.refl P n.syncState⟩
  split
  · exact ⟨rfl,.refl P n.syncState⟩
  dsimp only
  split
  · exact ⟨rfl,.refl P n.syncState⟩
  · case h_2 socket connected =>
    obtain ⟨chain,sync⟩ := calm_registerNewPeer P { n with addressBook := (n.addressBook.add now address true).2 } socket
      address.host true answer.incoming now answer.delivered
    exact ⟨chain,sync⟩

theorem calm_dialCandidate (P : Primitives) (n : RunningNode) (answer : Answer) (now : Nat) :
    Calm P n (n.dialCandidate answer now).1 := by
  unfold dialCandidate
  split
  · exact ⟨rfl,.refl P n.syncState⟩
  split
  · exact ⟨rfl,.refl P n.syncState⟩
  · case h_2 candidate addressBook selected =>
    dsimp only
    split
    · split
      · exact ⟨rfl,.refl P n.syncState⟩
      · exact ⟨rfl,.refl P n.syncState⟩
    · split
      · exact ⟨rfl,.refl P n.syncState⟩
      · case h_2 socket connected =>
        obtain ⟨chain,sync⟩ := calm_registerNewPeer P { n with addressBook } socket candidate.host true answer.incoming now
          answer.delivered
        exact ⟨chain,sync⟩

theorem calm_requestSync (P : Primitives) (n : RunningNode) (now : Nat) (delivered : Bool) :
    Calm P n (n.requestSync now delivered).1 := by
  unfold requestSync
  dsimp only
  split
  · exact ⟨rfl,.refl P n.syncState⟩
  · obtain ⟨chain,sync⟩ := calm_startSync P { n with syncCursor := n.syncCursor + 1 } _ now delivered
    exact ⟨chain,sync⟩

theorem finishSyncIfDue_syncState (P : Primitives) (n : RunningNode) (now : Nat) (wall : UInt64) :
    (n.finishSyncIfDue P now wall).syncState = (n.syncState.finishSyncIfDue n.syncAlive now).2 := by
  rcases finished : n.syncState.finishSyncIfDue n.syncAlive now with ⟨_ | buffer,syncState⟩
  · simp only [finishSyncIfDue,finished]
  · simp only [finishSyncIfDue,finished]

theorem syncSteps_handle (P : Primitives) (n : RunningNode) (peer : Peer) (message : Message) (reading : Reading)
    (now : Nat) : SyncSteps P n.syncState (n.handle P peer message reading now).1.syncState := by
  unfold handle
  split
  · exact .refl P n.syncState
  split
  · exact .refl P n.syncState
  split
  · cases handleBlock_cases P n peer.socket message.payload reading now with
    | buffered syncState taken run =>
      rw [run]
      exact syncSteps_bufferBlock taken
    | unread unreadable run => exact run ▸ .refl P n.syncState
    | raised block chain e read submitted run => exact run ▸ .refl P n.syncState
    | submitted block chain outcome read submitted run => exact run ▸ .refl P n.syncState
  split
  · rcases handleTx_cases P n peer.socket message.payload with run | ⟨tx,said,run,-⟩
    · exact run ▸ .refl P n.syncState
    · exact run ▸ .refl P n.syncState
  split
  · exact .refl P n.syncState
  split
  · exact .refl P n.syncState
  split
  · exact .refl P n.syncState
  · exact .refl P n.syncState

/-- The catch-up of a node goes on by the steps of sessions. -/
theorem syncSteps_next (P : Primitives) (n : RunningNode) (input : Input) :
    SyncSteps P n.syncState (n.next P input).syncState := by
  cases input with
  | received socket message reading now =>
    rw [next,react]
    split
    · exact .refl P n.syncState
    · exact syncSteps_handle P n _ message reading now
  | cleaned now wall =>
    have finished := finishSyncIfDue_syncState P { n with node := n.node.clean } now wall
    rw [next,react,clean,finished]
    exact syncSteps_finishSyncIfDue P n.syncState _ now
  | syncRequested now delivered => exact (calm_requestSync P n now delivered).sync
  | accepted host answer now => exact (calm_acceptOnePeer P n host answer now).sync
  | connectTold address answer now => exact (calm_connectToPeer P n address answer now).sync
  | dialed answer now => exact (calm_dialCandidate P n answer now).sync
  | mined reading block =>
    rw [next,react,submitBlock]
    split
    · exact .refl P n.syncState
    · exact .refl P n.syncState
  | paid tx =>
    obtain ⟨said,run,-⟩ := submitTransaction_cases P n tx
    rw [next,react,run]
    exact .refl P n.syncState
  | _ => exact .refl P n.syncState

/-- What holds of the catch-up state in every run of sessions holds in every run
    of a node; so nothing is buffered between two catch-ups. -/
theorem idle_buffer (P : Primitives) (listenPort : UInt16) (info : VersionInfo) (chain : ChainManager)
    (inputs : List Input) (idle : (run (next P) (new listenPort info chain) inputs).syncState.active = false) :
    (run (next P) (new listenPort info chain) inputs).syncState.buffer = [] := by
  have stepwise : ∀ n input, (∃ actions, (run (Sessions.step P) .start actions).syncState = n.syncState) →
      ∃ actions, (run (Sessions.step P) .start actions).syncState = (next P n input).syncState := by
    rintro n input ⟨before,same⟩
    obtain ⟨more,reached⟩ := syncSteps_next P n input _ same
    exact ⟨before ++ more,by rw [run_append,reached]⟩
  obtain ⟨actions,same⟩ := run_keeps stepwise inputs ⟨[],Eq.refl (new listenPort info chain).syncState⟩
  rw [← same] at idle ⊢
  exact (Sessions.settled_sessions P actions).1 idle

end RunningNode
end ForgeChain
