import ForgeChain.RunningNode

/-!
Peer discovery. A node may advertise an address only after it has connected to
it. The book marks an address as reached when the dial loop or a probe got
through to it, and when an outbound peer registers; but then it marks the
address made of the host and the port that the peer itself reports. So the rule
holds along every run in which outbound peers report a port that was dialed, or
none at all (`verified_run`).
-/
namespace ForgeChain
open Runs

/-! ### The book against the history -/

/-- A peer list names dialed addresses only. -/
def Covered (known : List Output) : Output → Prop
  | .sendMsg _ (.peers list) => ∀ address ∈ list, .dialed address ∈ known
  | _ => True

/-- Each peer list names addresses that were dialed before it was sent. -/
def Verified (known : List Output) : List Output → Prop
  | [] => True
  | output :: rest => Covered known output ∧ Verified (known ++ [output]) rest

/-- The addresses marked as reached were dialed, and none has port zero. -/
def Reached (known : List Output) (book : AddressBook) : Prop :=
  ∀ entry ∈ book.book, entry.address.port ≠ 0 ∧ (entry.succeeded = true → .dialed entry.address ∈ known)

theorem verified_append {known one two : List Output} :
    Verified known (one ++ two) ↔ Verified known one ∧ Verified (known ++ one) two := by
  induction one generalizing known with
  | nil => simp [Verified]
  | cons output rest ih => simp [Verified,ih,and_assoc]

/-- Messages that are not peer lists. -/
def Plain (said : List Output) : Prop := ∀ known, ∀ output ∈ said, Covered known output

theorem Plain.verified {said : List Output} (plain : Plain said) (known : List Output) : Verified known said := by
  induction said generalizing known with
  | nil => trivial
  | cons output rest ih =>
    exact ⟨plain known output List.mem_cons_self,ih (fun known other member => plain known other (.tail _ member)) _⟩

namespace Reached
variable {known more : List Output} {book : AddressBook}

theorem mono (reached : Reached known book) (more : List Output) : Reached (known ++ more) book :=
  fun entry member => ⟨(reached entry member).1,fun succeeded =>
    List.mem_append_left more ((reached entry member).2 succeeded)⟩

theorem add (reached : Reached known book) (now : Nat) (address : PeerAddress) (trusted : Bool) :
    Reached known (book.add now address trusted).2 := by
  cases AddressBook.add_cases book now address trusted with
  | refused run =>
    rw [run]
    exact reached
  | added named admitted room new run =>
    rw [run]
    intro entry member
    rcases List.mem_append.mp member with old | fresh
    · exact reached entry old
    · rw [List.mem_singleton.mp fresh]
      exact ⟨named.2,fun succeeded => absurd succeeded Bool.false_ne_true⟩

theorem handlePeers (reached : Reached known book) (now : Nat) (peer : Option Peer) (payload : Bytes) :
    Reached known (book.handlePeers now peer payload) := by
  unfold AddressBook.handlePeers
  split
  · exact reached
  · case h_2 list decoded =>
    exact List.foldlRecOn list _ reached fun book before address _ => before.add now address _

/-- Changing an entry keeps the book in order if it keeps that entry so. -/
theorem change (reached : Reached known book) {property : AddressEntry → Bool} {changed : AddressEntry → AddressEntry}
    (keeps : ∀ entry ∈ book.book, property entry = true →
      (changed entry).address = entry.address ∧ ((changed entry).succeeded = true → .dialed entry.address ∈ known)) :
    Reached known ⟨AddressBook.change property changed book.book⟩ := by
  obtain ⟨entries⟩ := book
  induction entries with
  | nil => exact reached
  | cons first rest ih =>
    obtain ⟨head,tail⟩ := List.forall_mem_cons.mp reached
    rw [AddressBook.change]
    split
    · case isTrue chosen =>
      obtain ⟨same,dialed⟩ := keeps first List.mem_cons_self chosen
      refine List.forall_mem_cons.mpr ⟨?_,tail⟩
      rw [same]
      exact ⟨head.1,dialed⟩
    · exact List.forall_mem_cons.mpr ⟨head,ih tail fun entry member => keeps entry (.tail _ member)⟩

theorem selectCandidate (reached : Reached known book) (now : Nat) : Reached known (book.selectCandidate now).2 :=
  reached.change fun entry member _ => ⟨rfl,(reached entry member).2⟩

theorem markFailure (reached : Reached known book) (now : Nat) (address : PeerAddress) :
    Reached known (book.markFailure now address) :=
  reached.change fun entry member _ => ⟨rfl,(reached entry member).2⟩

/-- An address may be marked as reached if it was dialed, or is in no book. -/
theorem markSuccess (reached : Reached known book) (now : Nat) {address : PeerAddress}
    (dialed : address.port = 0 ∨ .dialed address ∈ known) : Reached known (book.markSuccess now address) := by
  refine reached.change fun entry member same => ⟨rfl,fun _ => ?_⟩
  obtain rfl := of_decide_eq_true same
  exact dialed.resolve_left (reached entry member).1

end Reached

/-! ### Reactions -/

namespace RunningNode
variable {P : Primitives} {known : List Output} {n : RunningNode}

/-- What a reaction leaves the node and its history with. -/
structure Keeps (known : List Output) (reaction : Reaction) : Prop where
  reached : Reached (known ++ reaction.2) reaction.1.addressBook
  verified : Verified known reaction.2

/-- A reaction that leaves the book alone and sends no peer lists. -/
theorem keeps_of_plain (reached : Reached known n.addressBook) {reaction : Reaction}
    (same : reaction.1.addressBook = n.addressBook) (plain : Plain reaction.2) : Keeps known reaction :=
  ⟨same ▸ reached.mono reaction.2,plain.verified known⟩

theorem plain_nil : Plain [] := fun _ _ member => absurd member List.not_mem_nil

theorem plain_single {output : Output} (plain : ∀ known, Covered known output) : Plain [output] := by
  intro known other member
  rw [List.mem_singleton.mp member]
  exact plain known

theorem plain_map {α : Type} {message : α → Output} (plain : ∀ known item, Covered known (message item)) (items : List α) :
    Plain (items.map message) := by
  intro known output member
  obtain ⟨item,-,rfl⟩ := List.mem_map.mp member
  exact plain known item

theorem plain_broadcastInv (exclude : Option Nat) (type : InventoryItemType) (hash : HashBytes) :
    Plain (n.broadcastInv exclude type hash) := plain_map (fun _ _ => by trivial) (n.targets exclude)

theorem plain_announced (hashes : List HashBytes) (exclude : Option Nat) :
    Plain (hashes.flatMap (n.broadcastInv exclude .block)) := by
  intro known output member
  obtain ⟨hash,-,member⟩ := List.mem_flatMap.mp member
  exact plain_broadcastInv exclude .block hash known output member

theorem plain_handleInv (socket : Nat) (payload : Bytes) : Plain (n.handleInv P socket payload) := by
  unfold handleInv
  split
  · exact plain_nil
  · dsimp only
    split
    · exact plain_nil
    · exact plain_single fun _ => by trivial

theorem plain_handleGetdata (socket : Nat) (payload : Bytes) : Plain (n.handleGetdata P socket payload) := by
  intro known output member
  unfold handleGetdata at member
  split at member
  · cases member
  · obtain ⟨item,-,found⟩ := List.mem_filterMap.mp member
    split at found
    · obtain ⟨block,-,rfl⟩ := Option.map_eq_some_iff.mp found
      trivial
    · obtain ⟨tx,-,rfl⟩ := Option.map_eq_some_iff.mp found
      trivial

theorem plain_handleGetblocks (socket : Nat) (payload : Bytes) : Plain (n.handleGetblocks socket payload) := by
  unfold handleGetblocks
  split
  · exact plain_nil
  · exact plain_map (fun _ _ => by trivial) _

theorem plain_respond (socket : Nat) (outcome : BlockOutcome) : Plain (n.respond socket outcome) := by
  unfold respond
  split
  · exact plain_announced outcome.toBroadcast (some socket)
  · exact plain_announced outcome.toBroadcast (some socket)
  · exact plain_map (fun _ _ => by trivial) outcome.missingParent.toList
  · exact plain_nil

theorem keeps_handle (reached : Reached known n.addressBook) (peer : Peer) (message : Message) (reading : Reading)
    (now : Nat) : Keeps known (n.handle P peer message reading now) := by
  unfold handle
  split
  · exact keeps_of_plain reached rfl (plain_handleInv peer.socket message.payload)
  split
  · exact keeps_of_plain reached rfl (plain_handleGetdata peer.socket message.payload)
  split
  · cases handleBlock_cases P n peer.socket message.payload reading now with
    | buffered syncState taken run => exact run ▸ keeps_of_plain reached rfl plain_nil
    | unread unreadable run => exact run ▸ keeps_of_plain reached rfl plain_nil
    | raised block chain e read submitted run => exact run ▸ keeps_of_plain reached rfl plain_nil
    | submitted block chain outcome read submitted run =>
      exact run ▸ keeps_of_plain reached rfl (plain_respond peer.socket outcome)
  split
  · rcases handleTx_cases P n peer.socket message.payload with run | ⟨tx,said,run,rfl | rfl⟩
    · exact run ▸ keeps_of_plain reached rfl plain_nil
    · exact run ▸ keeps_of_plain reached rfl plain_nil
    · exact run ▸ keeps_of_plain reached rfl (plain_broadcastInv _ _ _)
  split
  · exact keeps_of_plain reached rfl (plain_handleGetblocks peer.socket message.payload)
  split
  · exact keeps_of_plain reached rfl (plain_single fun _ => by trivial)
  split
  · exact ⟨(reached.handlePeers now (some peer) message.payload).mono [],trivial⟩
  · exact keeps_of_plain reached rfl plain_nil

/-- A peer list goes out only with addresses that are marked as reached. -/
theorem verified_sendPeerList (reached : Reached known n.addressBook) (socket : Nat) (peerAddr : PeerAddress) :
    Verified known (n.sendPeerList socket peerAddr) := by
  unfold sendPeerList
  rcases listed : n.addressBook.sendPeerList peerAddr with _ | list
  · trivial
  · refine ⟨fun address member => ?_,trivial⟩
    obtain ⟨⟨entry,stored,succeeded,rfl⟩,-⟩ := AddressBook.mem_sendPeerList.mp ⟨list,listed,member⟩
    exact (reached entry stored).2 succeeded

theorem verified_gossipPeers (reached : Reached known n.addressBook) : Verified known n.gossipPeers := by
  unfold gossipPeers
  induction n.targets none generalizing known with
  | nil => trivial
  | cons peer rest ih =>
    rw [List.flatMap_cons,verified_append]
    exact ⟨verified_sendPeerList reached peer.socket _,ih (reached.mono _)⟩

theorem startSync_plain (n : RunningNode) (socket now : Nat) (delivered : Bool) :
    (n.startSync socket now delivered).1.addressBook = n.addressBook ∧ Plain (n.startSync socket now delivered).2 := by
  obtain ⟨syncState,said,run,rfl | ⟨locator,rfl⟩⟩ := startSync_cases n socket now delivered
  · rw [run]
    exact ⟨rfl,plain_nil⟩
  · rw [run]
    exact ⟨rfl,plain_single fun _ => by trivial⟩

/-- An address that an outbound peer may report. -/
def Reports (known : List Output) (host : Bytes) (incoming : VersionInfo) : Prop :=
  incoming.listenPort = 0 ∨ .dialed ⟨host,incoming.listenPort⟩ ∈ known

theorem reached_noted (reached : Reached known n.addressBook) {host : Bytes} {isOutbound : Bool} {incoming : VersionInfo}
    (reports : isOutbound = true → Reports known host incoming) (now : Nat) :
    Reached known (n.noted ⟨host,incoming.listenPort⟩ isOutbound now).addressBook := by
  cases isOutbound with
  | true => exact (reached.add now _ true).markSuccess now (reports rfl)
  | false => exact reached.add now _ _

theorem keeps_welcome (reached : Reached known n.addressBook) (socket : Nat) {host : Bytes} {isOutbound : Bool}
    {incoming : VersionInfo} (reports : isOutbound = true → Reports known host incoming) (now : Nat) (delivered : Bool) :
    Keeps known (n.welcome socket host isOutbound incoming now delivered) := by
  have noted := reached_noted reached reports now
  have told := verified_sendPeerList noted socket ⟨host,incoming.listenPort⟩
  unfold welcome
  dsimp only
  generalize n.noted ⟨host,incoming.listenPort⟩ isOutbound now = n' at noted told ⊢
  obtain ⟨same,plain⟩ := startSync_plain n' socket now delivered
  split
  · exact ⟨same ▸ noted.mono _,verified_append.mpr ⟨told,plain.verified _⟩⟩
  · exact ⟨noted.mono _,told⟩

theorem keeps_registerNewPeer (reached : Reached known n.addressBook) (socket : Nat) {host : Bytes} {isOutbound : Bool}
    {incoming : Option VersionInfo} (reports : isOutbound = true → ∀ info ∈ incoming, Reports known host info)
    (now : Nat) (delivered : Bool) :
    Keeps known (n.registerNewPeer socket host isOutbound incoming now delivered).2 := by
  cases registerNewPeer_cases n socket host isOutbound incoming now delivered with
  | turnedAway node own run =>
    rw [run]
    exact ⟨reached.mono _,trivial,trivial⟩
  | kept node own info heard run =>
    subst heard
    have reports : isOutbound = true → Reports (known ++ [.sendMsg socket (.version own)]) host info := by
      intro outbound
      exact (reports outbound info rfl).imp_right (List.mem_append_left _)
    have welcome := keeps_welcome (n := { n with node }) (reached.mono [.sendMsg socket (.version own)]) socket reports
      now delivered
    rw [run]
    refine ⟨?_,trivial,welcome.verified⟩
    simpa using welcome.reached

/-- What a reaction keeps, it keeps if a dial goes before it. -/
theorem Keeps.dialed {said : List Output} {address : PeerAddress} (keeps : Keeps (known ++ [.dialed address]) (n,said)) :
    Keeps known (n,.dialed address :: said) :=
  ⟨by simpa using keeps.reached,trivial,keeps.verified⟩

/-- The outbound peer that answers a dial reports a port that was dialed on its
    host, now or before, or none. -/
def Honest (known : List Output) (dialed : PeerAddress) (answer : Answer) : Prop :=
  ∀ info ∈ answer.incoming, Reports (known ++ [.dialed dialed]) dialed.host info

theorem keeps_connectToPeer (reached : Reached known n.addressBook) {address : PeerAddress} {answer : Answer}
    (honest : Honest known address answer) (now : Nat) : Keeps known (n.connectToPeer address answer now) := by
  unfold connectToPeer
  split
  · exact keeps_of_plain reached rfl plain_nil
  split
  · exact keeps_of_plain reached rfl plain_nil
  dsimp only
  have added := reached.add now address true
  split
  · exact ⟨added.mono [],trivial⟩
  · case h_2 socket connected =>
    exact (keeps_registerNewPeer (n := { n with addressBook := (n.addressBook.add now address true).2 })
      (added.mono _) socket (fun _ => honest) now answer.delivered).dialed

theorem keeps_dialCandidate (reached : Reached known n.addressBook) {answer : Answer} {now : Nat}
    (honest : ∀ candidate ∈ (n.addressBook.selectCandidate now).1, Honest known candidate answer) :
    Keeps known (n.dialCandidate answer now) := by
  unfold dialCandidate
  split
  · exact keeps_of_plain reached rfl plain_nil
  have selected := reached.selectCandidate now
  rcases chosen : n.addressBook.selectCandidate now with ⟨_ | candidate,addressBook⟩
  · rw [chosen] at selected
    exact ⟨selected.mono [],trivial⟩
  rw [chosen] at selected honest
  dsimp only at selected ⊢
  -- The dial is in the history before the book marks the candidate.
  have here : .dialed candidate ∈ known ++ [.dialed candidate] := List.mem_append_right _ (List.mem_singleton.mpr rfl)
  split
  · split
    · exact ⟨(selected.markFailure now candidate).mono [],trivial⟩
    · exact ⟨(selected.mono _).markSuccess now (Or.inr here),trivial,trivial⟩
  · split
    · exact ⟨(selected.markFailure now candidate).mono [],trivial⟩
    · case h_2 socket connected =>
      have reports : true = true → ∀ info ∈ answer.incoming, Reports (known ++ [.dialed candidate]) candidate.host info :=
        fun _ => honest candidate rfl
      have registered := keeps_registerNewPeer (n := { n with addressBook }) (selected.mono [.dialed candidate]) socket
        reports now answer.delivered
      generalize registerNewPeer _ _ _ _ _ _ _ = registration at registered ⊢
      obtain ⟨kept,n',said⟩ := registration
      refine Keeps.dialed ⟨?_,registered.verified⟩
      cases kept with
      | true => exact registered.reached.markSuccess now (Or.inr (List.mem_append_left said here))
      | false => exact registered.reached.markFailure now candidate

/-! ### Runs -/

/-- An input with which every outbound peer that answers is honest. -/
def HonestInput (state : Reaction) : Input → Prop
  | .connectTold address answer _ => Honest state.2 address answer
  | .dialed answer now => ∀ candidate ∈ (state.1.addressBook.selectCandidate now).1, Honest state.2 candidate answer
  | _ => True

theorem keeps_react (reached : Reached known n.addressBook) {input : Input} (honest : HonestInput (n,known) input) :
    Keeps known (n.react P input) := by
  cases input with
  | received socket message reading now =>
    rw [react]
    split
    · exact keeps_of_plain reached rfl plain_nil
    · exact keeps_handle reached _ message reading now
  | lost socket => exact keeps_of_plain reached rfl plain_nil
  | cleaned now wall =>
    refine keeps_of_plain reached ?_ plain_nil
    show (finishSyncIfDue P { n with node := n.node.clean } now wall).addressBook = n.addressBook
    cases finishSyncIfDue_cases P { n with node := n.node.clean } now wall with
    | quiet syncState none run => rw [run]
    | handed syncState buffer some run => rw [run]
  | pinged elapsed => exact keeps_of_plain reached rfl (plain_map (fun _ _ => by trivial) _)
  | syncRequested now delivered =>
    rw [react,requestSync]
    split
    · exact keeps_of_plain reached rfl plain_nil
    · obtain ⟨same,plain⟩ := startSync_plain { n with syncCursor := n.syncCursor + 1 } _ now delivered
      exact keeps_of_plain reached same plain
  | gossiped => exact ⟨reached.mono _,verified_gossipPeers reached⟩
  | accepted host answer now =>
    show Keeps known (n.acceptOnePeer host answer now)
    unfold acceptOnePeer
    split
    · exact keeps_registerNewPeer reached _ (fun outbound => absurd outbound Bool.false_ne_true) now answer.delivered
    · exact keeps_of_plain reached rfl plain_nil
  | connectTold address answer now => exact keeps_connectToPeer reached honest now
  | dialed answer now => exact keeps_dialCandidate reached honest
  | mined reading block =>
    rw [react,submitBlock]
    split
    · exact keeps_of_plain reached rfl plain_nil
    · exact keeps_of_plain reached rfl (plain_announced _ none)
  | paid tx =>
    obtain ⟨said,run,rfl | rfl⟩ := submitTransaction_cases P n tx
    · rw [react,run]
      exact keeps_of_plain reached rfl plain_nil
    · rw [react,run]
      exact keeps_of_plain reached rfl (plain_broadcastInv none _ _)
  | remembered address now => exact ⟨(reached.add now address true).mono [],trivial⟩
  | stopped => exact keeps_of_plain reached rfl plain_nil

/-- Along every run of a new node in which outbound peers report ports that were
    dialed, or none, the node advertises only addresses it has connected to
    before. -/
theorem verified_run (P : Primitives) (listenPort : UInt16) (info : VersionInfo) (chain : ChainManager)
    (inputs : List Input) (honest : Along (step P) HonestInput (new listenPort info chain,[]) inputs) :
    Verified [] (run (step P) (new listenPort info chain,[]) inputs).2 := by
  have kept : ∀ state input, Reached state.2 state.1.addressBook ∧ Verified [] state.2 → HonestInput state input →
      Reached (step P state input).2 (step P state input).1.addressBook ∧ Verified [] (step P state input).2 := by
    rintro state input ⟨reached,verified⟩ honest
    have keeps := keeps_react (P := P) reached honest
    refine ⟨keeps.reached,verified_append.mpr ⟨verified,?_⟩⟩
    rw [List.nil_append]
    exact keeps.verified
  exact (honest.keeps kept ⟨fun entry member => absurd member List.not_mem_nil,trivial⟩).2

/-- A node dials a peer, which reports some port; then another peer dials in. -/
def meeting (reported : UInt16) : List Input :=
  [.connectTold ⟨dottedQuad 8 8 8 8,9000⟩ ⟨some 1,some ⟨1,0,0,reported,2⟩,true⟩ 0,
    .accepted (some (dottedQuad 9 9 9 9)) ⟨some 2,some ⟨1,0,0,9000,3⟩,true⟩ 1]

theorem verified_meeting :
    Along (step Samples.sample) HonestInput (newcomer,[]) (meeting 9000) ∧
      Verified [] (run (step Samples.sample) (newcomer,[]) (meeting 9000)).2 := by
  have honest : Along (step Samples.sample) HonestInput (newcomer,[]) (meeting 9000) := by
    refine ⟨?_,trivial,trivial⟩
    rintro info ⟨⟩
    exact Or.inr (List.mem_singleton.mpr rfl)
  exact ⟨honest,verified_run Samples.sample 9000 ⟨1,0,0,9000,1⟩ Samples.start (meeting 9000) honest⟩

/-- The dialed peer reports another port, and the node advertises that one. -/
theorem undialed_advertised :
    .sendMsg 2 (.peers [⟨dottedQuad 8 8 8 8,22⟩]) ∈ (run (step Samples.sample) (newcomer,[]) (meeting 22)).2 ∧
      .dialed ⟨dottedQuad 8 8 8 8,22⟩ ∉ (run (step Samples.sample) (newcomer,[]) (meeting 22)).2 := by
  decide +kernel

end RunningNode
end ForgeChain
