import ForgeChain.Announce
import ForgeChain.Flood

/-!
Nodes that are connected to each other. A connection has two ends, each a socket
of one node; what a node sends on a socket waits at the other end until it is
delivered there, in order. A step of the network delivers one message or lets one
node take another turn, so a run is any interleaving of the threads of all nodes
with any delays on the way. An item that nodes announce, ask for and send spreads
as the abstract protocol says (`Spreads`, `Mirrors`).
-/
namespace ForgeChain
open Runs RunningNode

/-- Connections between nodes; a node tells its own ends apart by their sockets. -/
structure Cables (ι E : Type) extends Flood.Links ι E where
  socket : E → Nat
  distinct : ∀ e f, owner e = owner f → socket e = socket f → e = f

/-- The nodes, and the messages on their way to each end, oldest first. -/
structure Network (ι E : Type) where
  nodes : ι → RunningNode
  inbox : E → List Message

namespace Network
section
variable {ι E : Type} [DecidableEq ι] [DecidableEq E] (P : Primitives) (cables : Cables ι E)

/-- What a node's outputs put on the way to an end: `send_message` refuses
    payloads above the limit. -/
def posted (i : ι) (said : List Output) (e : E) : List Message :=
  said.filterMap fun output => match output with
    | .dialed _ => none
    | .sendMsg socket message =>
      if cables.owner (cables.other e) = i ∧ cables.socket (cables.other e) = socket ∧
          message.message.payload.length ≤ maxPayloadSize.toNat then some message.message
      else none

/-- A node takes a turn. -/
def react (net : Network ι E) (i : ι) (input : Input) : Network ι E where
  nodes := Function.update net.nodes i ((net.nodes i).next P input)
  inbox e := net.inbox e ++ posted cables i ((net.nodes i).react P input).2 e

inductive Action (ι E : Type) where
  | deliver (e : E) (reading : Reading) (now : Nat)
  | act (i : ι) (input : Input)

/-- The oldest message on its way to an end is handled there, or a node takes a
    turn of another kind. A message that a node gets in such a turn comes from
    outside of the network. -/
def step (net : Network ι E) : Action ι E → Network ι E
  | .deliver e reading now =>
    match net.inbox e with
    | [] => net
    | message :: rest =>
      { net with inbox := Function.update net.inbox e rest }.react P cables (cables.owner e)
        (.received (cables.socket e) message reading now)
  | .act i input => net.react P cables i input

/-- Nothing is on its way. -/
def Quiet (net : Network ι E) : Prop := ∀ e, net.inbox e = []

instance [Fintype E] (net : Network ι E) : Decidable net.Quiet := inferInstanceAs (Decidable (∀ e, net.inbox e = []))

/-- The action delivers a message. -/
def Delivers (net : Network ι E) : Action ι E → Prop
  | .deliver e _ _ => net.inbox e ≠ []
  | .act _ _ => False

end

/-! ### What is put on the way -/

section
variable {ι E : Type} [DecidableEq ι] {cables : Cables ι E} {i : ι} {e : E} {message : Outgoing}

@[simp] theorem posted_nil : posted cables i [] e = [] := rfl

@[simp] theorem nodes_react_self (P : Primitives) (net : Network ι E) (input : Input) :
    (net.react P cables i input).nodes i = (net.nodes i).next P input := Function.update_self ..

@[simp] theorem nodes_react_of_ne (P : Primitives) (net : Network ι E) (input : Input) {j : ι} (other : j ≠ i) :
    (net.react P cables i input).nodes j = net.nodes j := Function.update_of_ne other ..

theorem filterMap_here {m : Message} {c : Nat} {sockets : List Nat} (distinct : sockets.Nodup) :
    (sockets.filterMap fun socket => if c = socket then some m else none) = if c ∈ sockets then [m] else [] := by
  induction sockets with
  | nil => rfl
  | cons first rest ih =>
    obtain ⟨new,distinct⟩ := List.nodup_cons.mp distinct
    by_cases here : c = first
    · subst here
      have none_later : ∀ socket ∈ rest, ¬ c = socket := fun socket member same => new (same ▸ member)
      simpa using none_later
    · simp [ih distinct,here]

/-- A message to several peers arrives once at the other end of each. -/
theorem posted_map {sockets : List Nat} (distinct : sockets.Nodup)
    (small : message.message.payload.length ≤ maxPayloadSize.toNat) :
    posted cables i (sockets.map fun socket => .sendMsg socket message) e =
      if cables.owner (cables.other e) = i ∧ cables.socket (cables.other e) ∈ sockets then [message.message] else [] := by
  by_cases own : cables.owner (cables.other e) = i
  · simp only [posted,List.filterMap_map,Function.comp_def,own,small,and_true,true_and]
    exact filterMap_here distinct
  · simp [posted,List.filterMap_map,own]

/-- A message arrives at the other end of the connection and nowhere else. -/
theorem posted_single (f : E) (small : message.message.payload.length ≤ maxPayloadSize.toNat) [DecidableEq E] :
    posted cables (cables.owner f) [.sendMsg (cables.socket f) message] e =
      if e = cables.other f then [message.message] else [] := by
  rw [← List.map_singleton (f := fun socket => Output.sendMsg socket message),
    posted_map (List.nodup_singleton (cables.socket f)) small]
  refine if_congr ?_ rfl rfl
  rw [List.mem_singleton]
  constructor
  · rintro ⟨own,socket⟩
    rw [← cables.distinct _ _ own socket,cables.other_other]
  · rintro rfl
    rw [cables.other_other]
    exact ⟨rfl,rfl⟩

end

/-! ### An item that spreads -/

section
variable {ι E : Type} [DecidableEq ι] [DecidableEq E]

/-- The sockets of the live peers of a node. -/
def sockets (n : RunningNode) : List Nat := (n.targets none).map Peer.socket

/-- Nodes announce, ask for and send an item: what the messages are, in which
    states a node lacks the item and in which it has it, and how it reacts to each
    message in these states, with readings of the clock of some kind. -/
structure Spreads (P : Primitives) (cables : Cables ι E) (readings : Reading → Prop) (announce request item : Outgoing)
    (lacking having : ι → RunningNode → Prop) : Prop where
  announceSmall : announce.message.payload.length ≤ maxPayloadSize.toNat
  requestSmall : request.message.payload.length ≤ maxPayloadSize.toNat
  itemSmall : item.message.payload.length ≤ maxPayloadSize.toNat
  /-- a node that lacks the item has one live peer for every end it owns -/
  distinct : ∀ {i n}, lacking i n → (sockets n).Nodup
  connected : ∀ {n e}, lacking (cables.owner e) n → cables.socket e ∈ sockets n
  lackTold : ∀ {n e reading} now, readings reading → lacking (cables.owner e) n →
    n.react P (.received (cables.socket e) announce.message reading now) = (n,[.sendMsg (cables.socket e) request])
  lackSent : ∀ {n e reading} now, readings reading → lacking (cables.owner e) n →
    having (cables.owner e) (n.next P (.received (cables.socket e) item.message reading now)) ∧
      (n.react P (.received (cables.socket e) item.message reading now)).2 =
        ((sockets n).filter (· ≠ cables.socket e)).map fun socket => .sendMsg socket announce
  haveTold : ∀ {n e reading} now, readings reading → having (cables.owner e) n →
    having (cables.owner e) (n.next P (.received (cables.socket e) announce.message reading now)) ∧
      (n.react P (.received (cables.socket e) announce.message reading now)).2 = []
  haveAsked : ∀ {n e reading} now, readings reading → having (cables.owner e) n →
    having (cables.owner e) (n.next P (.received (cables.socket e) request.message reading now)) ∧
      ∃ sent, sent.message = item.message ∧
        (n.react P (.received (cables.socket e) request.message reading now)).2 = [.sendMsg (cables.socket e) sent]
  haveSent : ∀ {n e reading} now, readings reading → having (cables.owner e) n →
    having (cables.owner e) (n.next P (.received (cables.socket e) item.message reading now)) ∧
      (n.react P (.received (cables.socket e) item.message reading now)).2 = []

/-- The message of a note. -/
def encode (announce request item : Outgoing) : Flood.Note → Message
  | .announce => announce.message
  | .request => request.message
  | .item => item.message

/-- A network in which everything on its way is about one item, beside the
    abstract state. -/
structure Mirrors (announce request item : Outgoing) (lacking having : ι → RunningNode → Prop) (net : Network ι E)
    (s : Flood.State ι E) : Prop where
  lacks : ∀ i, s.has i = false → lacking i (net.nodes i)
  has : ∀ i, s.has i = true → having i (net.nodes i)
  inbox : ∀ e, net.inbox e = (s.queue e).map (encode announce request item)

variable {P : Primitives} {cables : Cables ι E} {readings : Reading → Prop} {announce request item : Outgoing}
  {lacking having : ι → RunningNode → Prop} {net : Network ι E} {s : Flood.State ι E} {e : E} {reading : Reading}

omit [DecidableEq E] in
/-- A node takes a turn on both sides. -/
theorem Mirrors.react (mirrors : Mirrors announce request item lacking having net s) {i : ι} {input : Input}
    {s' : Flood.State ι E} (others : ∀ j, j ≠ i → s'.has j = s.has j)
    (lacks : s'.has i = false → lacking i ((net.nodes i).next P input))
    (has : s'.has i = true → having i ((net.nodes i).next P input))
    (sent : ∀ f, (s'.queue f).map (encode announce request item) =
      (s.queue f).map (encode announce request item) ++ posted cables i ((net.nodes i).react P input).2 f) :
    Mirrors announce request item lacking having (net.react P cables i input) s' := by
  refine ⟨fun j missing => ?_,fun j there => ?_,fun f => ?_⟩
  · by_cases here : j = i
    · subst here
      simpa using lacks missing
    · rw [others j here] at missing
      simpa [here] using mirrors.lacks j missing
  · by_cases here : j = i
    · subst here
      simpa using has there
    · rw [others j here] at there
      simpa [here] using mirrors.has j there
  · rw [sent f,← mirrors.inbox f]
    rfl

/-- What the reply of a node puts on the way. -/
theorem queue_send (s : Flood.State ι E) (f : E) {note : Flood.Note} {message : Outgoing}
    (means : encode announce request item note = message.message)
    (small : message.message.payload.length ≤ maxPayloadSize.toNat) :
    ((s.send cables.toLinks e note).queue f).map (encode announce request item) =
      (s.queue f).map (encode announce request item) ++
        posted cables (cables.owner e) [.sendMsg (cables.socket e) message] f := by
  rw [posted_single e small,Flood.State.send]
  by_cases here : f = cables.other e
  · subst here
    simp [means]
  · simp [here]

/-- What the announcements of a node put on the way. -/
theorem queue_gain (s : Flood.State ι E) (f : E) {ends : List Nat} (distinct : ends.Nodup)
    (connected : ∀ g, cables.owner g = cables.owner e → cables.socket g ∈ ends)
    (small : announce.message.payload.length ≤ maxPayloadSize.toNat) :
    ((s.gain cables.toLinks e).queue f).map (encode announce request item) =
      (s.queue f).map (encode announce request item) ++
        posted cables (cables.owner e)
          ((ends.filter (· ≠ cables.socket e)).map fun socket => .sendMsg socket announce) f := by
  rw [posted_map (distinct.filter _) small,Flood.State.gain]
  dsimp only
  have same : (cables.owner (cables.other f) = cables.owner e ∧
      cables.socket (cables.other f) ∈ ends.filter (· ≠ cables.socket e)) ↔
      (cables.owner (cables.other f) = cables.owner e ∧ cables.other f ≠ e) := by
    refine and_congr_right fun own => ?_
    simp only [List.mem_filter,decide_eq_true_eq,connected _ own,true_and,ne_eq]
    exact not_congr ⟨cables.distinct _ _ own,congrArg cables.socket⟩
  rw [if_congr same rfl rfl]
  split
  · simp [encode]
  · simp

/-- A delivery in the network is one in the abstract state. -/
theorem Mirrors.deliver (spreads : Spreads P cables readings announce request item lacking having)
    (sound : Flood.Sound cables.toLinks s) (mirrors : Mirrors announce request item lacking having net s) (e : E)
    (now : Nat) (read : readings reading) :
    Mirrors announce request item lacking having (net.step P cables (.deliver e reading now))
      (s.deliver cables.toLinks e) := by
  have inbox := mirrors.inbox e
  rcases first : s.queue e with _ | ⟨note,rest⟩
  · rw [first] at inbox
    simp only [step,inbox,List.map_nil,Flood.State.deliver,first]
    exact mirrors
  have taken : Mirrors announce request item lacking having
      { net with inbox := Function.update net.inbox e (rest.map (encode announce request item)) }
      { s with queue := Function.update s.queue e rest } := by
    refine ⟨mirrors.lacks,mirrors.has,fun f => ?_⟩
    by_cases here : f = e
    · subst here
      simp
    · simp [here,mirrors.inbox f]
  have backed := sound.backed e note (by simp [first])
  rw [first,List.map_cons] at inbox
  simp only [step,inbox,Flood.State.deliver,first]
  generalize popped : ({ s with queue := Function.update s.queue e rest } : Flood.State ι E) = t at taken ⊢
  have kept : t.has = s.has := popped ▸ rfl
  rcases owned : t.has (cables.owner e) with _ | _
  · have lacks := taken.lacks _ owned
    cases note with
    | announce =>
      have told := spreads.lackTold now read lacks
      simp only [encode,Flood.State.handle,owned,Bool.false_eq_true,if_false]
      refine taken.react (fun j _ => rfl) (fun _ => ?_) (fun has => ?_) fun f => ?_
      · rw [next,told]
        exact lacks
      · exact absurd (owned.symm.trans has) Bool.false_ne_true
      · rw [told]
        exact queue_send t f rfl spreads.requestSmall
    | request => exact absurd (owned.symm.trans (kept ▸ backed)) Bool.false_ne_true
    | item =>
      obtain ⟨having_now,said⟩ := spreads.lackSent now read lacks
      simp only [encode,Flood.State.handle,owned,Bool.false_eq_true,if_false]
      refine taken.react (fun j other => ?_) (fun missing => ?_) (fun _ => having_now) fun f => ?_
      · simp [Flood.State.gain,other]
      · rw [Flood.has_gain.mpr (.inl rfl)] at missing
        cases missing
      · rw [said]
        exact queue_gain t f (spreads.distinct lacks) (fun g own => spreads.connected (own ▸ lacks)) spreads.announceSmall
  · have has := taken.has _ owned
    cases note with
    | announce =>
      obtain ⟨still,said⟩ := spreads.haveTold now read has
      simp only [encode,Flood.State.handle,owned,if_true]
      refine taken.react (fun j _ => rfl) (fun missing => ?_) (fun _ => still) fun f => ?_
      · exact absurd (missing.symm.trans owned) Bool.false_ne_true
      · rw [said,posted_nil,List.append_nil]
    | request =>
      obtain ⟨still,sent,same,said⟩ := spreads.haveAsked now read has
      simp only [encode,Flood.State.handle,owned,if_true]
      refine taken.react (fun j _ => rfl) (fun missing => ?_) (fun _ => still) fun f => ?_
      · exact absurd (missing.symm.trans owned) Bool.false_ne_true
      · rw [said]
        exact queue_send t f same.symm (same ▸ spreads.itemSmall)
    | item =>
      obtain ⟨still,said⟩ := spreads.haveSent now read has
      simp only [encode,Flood.State.handle,owned,if_true]
      refine taken.react (fun j _ => rfl) (fun missing => ?_) (fun _ => still) fun f => ?_
      · exact absurd (missing.symm.trans owned) Bool.false_ne_true
      · rw [said,posted_nil,List.append_nil]

/-- A node gets the item by itself and announces it to all its peers. -/
theorem Spreads.started (spreads : Spreads P cables readings announce request item lacking having) (quiet : net.Quiet)
    (lacks : ∀ i, lacking i (net.nodes i)) (origin : ι) {input : Input} {n : RunningNode}
    (reacted : (net.nodes origin).react P input =
      (n,(sockets (net.nodes origin)).map fun socket => .sendMsg socket announce)) (got : having origin n) :
    Mirrors announce request item lacking having (net.step P cables (.act origin input))
      (Flood.State.start cables.toLinks origin) := by
  have before : Mirrors announce request item lacking having net ⟨fun _ => false,fun _ => []⟩ :=
    ⟨fun i _ => lacks i,nofun,quiet⟩
  refine before.react (fun j other => by simp [Flood.State.start,other]) (fun missing => ?_) (fun _ => ?_) fun f => ?_
  · simp [Flood.State.start] at missing
  · rw [next,reacted]
    exact got
  · rw [reacted,posted_map (spreads.distinct (lacks origin)) spreads.announceSmall]
    have same : (cables.owner (cables.other f) = origin ∧ cables.socket (cables.other f) ∈ sockets (net.nodes origin)) ↔
        cables.owner (cables.other f) = origin :=
      and_iff_left_of_imp fun own => own ▸ spreads.connected (lacks _)
    rw [if_congr same rfl rfl,Flood.State.start]
    dsimp only
    split <;> simp [encode]

/-- A delivery: where, and the clocks that are read there. -/
abbrev Delivery (E : Type) := E × Reading × Nat

def Delivery.action (delivery : Delivery E) : Action ι E := .deliver delivery.1 delivery.2.1 delivery.2.2

theorem Mirrors.run (spreads : Spreads P cables readings announce request item lacking having)
    (sound : Flood.Sound cables.toLinks s) (mirrors : Mirrors announce request item lacking having net s)
    {deliveries : List (Delivery E)} (read : ∀ delivery ∈ deliveries, readings delivery.2.1) :
    Mirrors announce request item lacking having (Runs.run (step P cables) net (deliveries.map Delivery.action))
      (Runs.run (Flood.State.deliver cables.toLinks) s (deliveries.map Prod.fst)) := by
  induction deliveries generalizing net s with
  | nil => exact mirrors
  | cons delivery rest ih =>
    obtain ⟨first,later⟩ := List.forall_mem_cons.mp read
    exact ih (sound.deliver delivery.1) (mirrors.deliver spreads sound delivery.1 delivery.2.2 first) later

/-- Deliveries of messages are deliveries of notes. -/
theorem Mirrors.along (spreads : Spreads P cables readings announce request item lacking having)
    (sound : Flood.Sound cables.toLinks s) (mirrors : Mirrors announce request item lacking having net s)
    {deliveries : List (Delivery E)} (read : ∀ delivery ∈ deliveries, readings delivery.2.1)
    (delivers : Along (step P cables) Delivers net (deliveries.map Delivery.action)) :
    Along (Flood.State.deliver cables.toLinks) (fun s e => s.queue e ≠ []) s (deliveries.map Prod.fst) := by
  induction deliveries generalizing net s with
  | nil => trivial
  | cons delivery rest ih =>
    obtain ⟨first,later⟩ := List.forall_mem_cons.mp read
    refine ⟨fun none_left => delivers.1 ?_,?_⟩
    · rw [mirrors.inbox,none_left,List.map_nil]
    · exact ih (sound.deliver delivery.1) (mirrors.deliver spreads sound delivery.1 delivery.2.2 first) later delivers.2

/-- An item that one node has announced to all its peers: however the messages
    are delivered, there are boundedly many, and when none is left every node that
    connections lead to has it. -/
theorem Spreads.everywhere [Fintype ι] [Fintype E]
    (spreads : Spreads P cables readings announce request item lacking having) {origin : ι}
    (mirrors : Mirrors announce request item lacking having net (Flood.State.start cables.toLinks origin))
    {deliveries : List (Delivery E)} (read : ∀ delivery ∈ deliveries, readings delivery.2.1) :
    (Along (step P cables) Delivers net (deliveries.map Delivery.action) →
      deliveries.length ≤ 3 * Fintype.card ι * Fintype.card E) ∧
    ((Runs.run (step P cables) net (deliveries.map Delivery.action)).Quiet →
      ∀ i, Relation.ReflTransGen (Flood.Linked cables.toLinks) origin i →
        having i ((Runs.run (step P cables) net (deliveries.map Delivery.action)).nodes i)) := by
  have sound : Flood.Sound cables.toLinks (.start cables.toLinks origin) := Flood.sound_start origin
  have last := mirrors.run spreads sound read
  refine ⟨fun delivers => ?_,fun quiet i leads => ?_⟩
  · have bounded := Flood.deliveries_bounded (mirrors.along spreads sound read delivers)
    rw [List.length_map] at bounded
    exact bounded.trans (Flood.measure_start_le origin)
  · refine last.has i (Flood.reached_of_quiet (fun e => ?_) leads)
    have empty := quiet e
    rwa [last.inbox,List.map_eq_nil_iff] at empty

end
end Network
end ForgeChain
