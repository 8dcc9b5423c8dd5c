import ForgeChain.Custody
import ForgeChain.Network
import ForgeChain.Wire

/-!
Where the blocks and transactions of a network come from. Every step of a network
keeps a kind of blocks and transactions that its nodes pass on (`Clean.step`).
That a block came in at some step is such a kind: so whatever the interleaving,
nothing is in a chain, an orphan pool or a mempool that nobody mined, paid or
brought in from outside (`nothing_from_nowhere`).
-/
namespace ForgeChain.Origins
open Runs RunningNode Network Custody

/-! ### A network -/

section
variable {ι E : Type} [DecidableEq ι] {P : Primitives} {cables : Cables ι E} {K : Block → Prop} {T : Transaction → Prop}
  {net : Network ι E}

/-- Everything that the nodes have and that is on its way is of a kind. -/
structure Clean (P : Primitives) (K : Block → Prop) (T : Transaction → Prop) (net : Network ι E) : Prop where
  regular : ∀ i, Regular P (net.nodes i).chain
  keeps : ∀ i, Keeps K T (net.nodes i)
  inbox : ∀ e, ∀ message ∈ net.inbox e, Readable P K T message

theorem mem_posted {i : ι} {said : List Output} {e : E} {message : Message} (member : message ∈ posted cables i said e) :
    ∃ socket outgoing, .sendMsg socket outgoing ∈ said ∧ outgoing.message = message := by
  unfold posted at member
  obtain ⟨output,there,sent⟩ := List.mem_filterMap.mp member
  split at sent
  · case h_1 => cases sent
  · case h_2 socket outgoing =>
    split at sent
    · cases sent
      exact ⟨socket,outgoing,there,rfl⟩
    · cases sent

theorem Clean.react (clean : Clean P K T net) (passes : Passes P K T) {i : ι} {input : Input}
    (reaches : Reaches P K T input) : Clean P K T (net.react P cables i input) := by
  refine ⟨fun j => ?_,fun j => ?_,fun e message member => ?_⟩
  · by_cases here : j = i
    · subst here
      simpa using regular_next (clean.regular j) input
    · simpa [here] using clean.regular j
  · by_cases here : j = i
    · subst here
      simpa using (clean.keeps j).next passes.toKinds (clean.regular j) reaches
    · simpa [here] using clean.keeps j
  · rcases List.mem_append.mp member with old | new
    · exact clean.inbox e message old
    · obtain ⟨socket,outgoing,said,rfl⟩ := mem_posted new
      exact passes.readable ((clean.keeps i).carries_react said)

/-- What reaches a network from outside in a step is of a kind. -/
def Comes (P : Primitives) (K : Block → Prop) (T : Transaction → Prop) : Action ι E → Prop
  | .deliver _ _ _ => True
  | .act _ input => Reaches P K T input

variable [DecidableEq E]

theorem Clean.step (clean : Clean P K T net) (passes : Passes P K T) {action : Action ι E} (comes : Comes P K T action) :
    Clean P K T (net.step P cables action) := by
  cases action with
  | act i input => exact clean.react passes comes
  | deliver e reading now =>
    rw [Network.step]
    rcases first : net.inbox e with _ | ⟨message,rest⟩
    · exact clean
    · have here := clean.inbox e
      rw [first] at here
      obtain ⟨readable,later⟩ := List.forall_mem_cons.mp here
      have taken : Clean P K T { net with inbox := Function.update net.inbox e rest } := by
        refine ⟨clean.regular,clean.keeps,fun f other member => ?_⟩
        by_cases same : f = e
        · subst same
          exact later other (by simpa using member)
        · exact clean.inbox f other (by simpa [same] using member)
      exact taken.react passes readable

theorem Clean.run (clean : Clean P K T net) (passes : Passes P K T) {actions : List (Action ι E)}
    (comes : ∀ action ∈ actions, Comes P K T action) : Clean P K T (run (Network.step P cables) net actions) := by
  induction actions generalizing net with
  | nil => exact clean
  | cons action rest ih =>
    obtain ⟨first,later⟩ := List.forall_mem_cons.mp comes
    exact ih (clean.step passes first) later

/-! ### Origins -/

/-- The block without the work that the chain has noted. -/
def bare (block : Block) : Block := { block with cumulativeWork := 0 }

/-- The block that comes into a network with a step: mined, or read off a message
    from outside. -/
def blockOf (P : Primitives) : Action ι E → Option Block
  | .act _ (.mined _ block) => some block
  | .act _ (.received _ message _ _) => if message.type = .block then Block.deserialize P message.payload else none
  | _ => none

/-- The transaction that comes into a network with a step: submitted, or read off
    a message from outside. -/
def txOf : Action ι E → Option Transaction
  | .act _ (.paid tx) => some tx
  | .act _ (.received _ message _ _) => if message.type = .tx then Transaction.deserialize message.payload else none
  | _ => none

/-- The block is on the wire as it is, but for the noted work. -/
structure Whole (P : Primitives) (block : Block) : Prop where
  fits : block.Fits
  hash : block.hash = block.computeHash P

theorem Whole.deserialize {block : Block} (whole : Whole P block) :
    Block.deserialize P block.serialize = some (bare block) :=
  (Block.decodes P block.serialize (bare block)).mpr
    ⟨⟨⟨whole.fits.count,whole.fits.sizes⟩,⟨whole.hash,rfl⟩⟩,rfl⟩

theorem whole_of_deserialize {payload : Bytes} {block : Block} (read : Block.deserialize P payload = some block) :
    Whole P block := by
  obtain ⟨⟨fits,fresh⟩,-⟩ := (Block.decodes P payload block).mp read
  exact ⟨fits,fresh.hash⟩

theorem whole_genesis (P : Primitives) : Whole P (Block.genesis P) := ⟨⟨Nat.two_pow_pos 32,nofun⟩,rfl⟩

/-- The block is the genesis block or came with one of the steps. -/
def Came (P : Primitives) (actions : List (Action ι E)) (block : Block) : Prop :=
  bare block = bare (Block.genesis P) ∨
    ∃ action ∈ actions, ∃ source, blockOf P action = some source ∧ bare block = bare source

/-- The transaction came with one of the steps, by itself or in a block. -/
def CameTx (P : Primitives) (actions : List (Action ι E)) (tx : Transaction) : Prop :=
  (∃ action ∈ actions, txOf action = some tx) ∨
    ∃ action ∈ actions, ∃ source, blockOf P action = some source ∧ tx ∈ source.transactions

/-- Steps by which only well-formed blocks and transactions are mined and
    submitted; what comes from other networks is as it is. -/
def Wellformed (P : Primitives) : Action ι E → Prop
  | .act _ (.mined _ block) => Whole P block
  | .act _ (.paid tx) => tx.Fits
  | _ => True

omit [DecidableEq ι] [DecidableEq E] in
/-- Well-formed blocks and transactions with an origin are passed on as such. -/
theorem passes_came (P : Primitives) (actions : List (Action ι E)) :
    Passes P (fun block => Whole P block ∧ Came P actions block)
      (fun tx => tx.Fits ∧ CameTx P actions tx) where
  stamped _ known := ⟨⟨⟨known.1.fits.count,known.1.fits.sizes⟩,known.1.hash⟩,known.2⟩
  contents := by
    rintro block ⟨whole,genesis | ⟨action,member,source,here,same⟩⟩ tx inside
    · have none_there : (bare block).transactions = [] := congrArg Block.transactions genesis
      exact absurd inside (none_there ▸ List.not_mem_nil)
    · have shared : (bare block).transactions = (bare source).transactions := congrArg Block.transactions same
      have inside_source : tx ∈ (bare source).transactions := shared ▸ inside
      exact ⟨Transaction.fits_of_short (whole.fits.sizes tx inside),.inr ⟨action,member,source,here,inside_source⟩⟩
  block := by
    rintro sent read ⟨whole,came⟩ here
    obtain rfl : bare sent = read := Option.some.inj (whole.deserialize.symm.trans here)
    exact ⟨whole_of_deserialize here,came⟩
  tx := by
    rintro sent read ⟨fits,came⟩ here
    obtain rfl : sent = read := Option.some.inj (((Transaction.decodes _ sent).mpr ⟨fits,rfl⟩).symm.trans here)
    exact ⟨fits,came⟩

omit [DecidableEq ι] [DecidableEq E] in
theorem comes_came {actions : List (Action ι E)} (wellformed : ∀ action ∈ actions, Wellformed P action) :
    ∀ action ∈ actions, Comes P (fun block => Whole P block ∧ Came P actions block)
      (fun tx => tx.Fits ∧ CameTx P actions tx) action := by
  rintro (⟨e,reading,now⟩ | ⟨i,input⟩) member
  · trivial
  have fine := wellformed _ member
  cases input with
  | received socket message reading now =>
    refine ⟨fun type block read => ?_,fun type tx read => ?_⟩
    · exact ⟨whole_of_deserialize read,.inr ⟨_,member,block,by rw [blockOf,if_pos type,read],rfl⟩⟩
    · exact ⟨((Transaction.decodes _ _).mp read).1,.inl ⟨_,member,by rw [txOf,if_pos type,read]⟩⟩
  | mined reading block => exact ⟨fine,.inr ⟨_,member,block,rfl,rfl⟩⟩
  | paid tx => exact ⟨fine,.inl ⟨_,member,rfl⟩⟩
  | _ => trivial

/-- A network of nodes that have just been started, with nothing on its way. -/
structure Fresh (P : Primitives) (net : Network ι E) : Prop where
  quiet : net.Quiet
  nodes : ∀ i, ∃ listenPort info mempoolMaxSize params storage,
    net.nodes i = .new listenPort info (.new P mempoolMaxSize params storage)

/-- Whatever is mined, paid and brought in, and whatever the order of the
    deliveries: a block in a chain or an orphan pool came in somewhere, and so did
    a transaction in a mempool. -/
theorem nothing_from_nowhere (fresh : Fresh P net) (actions : List (Action ι E))
    (wellformed : ∀ action ∈ actions, Wellformed P action) (i : ι) :
    let chain := ((run (Network.step P cables) net actions).nodes i).chain
    (∀ block ∈ chain.blockchain.blocks, Came P actions block) ∧
      (∀ block ∈ chain.orphanPool.blocks, Came P actions block) ∧
      ∀ tx ∈ chain.mempool.pending, CameTx P actions tx := by
  intro chain
  have clean : Clean P (fun block => Whole P block ∧ Came P actions block)
      (fun tx => tx.Fits ∧ CameTx P actions tx) net := by
    refine ⟨fun j => ?_,fun j => ?_,fun e message member => ?_⟩
    · obtain ⟨listenPort,info,mempoolMaxSize,params,storage,new⟩ := fresh.nodes j
      rw [new]
      exact regular_new P mempoolMaxSize params storage
    · obtain ⟨listenPort,info,mempoolMaxSize,params,storage,new⟩ := fresh.nodes j
      rw [new]
      refine ⟨⟨fun block member => ?_,nofun,nofun⟩,nofun⟩
      obtain rfl : block = Block.genesis P := List.mem_singleton.mp member
      exact ⟨whole_genesis P,.inl rfl⟩
    · rw [fresh.quiet e] at member
      cases member
  have last : Clean P _ _ (run (Network.step P cables) net actions) :=
    clean.run (passes_came P actions) (comes_came wellformed)
  have kept := last.keeps i
  exact ⟨fun block member => (kept.holds.chain block member).2,fun block member => (kept.holds.pool block member).2,
    fun tx member => (kept.holds.mempool tx member).2⟩

end

open Samples

/-- One node, without connections. -/
def alone : Network Unit Empty := ⟨fun _ => newcomer,fun _ => []⟩

def aloneCable : Cables Unit Empty where
  owner := nofun
  other := nofun
  other_other := nofun
  socket := nofun
  distinct := nofun

/-- The node is paid and mines. -/
def mining : List (Action Unit Empty) := [.act () (.paid pay),.act () (.mined reading plainA)]

theorem nothing_from_nowhere_mining :
    let chain := ((run (Network.step sample aloneCable) alone mining).nodes ()).chain
    chain.blockchain.latest.hash = plainA.hash ∧ (∀ block ∈ chain.blockchain.blocks, Came sample mining block) ∧
      chain.mempool.pending = [pay] ∧ ∀ tx ∈ chain.mempool.pending, CameTx sample mining tx := by
  have fresh : Fresh sample alone := ⟨fun _ => rfl,fun _ => ⟨_,_,_,_,_,rfl⟩⟩
  have wellformed : ∀ action ∈ mining, Wellformed sample action := by
    have paid : pay.Fits := Transaction.fits_of_short (by decide +kernel)
    have whole : Whole sample plainA := ⟨⟨by decide +kernel,nofun⟩,by decide +kernel⟩
    exact List.forall_mem_cons.mpr ⟨paid,List.forall_mem_singleton.mpr whole⟩
  have known := @nothing_from_nowhere Unit Empty _ sample aloneCable alone _ fresh mining wellformed ()
  exact ⟨by decide +kernel,known.1,by decide +kernel,known.2.2⟩

end ForgeChain.Origins
