import ForgeChain.Batch
import ForgeChain.Network
import ForgeChain.Residence

/-!
A new block, and a new transaction, on their way through a network of nodes. A
node that accepts one announces it to its other peers; a peer that has not got it
asks for it. So it reaches every node that connections lead to, whatever the
delays (`block_reaches_everyone`, `transaction_reaches_everyone`), and there are
at most three messages for each node and each end of a connection.
-/
namespace ForgeChain.Spreading
open Tally Runs RunningNode Network Batch

/-! ### A block that comes again -/

section
variable {P : Primitives} {m : ChainManager} {block : Block} {base : Blockchain} {reading : Reading}

/-- The chain ends with a block, on the tip of what it was before. -/
structure Topped (base : Blockchain) (block : Block) (m : ChainManager) : Prop where
  grown : m.blockchain = base.addBlock block
  tip : TipIndexed base
  parent : block.prevHash = base.latest.hash
  new : base.hasBlock block.hash = false
  childless : ∀ other ∈ m.orphanPool.blocks, other.prevHash ≠ block.hash

theorem Topped.apart (topped : Topped base block m) : block.prevHash ≠ block.hash := by
  intro same
  have there : base.hasBlock block.prevHash = true := by
    have found := topped.tip
    rw [TipIndexed,← topped.parent,Blockchain.findHeight] at found
    rw [Blockchain.hasBlock,found]
    rfl
  rw [same,topped.new] at there
  cases there

theorem Topped.find_parent (topped : Topped base block m) : m.blockchain.find block.prevHash = some base.latest := by
  have old : (base.addBlock block).findHeight block.prevHash = base.findHeight block.prevHash := by
    rw [Blockchain.findHeight,Blockchain.addBlock,Finmap.lookup_insert_of_ne _ topped.apart]
    rfl
  have height := topped.tip
  rw [TipIndexed,← topped.parent,← old,← topped.grown] at height
  rw [Blockchain.find,height]
  have there : base.blocks[base.size - 1]? = some base.latest := by
    rw [Blockchain.latest,Blockchain.size,List.getLast_eq_getElem,List.getElem?_eq_getElem]
  have inside := (List.getElem?_eq_some_iff.mp there).1
  simpa [topped.grown,Blockchain.addBlock,List.getElem?_append_left inside] using there

theorem Topped.traced (topped : Topped base block m) (pool : OrphanPool) :
    buildForkChain m.blockchain pool block = some ⟨[block],base.latest⟩ := by
  rw [buildForkChain,kMaxForkDepth,traceFork,topped.find_parent]

/-- On its own the block is as heavy as the chain. -/
theorem Topped.light (topped : Topped base block m) : isForkHeavier m.blockchain ⟨[block],base.latest⟩ = false := by
  rw [isForkHeavier,forkWork,topped.grown,Blockchain.latest_addBlock]
  simp [UInt64.add_comm]

theorem Topped.childless_pooled (topped : Topped base block m) :
    ∀ other ∈ (m.pooled block).orphanPool.blocks, other.prevHash ≠ block.hash := by
  intro other member
  obtain ⟨hash,found⟩ := OrphanPool.mem_blocks.mp member
  rcases OrphanPool.findOrphan_of_addOrphan found with ⟨-,rfl⟩ | old
  · exact topped.apart
  · exact topped.childless other (OrphanPool.mem_blocks.mpr ⟨hash,old⟩)

theorem Topped.tips (topped : Topped base block m) (walk : WalkOrder) :
    ChainManager.findForkTips (m.pooled block).orphanPool walk block = [block] := by
  have none_there : (m.pooled block).orphanPool.childrenOf walk block.hash = [] := by
    refine List.eq_nil_iff_forall_not_mem.mpr fun other member => ?_
    obtain ⟨there,parent⟩ := OrphanPool.mem_childrenOf.mp member
    exact topped.childless_pooled other there parent
  simp [ChainManager.findForkTips,kMaxForkDepth,ChainManager.walkTips,none_there]

theorem Topped.chosen_light (topped : Topped base block m) (regular : Regular P m) {fork : ForkChain}
    (chosen : Chosen P m reading block fork) : isForkHeavier m.blockchain fork = false := by
  obtain ⟨-,best⟩ := chosen
  rw [topped.tips] at best
  rcases bestFork_spec P (m.pooled block) reading.now regular.sound [block] with
    ⟨nothing,-⟩ | ⟨other,taken,⟨tip,is_tip,candidate⟩,-⟩
  · rw [best] at nothing
    cases nothing
  · rw [best] at taken
    obtain rfl := Option.some.inj (Except.ok.inj taken)
    obtain rfl := List.mem_singleton.mp is_tip
    obtain ⟨full,built,cut⟩ := candidate
    obtain rfl : full = ⟨[tip],base.latest⟩ := Option.some.inj (built.symm.trans (topped.traced _))
    obtain ⟨height,len,-,some_left,inside,rfl⟩ := truncate_valid cut
    obtain rfl : len = 1 := Nat.le_antisymm inside some_left
    exact topped.light

/-- The block is put into the pool at most. -/
theorem Topped.resubmitted (topped : Topped base block m) (regular : Regular P m) (reading : Reading) :
    ∃ m', m.submitBlock P reading block = (.ok .rejected,m') ∧ Topped base block m' ∧ Regular P m' := by
  have above : ¬ block.prevHash = m.blockchain.latest.hash := by
    rw [topped.grown,Blockchain.latest_addBlock]
    exact topped.apart
  have pooled : Topped base block (m.pooled block) ∧ Regular P (m.pooled block) :=
    ⟨⟨topped.grown,topped.tip,topped.parent,topped.new,topped.childless_pooled⟩,
      ⟨regular.root,regular.sound,regular.keyed.addOrphan block,regular.authentic⟩⟩
  cases submitBlock_cases regular reading block with
  | refused notOn notOff run => exact ⟨m,run,topped,regular⟩
  | accepted tip signed applied run => exact absurd tip.parent above
  | rolledBack tip before tx after split signed applied stops run => exact absurd tip.parent above
  | raised tip before tx after e split signed applied bad run => exact absurd tip.parent above
  | waiting off untraced run =>
    rw [topped.traced] at untraced
    cases untraced
  | outweighed off traced weak run => exact ⟨_,run,pooled⟩
  | unverifiable off fork chosen e heavier bad run =>
    exact absurd ((topped.chosen_light regular chosen).symm.trans heavier) Bool.false_ne_true
  | reorganized off fork chosen height m' reorg ledger run =>
    exact absurd ((topped.chosen_light regular chosen).symm.trans reorg.heavier) Bool.false_ne_true

end

/-! ### Messages about one item -/

section
variable {P : Primitives} {n : RunningNode} {peer : Peer} {reading : Reading} {now : Nat} {item : InventoryItem}

/-- A message from a live peer is handled. -/
theorem react_received {socket : Nat} (there : socket ∈ sockets n) :
    ∃ peer : Peer, peer.socket = socket ∧ ∀ message reading now,
      n.react P (.received socket message reading now) = n.handle P peer message reading now := by
  obtain ⟨target,member,rfl⟩ := List.mem_map.mp there
  have found : (n.livePeer target.socket).isSome := List.find?_isSome.mpr ⟨target,member,by simp⟩
  obtain ⟨peer,here⟩ := Option.isSome_iff_exists.mp found
  have same : peer.socket = target.socket := by simpa using List.find?_some here
  exact ⟨peer,same,fun message reading now => by simp only [RunningNode.react,here]⟩

/-- The sockets of the live peers without one of them. -/
theorem targets_except (n : RunningNode) (socket : Nat) :
    (n.targets (some socket)).map Peer.socket = (sockets n).filter (· ≠ socket) := by
  have narrowed : n.targets (some socket) = (n.targets none).filter ((· ≠ socket) ∘ Peer.socket) := by
    rw [targets,targets,List.filter_filter]
    refine List.filter_congr fun target _ => ?_
    simp
  rw [narrowed,sockets,List.filter_map]

theorem broadcast_except (n : RunningNode) (socket : Nat) (type : InventoryItemType) (hash : HashBytes) :
    n.broadcastInv (some socket) type hash =
      ((sockets n).filter (· ≠ socket)).map fun target => .sendMsg target (.inv [⟨type,hash⟩]) := by
  rw [← targets_except,broadcastInv,List.map_map]
  rfl

theorem broadcast_all (n : RunningNode) (type : InventoryItemType) (hash : HashBytes) :
    n.broadcastInv none type hash = (sockets n).map fun target => .sendMsg target (.inv [⟨type,hash⟩]) := by
  rw [sockets,broadcastInv,List.map_map]
  rfl

theorem deserialize_single (item : InventoryItem) : deserializeInventory (serializeInventory [item]) = some [item] :=
  (decodes_inventory _ _).mpr ⟨by simp,rfl⟩

theorem inventory_small (item : InventoryItem) : (serializeInventory [item]).length ≤ maxPayloadSize.toNat := by
  have size : (serializeInventory [item]).length = 37 := by
    simp [serializeInventory,InventoryItem.serialize,le32_length,HashBytes.size]
  rw [size]
  decide

/-- The node has an item. -/
def holds (P : Primitives) (n : RunningNode) (item : InventoryItem) : Bool :=
  match item.type with
  | .block => n.chain.hasBlock item.hash
  | .transaction => n.chain.hasTransaction P item.hash

/-- What the node sends of an item. -/
def copyOf (P : Primitives) (n : RunningNode) (item : InventoryItem) : Option Outgoing :=
  match item.type with
  | .block => (n.chain.findBlock item.hash).map .block
  | .transaction => (n.chain.findTransaction P item.hash).map .tx

theorem handle_inv : n.handle P peer (Outgoing.inv [item]).message reading now =
    (n,if holds P n item then [] else [.sendMsg peer.socket (.getdata [item])]) := by
  simp only [Outgoing.message]
  rw [handle,if_pos rfl,handleInv,deserialize_single]
  rcases item with ⟨_ | _,hash⟩
  · cases there : n.chain.hasBlock hash <;> simp [holds,there]
  · cases there : n.chain.hasTransaction P hash <;> simp [holds,there]

theorem handle_getdata : n.handle P peer (Outgoing.getdata [item]).message reading now =
    (n,(copyOf P n item).toList.map (.sendMsg peer.socket)) := by
  simp only [Outgoing.message]
  rw [handle,if_neg nofun,if_pos rfl,handleGetdata,deserialize_single]
  rcases item with ⟨_ | _,hash⟩
  · cases there : n.chain.findBlock hash <;> simp [copyOf,there]
  · cases there : n.chain.findTransaction P hash <;> simp [copyOf,there]

theorem handle_block {block : Block} : n.handle P peer (Outgoing.block block).message reading now =
    n.handleBlock P peer.socket block.serialize reading now := by
  simp only [Outgoing.message]
  rw [handle,if_neg nofun,if_neg nofun,if_pos rfl]

theorem handle_tx {tx : Transaction} : n.handle P peer (Outgoing.tx tx).message reading now =
    n.handleTx P peer.socket tx.serialize := by
  simp only [Outgoing.message]
  rw [handle,if_neg nofun,if_neg nofun,if_neg nofun,if_pos rfl]

end

/-! ### A block -/

section
variable {P : Primitives} {readings : Reading → Prop} {block : Block} {before n : RunningNode} {socket : Nat}
  {reading : Reading}

/-- The node waits for nothing but the block, which goes on the tip of its chain. -/
structure Awaits (P : Primitives) (readings : Reading → Prop) (block : Block) (n : RunningNode) : Prop where
  regular : Regular P n.chain
  tip : TipIndexed n.chain.blockchain
  idle : n.syncState.active = false
  distinct : (sockets n).Nodup
  unknown : n.chain.hasBlock block.hash = false
  childless : ∀ other ∈ n.chain.orphanPool.blocks, other.prevHash ≠ block.hash
  onTip : ∀ reading, readings reading → OnTip P n.chain reading.now block
  signed : ∀ tx ∈ block.transactions, tx.Authentic P
  applied : AllAccepted Ledger.applyTransaction n.chain.ledger block.transactions

/-- The node since it has got the block. -/
structure Got (P : Primitives) (block : Block) (before n : RunningNode) : Prop where
  peers : sockets n = sockets before
  idle : n.syncState.active = false
  regular : Regular P n.chain
  topped : Topped before.chain.blockchain block n.chain

theorem Awaits.submit (awaits : Awaits P readings block n) (read : readings reading) :
    n.chain.submitBlock P reading block = (.ok (.accepted block),n.chain.extended P block) :=
  submitBlock_extends (awaits.onTip reading read) awaits.signed awaits.applied

theorem Awaits.got (awaits : Awaits P readings block n) (read : readings reading) :
    Got P block n { n with chain := n.chain.extended P block } := by
  refine ⟨rfl,awaits.idle,?_,⟨rfl,awaits.tip,(awaits.onTip reading read).parent,awaits.unknown,awaits.childless⟩⟩
  have kept := regular_after awaits.regular (.submitBlock reading block)
  rwa [ChainManager.after,awaits.submit read] at kept

theorem Got.holds (got : Got P block before n) : holds P n ⟨.block,block.hash⟩ = true := by
  rw [Spreading.holds,ChainManager.hasBlock,got.topped.grown]
  exact (Residence.hasBlock_addBlock _ _ _).mpr (.inl rfl)

/-- The work that the chain has noted with the block is not sent. -/
theorem Got.copyOf (got : Got P block before n) : ∃ kept : Block,
    copyOf P n ⟨.block,block.hash⟩ = some (.block kept) ∧ kept.serialize = block.serialize := by
  have found : n.chain.findBlock block.hash =
      some { block with cumulativeWork := block.blockWork + before.chain.blockchain.latest.cumulativeWork } := by
    simp [ChainManager.findBlock,Blockchain.find,Blockchain.findHeight,got.topped.grown,Blockchain.addBlock]
  exact ⟨_,congrArg (Option.map Outgoing.block) found,rfl⟩

theorem handleBlock_idle (idle : n.syncState.active = false) (socket : Nat) (payload : Bytes) (now : Nat) :
    n.syncState.bufferBlock P socket payload now = none := by
  rw [SyncState.bufferBlock,if_neg]
  rintro ⟨active,-⟩
  exact absurd (idle.symm.trans active) Bool.false_ne_true

/-- A node that gets the block for the first time announces it to its other peers. -/
theorem Awaits.sent (awaits : Awaits P readings block n) (readable : Block.deserialize P block.serialize = some block)
    (read : readings reading) (now : Nat) :
    n.handleBlock P socket block.serialize reading now = ({ n with chain := n.chain.extended P block },
      ((sockets n).filter (· ≠ socket)).map fun target => .sendMsg target (.inv [⟨.block,block.hash⟩])) := by
  simp only [handleBlock,handleBlock_idle awaits.idle,readable,awaits.submit read,respond,BlockOutcome.accepted,
    List.flatMap_singleton,broadcast_except]

/-- A node that has the block is silent about it. -/
theorem Got.sent (got : Got P block before n) (readable : Block.deserialize P block.serialize = some block)
    (reading : Reading) (now : Nat) :
    Got P block before (n.handleBlock P socket block.serialize reading now).1 ∧
      (n.handleBlock P socket block.serialize reading now).2 = [] := by
  obtain ⟨chain,again,topped,regular⟩ := got.topped.resubmitted got.regular reading
  simp only [handleBlock,handleBlock_idle got.idle,readable,again,respond,BlockOutcome.rejected]
  exact ⟨⟨got.peers,got.idle,regular,topped⟩,trivial⟩

variable {ι E : Type} {cables : Cables ι E} {net : Network ι E}

theorem block_spreads (awaits : ∀ i, Awaits P readings block (net.nodes i))
    (connected : ∀ e, cables.socket e ∈ sockets (net.nodes (cables.owner e)))
    (readable : Block.deserialize P block.serialize = some block)
    (small : block.serialize.length ≤ maxPayloadSize.toNat) :
    Spreads P cables readings (.inv [⟨.block,block.hash⟩]) (.getdata [⟨.block,block.hash⟩]) (.block block)
      (fun i n => n = net.nodes i) (fun i n => Got P block (net.nodes i) n) where
  announceSmall := inventory_small _
  requestSmall := inventory_small _
  itemSmall := small
  distinct := by
    rintro i n rfl
    exact (awaits i).distinct
  connected := by
    rintro n e rfl
    exact connected e
  lackTold := by
    rintro n e reading now read rfl
    obtain ⟨peer,socket,handled⟩ := react_received (P := P) (connected e)
    rw [handled,handle_inv,socket,holds,(awaits _).unknown]
    rfl
  lackSent := by
    rintro n e reading now read rfl
    obtain ⟨peer,socket,handled⟩ := react_received (P := P) (connected e)
    rw [next,handled,handle_block,socket,(awaits _).sent readable read]
    exact ⟨(awaits _).got read,rfl⟩
  haveTold := by
    intro n e reading now read got
    obtain ⟨peer,socket,handled⟩ := react_received (P := P) (got.peers ▸ connected e)
    rw [next,handled,handle_inv,got.holds]
    exact ⟨got,rfl⟩
  haveAsked := by
    intro n e reading now read got
    obtain ⟨peer,socket,handled⟩ := react_received (P := P) (got.peers ▸ connected e)
    obtain ⟨kept,copy,same⟩ := got.copyOf
    rw [next,handled,handle_getdata,copy,socket]
    exact ⟨got,.block kept,by rw [Outgoing.message,Outgoing.message,same],rfl⟩
  haveSent := by
    intro n e reading now read got
    obtain ⟨peer,socket,handled⟩ := react_received (P := P) (got.peers ▸ connected e)
    rw [next,handled,handle_block]
    exact got.sent readable reading now

end

/-- A new node that has accepted a connection. -/
def neighbour : RunningNode :=
  newcomer.next Samples.sample (.accepted (some (text "8.8.8.8")) ⟨some 1,some ⟨1,1,0,9000,2⟩,true⟩ 0)

/-- Two of them, connected to each other. -/
def pair : Network Bool Bool := ⟨fun _ => neighbour,fun _ => []⟩

def pairCable : Cables Bool Bool where
  owner e := e
  other e := !e
  other_other := Bool.not_not
  socket _ := 1
  distinct _ _ same _ := same

/-- An announcement, the request and the item. -/
def exchange (origin : Bool) : List (Delivery Bool) :=
  [(!origin,Samples.reading,0),(origin,Samples.reading,0),(!origin,Samples.reading,0)]

section
variable {P : Primitives} {tx : Transaction} {n : RunningNode} {socket : Nat}

/-- The node has not got the transaction and has room for it, or a cheaper one to
    drop. -/
structure Wants (P : Primitives) (tx : Transaction) (n : RunningNode) : Prop where
  distinct : (sockets n).Nodup
  unknown : n.chain.hasTransaction P (tx.computeHash P) = false
  valid : tx.hasValidSignature P = .ok true
  room : n.chain.mempool.pending.length < n.chain.mempool.maxSize ∨
    ∃ cheapest, n.chain.mempool.pending.getLast? = some cheapest ∧ cheapest.fee < tx.fee

/-- The node with the transaction in its mempool. -/
def paid (P : Primitives) (tx : Transaction) (n : RunningNode) : RunningNode :=
  { n with chain := (n.chain.submitTransaction P tx).2 }

theorem Wants.taken (wants : Wants P tx n) : (n.chain.submitTransaction P tx).1 = .ok true ∧
    tx ∈ (paid P tx n).chain.mempool.pending ∧
    ∀ other ∈ (paid P tx n).chain.mempool.pending, other = tx ∨ other ∈ n.chain.mempool.pending := by
  rw [paid,ChainManager.submitTransaction]
  cases Mempool.addTransaction_cases P n.chain.mempool tx with
  | raised e bad run => cases wants.valid.symm.trans bad
  | invalid verdict run => cases wants.valid.symm.trans verdict
  | known valid there run => exact absurd (wants.unknown.symm.trans there) Bool.false_ne_true
  | inserted valid fresh room run =>
    rw [run]
    exact ⟨rfl,Mempool.mem_insert.mpr (.inl rfl),fun other member => Mempool.mem_insert.mp member⟩
  | evicted valid fresh full front cheapest last dearer run =>
    rw [run]
    refine ⟨rfl,Mempool.mem_insert.mpr (.inl rfl),fun other member => ?_⟩
    refine (Mempool.mem_insert.mp member).imp_right fun old => ?_
    rw [last]
    exact List.mem_append_left _ old
  | refused valid fresh full cheap run =>
    rcases wants.room with room | ⟨cheapest,last,dearer⟩
    · exact absurd room (Nat.not_lt.mpr full)
    · exact absurd dearer (cheap cheapest last)

theorem Wants.holds_paid (wants : Wants P tx n) : holds P (paid P tx n) ⟨.transaction,tx.computeHash P⟩ = true :=
  List.any_eq_true.mpr ⟨tx,wants.taken.2.1,by simp⟩

theorem Wants.copyOf_paid (wants : Wants P tx n) :
    copyOf P (paid P tx n) ⟨.transaction,tx.computeHash P⟩ = some (.tx tx) := by
  obtain ⟨-,member,others⟩ := wants.taken
  obtain ⟨found,found_there⟩ := Option.isSome_iff_exists.mp
    (List.find?_isSome.mpr ⟨tx,member,by simp⟩ :
      (((paid P tx n).chain.mempool.pending.find? (·.computeHash P = tx.computeHash P))).isSome)
  have same_hash : found.computeHash P = tx.computeHash P := by simpa using List.find?_some found_there
  have is_tx : found = tx := by
    refine (others found (List.mem_of_find?_eq_some found_there)).resolve_right fun old => ?_
    have known : n.chain.hasTransaction P (tx.computeHash P) = true :=
      List.any_eq_true.mpr ⟨found,old,by simp [same_hash]⟩
    exact absurd (wants.unknown.symm.trans known) Bool.false_ne_true
  exact congrArg (Option.map Outgoing.tx) (is_tx ▸ found_there)

theorem Wants.sent (wants : Wants P tx n) (readable : Transaction.deserialize tx.serialize = some tx) :
    n.handleTx P socket tx.serialize = (paid P tx n,
      ((sockets n).filter (· ≠ socket)).map fun target => .sendMsg target (.inv [⟨.transaction,tx.computeHash P⟩])) := by
  have taken := wants.taken.1
  rcases run : n.chain.submitTransaction P tx with ⟨result,chain⟩
  rw [run] at taken
  subst taken
  rw [← broadcast_except,paid]
  simp only [handleTx,readable,run]

theorem Wants.sent_again (wants : Wants P tx n) (readable : Transaction.deserialize tx.serialize = some tx) :
    (paid P tx n).handleTx P socket tx.serialize = (paid P tx n,[]) := by
  have again : (paid P tx n).chain.submitTransaction P tx = (.ok false,(paid P tx n).chain) := by
    rw [ChainManager.submitTransaction,Mempool.addTransaction,wants.valid]
    have known := wants.holds_paid
    simp only [holds,ChainManager.hasTransaction] at known
    simp only [known,if_true]
  simp only [handleTx,readable,again]

variable {ι E : Type} {cables : Cables ι E} {net : Network ι E}

theorem transaction_spreads (wants : ∀ i, Wants P tx (net.nodes i))
    (connected : ∀ e, cables.socket e ∈ sockets (net.nodes (cables.owner e)))
    (readable : Transaction.deserialize tx.serialize = some tx)
    (small : tx.serialize.length ≤ maxPayloadSize.toNat) :
    Spreads P cables (fun _ => True) (.inv [⟨.transaction,tx.computeHash P⟩])
      (.getdata [⟨.transaction,tx.computeHash P⟩]) (.tx tx) (fun i n => n = net.nodes i)
      (fun i n => n = paid P tx (net.nodes i)) where
  announceSmall := inventory_small _
  requestSmall := inventory_small _
  itemSmall := small
  distinct := by
    rintro i n rfl
    exact (wants i).distinct
  connected := by
    rintro n e rfl
    exact connected e
  lackTold := by
    rintro n e reading now - rfl
    obtain ⟨peer,socket,handled⟩ := react_received (P := P) (connected e)
    rw [handled,handle_inv,socket,holds,(wants _).unknown]
    rfl
  lackSent := by
    rintro n e reading now - rfl
    obtain ⟨peer,socket,handled⟩ := react_received (P := P) (connected e)
    rw [next,handled,handle_tx,socket,(wants _).sent readable]
    exact ⟨rfl,rfl⟩
  haveTold := by
    rintro n e reading now - rfl
    obtain ⟨peer,socket,handled⟩ := react_received (P := P) (n := paid P tx _) (connected e)
    rw [next,handled,handle_inv,(wants _).holds_paid]
    exact ⟨rfl,rfl⟩
  haveAsked := by
    rintro n e reading now - rfl
    obtain ⟨peer,socket,handled⟩ := react_received (P := P) (n := paid P tx _) (connected e)
    rw [next,handled,handle_getdata,(wants _).copyOf_paid,socket]
    exact ⟨rfl,_,rfl,rfl⟩
  haveSent := by
    rintro n e reading now - rfl
    obtain ⟨peer,socket,handled⟩ := react_received (P := P) (n := paid P tx _) (connected e)
    rw [next,handled,handle_tx,(wants _).sent_again readable]
    exact ⟨rfl,rfl⟩

end
end ForgeChain.Spreading
