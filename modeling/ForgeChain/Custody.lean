import ForgeChain.Announce
import ForgeChain.Authenticity

/-!
What a node does with blocks and transactions. It puts into its chain, its pools
and its messages what it was given: blocks that were submitted or buffered, with
another cumulative work at most, and transactions that were submitted or are in
such blocks. So a kind of blocks and transactions that is closed under this is
kept by every call (`Holds.after`) and by every turn of a node (`Keeps.next`), and
the node sends only what is of the kind (`Keeps.carries_react`). What blocks of a
kind keep true of a chain as it grows, the calls of a node keep (`Growing.after`).
-/
namespace ForgeChain.Custody
open RunningNode

/-! ### A chain manager -/

section
variable {P : Primitives} {K : Block → Prop} {T : Transaction → Prop} {m : ChainManager} {call : Call} {block : Block}
  {tx : Transaction}

/-- Everything in the chain, the orphan pool and the mempool is of a kind. -/
structure Holds (K : Block → Prop) (T : Transaction → Prop) (m : ChainManager) : Prop where
  chain : ∀ block ∈ m.blockchain.blocks, K block
  pool : ∀ block ∈ m.orphanPool.blocks, K block
  mempool : ∀ tx ∈ m.mempool.pending, T tx

/-- A kind of blocks that says nothing about the cumulative work, which the chain
    sets, and the kind of the transactions in them. -/
structure Kinds (K : Block → Prop) (T : Transaction → Prop) : Prop where
  stamped : ∀ {block} work, K block → K { block with cumulativeWork := work }
  contents : ∀ {block}, K block → ∀ tx ∈ block.transactions, T tx

/-- What a call brings is of the kind. -/
def Brings (K : Block → Prop) (T : Transaction → Prop) : Call → Prop
  | .submitBlock _ block => K block
  | .submitTransaction tx => T tx
  | .adoptBranch _ blocks => ∀ block ∈ blocks, K block
  | .restoreBlock block => K block
  | .setBalance _ _ => True

theorem Kinds.stamp (kinds : Kinds K T) {work : UInt64} {blocks : List Block} (all : ∀ block ∈ blocks, K block) :
    ∀ block ∈ Blockchain.stamp work blocks, K block := by
  induction blocks generalizing work with
  | nil => exact fun _ member => absurd member List.not_mem_nil
  | cons block rest ih =>
    obtain ⟨first,later⟩ := List.forall_mem_cons.mp all
    exact List.forall_mem_cons.mpr ⟨kinds.stamped _ first,ih later⟩

theorem Kinds.foldl_addBlock (kinds : Kinds K T) {chain : Blockchain} {blocks : List Block}
    (before : ∀ block ∈ chain.blocks, K block) (all : ∀ block ∈ blocks, K block) :
    ∀ block ∈ (blocks.foldl Blockchain.addBlock chain).blocks, K block := by
  rw [Blockchain.blocks_foldl_addBlock]
  exact List.forall_mem_append.mpr ⟨before,kinds.stamp all⟩

/-- The branch that a call offers consists of what it brings and of pooled blocks. -/
theorem Holds.offers (holds : Holds K T m) (regular : Regular P m) (brings : Brings K T call) {fork : ForkChain}
    (offers : Offers P m call fork) : ∀ block ∈ fork.blocks, K block := by
  intro block member
  cases call with
  | submitBlock reading submitted =>
    obtain ⟨height,-,origin⟩ := offers.2.grown regular
    rcases origin block member with rfl | pooled
    · exact brings
    · exact holds.pool block (OrphanPool.mem_blocks.mpr ⟨_,pooled⟩)
  | submitTransaction tx => cases offers
  | restoreBlock restored => cases offers
  | setBalance address amount => cases offers
  | adoptBranch now blocks =>
    obtain ⟨height,request⟩ := Request.of_requested regular.sound offers
    obtain ⟨first,rest,len,unknown,-,-,-,taken⟩ := request.unknown
    rw [taken,← unknown] at member
    exact brings block ((List.dropWhile_sublist _).subset (List.mem_of_mem_take member))

theorem Holds.chain_after (holds : Holds K T m) (kinds : Kinds K T) (regular : Regular P m) (brings : Brings K T call) :
    ∀ block ∈ (m.after P call).blockchain.blocks, K block := by
  cases after_change regular call with
  | kept blockchain ledger => exact blockchain ▸ holds.chain
  | extended block applies signed applied blockchain ledger =>
    have brought : K block := by
      cases call with
      | submitBlock reading submitted => exact applies.1 ▸ brings
      | submitTransaction tx => cases applies
      | adoptBranch now blocks => cases applies
      | restoreBlock restored => exact applies ▸ brings
      | setBalance address amount => cases applies
    rw [blockchain]
    exact List.forall_mem_append.mpr ⟨holds.chain,List.forall_mem_singleton.mpr (kinds.stamped _ brought)⟩
  | rolledBack block applies before tx after split applied stops blockchain ledger => exact blockchain ▸ holds.chain
  | raised block applies before tx after split applied bad blockchain ledger => exact blockchain ▸ holds.chain
  | reorganized fork offers height able blockchain ledger =>
    rw [blockchain]
    refine kinds.foldl_addBlock (fun block member => ?_) (holds.offers regular brings offers)
    exact holds.chain block (List.mem_of_mem_take member)
  | balanceSet address amount call_eq blockchain ledger => exact blockchain ▸ holds.chain

/-- The calls that a node makes once it runs. -/
def Online : Call → Prop
  | .restoreBlock _ => False
  | .setBalance _ _ => False
  | _ => True

/-- What holds of a chain of such blocks as it grows by the tip and is cut. -/
structure Growing (K : Block → Prop) (Q : Blockchain → Prop) : Prop where
  added : ∀ {chain block}, Q chain → K block → block.prevHash = chain.latest.hash → Q (chain.addBlock block)
  cut : ∀ {chain}, Q chain → ∀ height, Q (chain.cut height)

theorem Growing.foldl_addBlock {Q : Blockchain → Prop} (growing : Growing K Q) {chain : Blockchain} {blocks : List Block}
    (before : Q chain) (all : ∀ block ∈ blocks, K block) (linked : Blockchain.Linked chain.latest.hash blocks) :
    Q (blocks.foldl .addBlock chain) := by
  induction blocks generalizing chain with
  | nil => exact before
  | cons block rest ih =>
    obtain ⟨first,later⟩ := List.forall_mem_cons.mp all
    refine ih (growing.added before first linked.1) later ?_
    rw [Blockchain.latest_addBlock]
    exact linked.2

theorem offered_grown (regular : Regular P m) {fork : ForkChain} (offers : Offers P m call fork) :
    ∃ now height, Grown P m now fork height := by
  cases call with
  | submitBlock reading submitted =>
    obtain ⟨height,grown,-⟩ := offers.2.grown regular
    exact ⟨_,height,grown⟩
  | adoptBranch now blocks =>
    obtain ⟨height,request⟩ := Request.of_requested regular.sound offers
    exact ⟨now,height,request.grown⟩
  | submitTransaction tx => cases offers
  | restoreBlock restored => cases offers
  | setBalance address amount => cases offers

/-- A call grows the chain by the tip or by a branch of linked blocks. -/
theorem Growing.after {Q : Blockchain → Prop} (growing : Growing K Q) (holds : Holds K T m) (regular : Regular P m)
    (online : Online call) (brings : Brings K T call) (before : Q m.blockchain) : Q (m.after P call).blockchain := by
  cases after_change regular call with
  | kept blockchain ledger => exact blockchain ▸ before
  | extended block applies signed applied blockchain ledger =>
    rw [blockchain]
    cases call with
    | submitBlock reading submitted =>
      obtain ⟨rfl,tip⟩ := applies
      exact growing.added before brings tip.parent
    | restoreBlock restored => cases online
    | submitTransaction tx => cases applies
    | adoptBranch now blocks => cases applies
    | setBalance address amount => cases applies
  | rolledBack block applies front tx back split applied stops blockchain ledger => exact blockchain ▸ before
  | raised block applies front tx back split applied bad blockchain ledger => exact blockchain ▸ before
  | reorganized fork offers height able blockchain ledger =>
    obtain ⟨now,height',grown⟩ := offered_grown regular offers
    obtain rfl : height = height' := Option.some.inj (able.2.2.symm.trans grown.valid.found)
    rw [blockchain]
    refine growing.foldl_addBlock (growing.cut before height) (holds.offers regular brings offers) ?_
    rw [Blockchain.latest_cut grown.ancestor]
    exact grown.linked
  | balanceSet address amount call_eq blockchain ledger => exact blockchain ▸ before

theorem Holds.pooled (holds : Holds K T m) (brought : K block) :
    ∀ other ∈ (m.pooled block).orphanPool.blocks, K other := by
  intro other member
  obtain ⟨hash,found⟩ := OrphanPool.mem_blocks.mp member
  rcases OrphanPool.findOrphan_of_addOrphan found with ⟨-,rfl⟩ | old
  · exact brought
  · exact holds.pool other (OrphanPool.mem_blocks.mpr ⟨hash,old⟩)

theorem Holds.pool_after (holds : Holds K T m) (regular : Regular P m) (brings : Brings K T call) :
    ∀ block ∈ (m.after P call).orphanPool.blocks, K block := by
  cases call with
  | submitBlock reading block =>
    rw [ChainManager.after]
    cases submitBlock_cases regular reading block with
    | refused notOn notOff run => exact run ▸ holds.pool
    | accepted tip signed applied run => exact run ▸ holds.pool
    | rolledBack tip before tx after split signed applied stops run => exact run ▸ holds.pool
    | raised tip before tx after e split signed applied bad run => exact run ▸ holds.pool
    | waiting off untraced run => exact run ▸ holds.pooled brings
    | outweighed off traced weak run => exact run ▸ holds.pooled brings
    | unverifiable off fork chosen e heavier bad run => exact run ▸ holds.pooled brings
    | reorganized off fork chosen height m' reorg ledger run =>
      rw [run]
      intro other member
      have keyed : m'.orphanPool.Keyed := reorg.orphanPool ▸ regular.keyed.addOrphan block
      have there := ((keyed.mem_foldl_removeOrphan _).mp member).2
      exact holds.pooled brings other (reorg.orphanPool ▸ there)
  | submitTransaction tx => exact holds.pool
  | adoptBranch now blocks =>
    rw [ChainManager.after]
    cases adoptBranch_cases regular now blocks with
    | refused weak run => exact run ▸ holds.pool
    | unverifiable fork requested e heavier bad run => exact run ▸ holds.pool
    | reorganized fork requested height m' reorg ledger run => exact run ▸ reorg.orphanPool ▸ holds.pool
  | restoreBlock block =>
    rw [ChainManager.after]
    cases restoreBlock_cases P m block with
    | restored signed applied run => exact run ▸ holds.pool
    | raised before tx after e split applied bad run => exact run ▸ holds.pool
    | rolledBack before tx after split applied stops run => exact run ▸ holds.pool
  | setBalance address amount => exact holds.pool

theorem mem_foldl_removeTransaction {txs : List Transaction} {pool : Mempool}
    (member : tx ∈ (txs.foldl (·.removeTransaction P) pool).pending) : tx ∈ pool.pending := by
  induction txs generalizing pool with
  | nil => exact member
  | cons first rest ih => exact List.eraseP_sublist.subset (ih member)

/-- What is pending after a reorganization was pending or was in the chain. -/
theorem mem_undoDiscarded {branchHashes : List HashBytes} {ledger : Ledger} {mempool : Mempool} {txs : List Transaction}
    (member : tx ∈ (undoDiscarded P branchHashes ledger mempool txs).2.2.pending) : tx ∈ mempool.pending ∨ tx ∈ txs := by
  induction txs generalizing ledger mempool with
  | nil => exact .inl member
  | cons first rest ih =>
    have later : ∀ {ledger mempool'}, tx ∈ (undoDiscarded P branchHashes ledger mempool' rest).2.2.pending →
        (tx ∈ mempool'.pending → tx ∈ mempool.pending ∨ tx ∈ first :: rest) →
          tx ∈ mempool.pending ∨ tx ∈ first :: rest :=
      fun there before => (ih there).elim before fun inside => .inr (List.mem_cons_of_mem _ inside)
    have added : tx ∈ (mempool.addTransaction P first).2.pending → tx ∈ mempool.pending ∨ tx ∈ first :: rest := by
      intro there
      rcases Mempool.mem_addTransaction there with old | ⟨rfl,-⟩
      · exact .inl old
      · exact .inr List.mem_cons_self
    rw [undoDiscarded] at member
    split at member
    · exact later member .inl
    · dsimp only at member
      split at member
      · exact later member .inl
      · split at member
        · case h_1 run =>
          rw [run] at added
          exact added member
        · case h_2 run =>
          rw [run] at added
          exact later member added

theorem mem_tryReorg {fork : ForkChain} (member : tx ∈ (m.tryReorg P fork).2.mempool.pending) :
    tx ∈ m.mempool.pending ∨ tx ∈ transactionsOf m.blockchain.blocks := by
  rcases tryReorg_eq P m fork with ⟨result,run,-⟩ | ⟨height,-,run⟩
  · rw [run] at member
    exact .inl member
  · have undone : tx ∈ (undoDiscarded P (plainHashes P (transactionsOf fork.blocks)) m.ledger m.mempool
        (transactionsOf (m.blockchain.blocks.drop (height + 1))).reverse).2.2.pending := by
      rw [run,ChainManager.reorganize] at member
      split at member
      · case h_1 ends => rwa [ends]
      · case h_2 ends => rwa [ends]
    refine (mem_undoDiscarded undone).imp_right fun there => ?_
    obtain ⟨block,above,inside⟩ := List.mem_flatMap.mp (List.mem_reverse.mp there)
    exact List.mem_flatMap.mpr ⟨block,List.mem_of_mem_drop above,inside⟩

theorem Holds.tryReorg (holds : Holds K T m) (kinds : Kinds K T) {pool : OrphanPool} {fork : ForkChain} :
    ∀ tx ∈ (ChainManager.tryReorg P { m with orphanPool := pool } fork).2.mempool.pending, T tx := by
  intro tx member
  rcases mem_tryReorg member with pending | confirmed
  · exact holds.mempool tx pending
  · obtain ⟨block,there,inside⟩ := List.mem_flatMap.mp confirmed
    exact kinds.contents (holds.chain block there) tx inside

theorem Holds.mempool_after (holds : Holds K T m) (kinds : Kinds K T) (regular : Regular P m) (brings : Brings K T call) :
    ∀ tx ∈ (m.after P call).mempool.pending, T tx := by
  cases call with
  | submitBlock reading block =>
    rw [ChainManager.after]
    cases submitBlock_cases regular reading block with
    | refused notOn notOff run => exact run ▸ holds.mempool
    | accepted tip signed applied run =>
      rw [run]
      intro tx member
      exact holds.mempool tx (mem_foldl_removeTransaction member)
    | rolledBack tip before tx after split signed applied stops run => exact run ▸ holds.mempool
    | raised tip before tx after e split signed applied bad run => exact run ▸ holds.mempool
    | waiting off untraced run => exact run ▸ holds.mempool
    | outweighed off traced weak run => exact run ▸ holds.mempool
    | unverifiable off fork chosen e heavier bad run => exact run ▸ holds.mempool
    | reorganized off fork chosen height m' reorg ledger run =>
      rw [submitBlock_offTip off,handleForkCandidate_chosen chosen,(adoptFork_leaves P _ fork).1]
      exact holds.tryReorg kinds
  | submitTransaction tx =>
    intro other member
    rcases Mempool.mem_addTransaction member with old | ⟨rfl,-⟩
    · exact holds.mempool other old
    · exact brings
  | adoptBranch now blocks =>
    rw [ChainManager.after]
    cases adoptBranch_cases regular now blocks with
    | refused weak run => exact run ▸ holds.mempool
    | unverifiable fork requested e heavier bad run => exact run ▸ holds.mempool
    | reorganized fork requested height m' reorg ledger run =>
      rw [adoptBranch_state requested]
      exact holds.tryReorg kinds
  | restoreBlock block =>
    rw [ChainManager.after]
    cases restoreBlock_cases P m block with
    | restored signed applied run => exact run ▸ holds.mempool
    | raised before tx after e split applied bad run => exact run ▸ holds.mempool
    | rolledBack before tx after split applied stops run => exact run ▸ holds.mempool
  | setBalance address amount => exact holds.mempool

/-- A call that brings things of a kind leaves things of the kind. -/
theorem Holds.after (holds : Holds K T m) (kinds : Kinds K T) (regular : Regular P m) (brings : Brings K T call) :
    Holds K T (m.after P call) :=
  ⟨holds.chain_after kinds regular brings,holds.pool_after regular brings,holds.mempool_after kinds regular brings⟩

end

/-! ### A node -/

section
variable {P : Primitives} {K : Block → Prop} {T : Transaction → Prop} {n : RunningNode} {input : Input}
  {message : Message} {outgoing : Outgoing} {said : List Output}

/-- Everything that a node has is of a kind. -/
structure Keeps (K : Block → Prop) (T : Transaction → Prop) (n : RunningNode) : Prop where
  holds : Holds K T n.chain
  buffer : ∀ block ∈ n.syncState.buffer, K block

/-- What a message has to say about blocks and transactions is of a kind. -/
structure Readable (P : Primitives) (K : Block → Prop) (T : Transaction → Prop) (message : Message) : Prop where
  block : message.type = .block → ∀ block, Block.deserialize P message.payload = some block → K block
  tx : message.type = .tx → ∀ tx, Transaction.deserialize message.payload = some tx → T tx

/-- What reaches a node is of a kind. -/
def Reaches (P : Primitives) (K : Block → Prop) (T : Transaction → Prop) : Input → Prop
  | .received _ message _ _ => Readable P K T message
  | .mined _ block => K block
  | .paid tx => T tx
  | _ => True

/-- What is sent is of a kind. -/
def Carries (K : Block → Prop) (T : Transaction → Prop) : Outgoing → Prop
  | .block block => K block
  | .tx tx => T tx
  | _ => True

/-- Blocks and transactions that are sent are read as blocks and transactions of
    the same kind. -/
structure Passes (P : Primitives) (K : Block → Prop) (T : Transaction → Prop) : Prop extends Kinds K T where
  block : ∀ {sent read}, K sent → Block.deserialize P sent.serialize = some read → K read
  tx : ∀ {sent read}, T sent → Transaction.deserialize sent.serialize = some read → T read

theorem Passes.readable (passes : Passes P K T) (carries : Carries K T outgoing) : Readable P K T outgoing.message := by
  cases outgoing with
  | block sent => exact ⟨fun _ read here => passes.block carries here,nofun⟩
  | tx sent => exact ⟨nofun,fun _ read here => passes.tx carries here⟩
  | version info => exact ⟨nofun,nofun⟩
  | inv items => exact ⟨nofun,nofun⟩
  | getdata items => exact ⟨nofun,nofun⟩
  | getblocks locator => exact ⟨nofun,nofun⟩
  | ping => exact ⟨nofun,nofun⟩
  | pong => exact ⟨nofun,nofun⟩
  | peers list => exact ⟨nofun,nofun⟩

/-- A turn that has nothing to do with blocks and transactions. -/
structure Aside (n : RunningNode) (reaction : Reaction) : Prop where
  chain : reaction.1.chain = n.chain
  buffer : ∀ block ∈ reaction.1.syncState.buffer, block ∈ n.syncState.buffer
  carries : ∀ K T, ∀ socket message, .sendMsg socket message ∈ reaction.2 → Carries K T message

theorem aside_still (n : RunningNode) : Aside n (n,[]) := ⟨rfl,fun _ member => member,nofun⟩

theorem Aside.more {reaction : Reaction} {before : List Output} (aside : Aside n reaction)
    (plain : ∀ K T, ∀ socket message, .sendMsg socket message ∈ before → Carries K T message) :
    Aside n (reaction.1,before ++ reaction.2) :=
  ⟨aside.chain,aside.buffer,fun K T socket message member => (List.mem_append.mp member).elim
    (plain K T socket message) (aside.carries K T socket message)⟩

theorem Aside.dialed {reaction : Reaction} (aside : Aside n reaction) (address : PeerAddress) :
    Aside n (reaction.1,.dialed address :: reaction.2) := by
  refine ⟨aside.chain,aside.buffer,fun K T socket message member => ?_⟩
  rcases List.mem_cons.mp member with same | there
  · cases same
  · exact aside.carries K T socket message there

theorem carries_getblocks {target : Nat} {locator : List HashBytes} (K : Block → Prop) (T : Transaction → Prop)
    (socket : Nat) (message : Outgoing) (member : .sendMsg socket message ∈ [Output.sendMsg target (.getblocks locator)]) :
    Carries K T message := by
  cases List.mem_singleton.mp member
  trivial

theorem aside_startSync (n : RunningNode) (socket now : Nat) (delivered : Bool) :
    Aside n (n.startSync socket now delivered) := by
  by_cases active : n.syncState.active = true
  · have busy : n.startSync socket now delivered = (n,[]) := by
      simp only [startSync,SyncState.startSyncState,active,if_true]
    exact busy ▸ aside_still n
  have started : n.syncState.startSyncState socket now = (true,⟨true,some socket,[],now⟩) := if_neg active
  rcases located : n.chain.locator with e | locator
  · simp only [startSync,started,located]
    exact ⟨rfl,by simp,by simp⟩
  · cases delivered with
    | true =>
      simp only [startSync,started,located,if_true]
      exact ⟨rfl,by simp,carries_getblocks⟩
    | false =>
      simp only [startSync,started,located,Bool.false_eq_true,if_false]
      exact ⟨rfl,by simp [SyncState.resetSyncState,SyncState.idle],carries_getblocks⟩

theorem carries_sendPeerList (n : RunningNode) (target : Nat) (address : PeerAddress) (K : Block → Prop)
    (T : Transaction → Prop) (socket : Nat) (message : Outgoing)
    (member : .sendMsg socket message ∈ n.sendPeerList target address) : Carries K T message := by
  obtain ⟨list,-,same⟩ := List.mem_map.mp member
  cases same
  trivial

theorem aside_welcome (n : RunningNode) (socket : Nat) (host : Bytes) (isOutbound : Bool) (incoming : VersionInfo)
    (now : Nat) (delivered : Bool) : Aside n (n.welcome socket host isOutbound incoming now delivered) := by
  unfold welcome
  dsimp only
  split
  · obtain ⟨chain,buffer,carries⟩ := aside_startSync (n.noted ⟨host,incoming.listenPort⟩ isOutbound now) socket now delivered
    have aside : Aside n _ := ⟨chain,buffer,carries⟩
    exact aside.more (carries_sendPeerList _ _ _)
  · exact ⟨rfl,fun _ member => member,carries_sendPeerList _ _ _⟩

theorem aside_registerNewPeer (n : RunningNode) (socket : Nat) (host : Bytes) (isOutbound : Bool)
    (incoming : Option VersionInfo) (now : Nat) (delivered : Bool) :
    Aside n (n.registerNewPeer socket host isOutbound incoming now delivered).2 := by
  have greeting : ∀ own : VersionInfo, ∀ K T, ∀ target message,
      .sendMsg target message ∈ [Output.sendMsg socket (.version own)] → Carries K T message := by
    intro own K T target message member
    cases List.mem_singleton.mp member
    trivial
  cases registerNewPeer_cases n socket host isOutbound incoming now delivered with
  | turnedAway node own run =>
    rw [run]
    exact ⟨rfl,fun _ member => member,greeting own⟩
  | kept node own info heard run =>
    rw [run]
    obtain ⟨chain,buffer,carries⟩ := aside_welcome { n with node } socket host isOutbound info now delivered
    have aside : Aside n _ := ⟨chain,buffer,carries⟩
    exact aside.more (greeting own)

theorem aside_acceptOnePeer (n : RunningNode) (host : Option Bytes) (answer : Answer) (now : Nat) :
    Aside n (n.acceptOnePeer host answer now) := by
  unfold acceptOnePeer
  split
  · exact aside_registerNewPeer n _ _ false answer.incoming now answer.delivered
  · exact aside_still n

theorem aside_connectToPeer (n : RunningNode) (address : PeerAddress) (answer : Answer) (now : Nat) :
    Aside n (n.connectToPeer address answer now) := by
  unfold connectToPeer
  split
  · exact aside_still n
  split
  · exact aside_still n
  dsimp only
  split
  · exact ⟨rfl,fun _ member => member,nofun⟩
  · case h_2 socket connected =>
    obtain ⟨chain,buffer,carries⟩ := aside_registerNewPeer { n with addressBook := (n.addressBook.add now address true).2 }
      socket address.host true answer.incoming now answer.delivered
    have aside : Aside n _ := ⟨chain,buffer,carries⟩
    exact aside.dialed address

theorem aside_dialCandidate (n : RunningNode) (answer : Answer) (now : Nat) : Aside n (n.dialCandidate answer now) := by
  unfold dialCandidate
  split
  · exact aside_still n
  split
  · exact ⟨rfl,fun _ member => member,nofun⟩
  · case h_2 candidate addressBook selected =>
    dsimp only
    split
    · split
      · exact ⟨rfl,fun _ member => member,nofun⟩
      · exact ⟨rfl,fun _ member => member,by simp⟩
    · split
      · exact ⟨rfl,fun _ member => member,nofun⟩
      · case h_2 socket connected =>
        obtain ⟨chain,buffer,carries⟩ := aside_registerNewPeer { n with addressBook } socket candidate.host true
          answer.incoming now answer.delivered
        exact ⟨chain,buffer,by simpa using carries⟩

theorem aside_requestSync (n : RunningNode) (now : Nat) (delivered : Bool) : Aside n (n.requestSync now delivered) := by
  unfold requestSync
  dsimp only
  split
  · exact aside_still n
  · obtain ⟨chain,buffer,carries⟩ := aside_startSync { n with syncCursor := n.syncCursor + 1 } _ now delivered
    exact ⟨chain,buffer,carries⟩

theorem buffer_bufferBlock {s s' : SyncState} {socket : Nat} {payload : Bytes} {now : Nat} {block : Block}
    (taken : s.bufferBlock P socket payload now = some s') (member : block ∈ s'.buffer) :
    block ∈ s.buffer ∨ Block.deserialize P payload = some block := by
  unfold SyncState.bufferBlock at taken
  split at taken
  · split at taken
    · cases taken
      exact .inl member
    · case h_2 read =>
      cases taken
      refine (List.mem_append.mp member).imp_right fun last => ?_
      rw [List.mem_singleton.mp last,read]
  · cases taken

/-- A turn makes a call that brings what has reached the node, or none. -/
theorem Keeps.call (keeps : Keeps K T n) (reaches : Reaches P K T input) :
    (n.next P input).chain = n.chain ∨
      ∃ call, (Online call ∧ Brings K T call) ∧ (n.next P input).chain = n.chain.after P call := by
  cases input with
  | received socket message reading now =>
    rcases found : n.livePeer socket with _ | peer
    · exact .inl (by simp only [next,RunningNode.react,found])
    have handled : n.next P (.received socket message reading now) = (n.handle P peer message reading now).1 := by
      simp only [next,RunningNode.react,found]
    rw [handled]
    unfold handle
    split
    · exact .inl rfl
    split
    · exact .inl rfl
    split
    · case _ _ type =>
      cases handleBlock_cases P n peer.socket message.payload reading now with
      | buffered syncState taken run => exact .inl (by rw [run])
      | unread unreadable run => exact .inl (by rw [run])
      | raised block chain e read submitted run =>
        refine .inr ⟨.submitBlock reading block,⟨trivial,reaches.block type block read⟩,?_⟩
        rw [run,ChainManager.after,submitted]
      | submitted block chain outcome read submitted run =>
        refine .inr ⟨.submitBlock reading block,⟨trivial,reaches.block type block read⟩,?_⟩
        rw [run,ChainManager.after,submitted]
    split
    · case _ _ type =>
      rcases read : Transaction.deserialize message.payload with _ | tx
      · exact .inl (by simp only [handleTx,read])
      · refine .inr ⟨.submitTransaction tx,⟨trivial,reaches.tx type tx read⟩,?_⟩
        rw [ChainManager.after]
        rcases submitted : n.chain.submitTransaction P tx with ⟨e | _ | _,chain⟩
        · simp only [handleTx,read,submitted]
        · simp only [handleTx,read,submitted]
        · simp only [handleTx,read,submitted]
    split
    · exact .inl rfl
    split
    · exact .inl rfl
    split
    · exact .inl rfl
    · exact .inl rfl
  | lost socket => exact .inl rfl
  | cleaned now wall =>
    have runs : n.next P (.cleaned now wall) = finishSyncIfDue P { n with node := n.node.clean } now wall := rfl
    cases finishSyncIfDue_cases P { n with node := n.node.clean } now wall with
    | quiet syncState none run => exact .inl (by rw [runs,run])
    | handed syncState buffer taken run =>
      obtain ⟨-,rfl⟩ := finishSyncIfDue_some taken
      exact .inr ⟨.adoptBranch wall n.syncState.buffer,⟨trivial,keeps.buffer⟩,by rw [runs,run,ChainManager.after]⟩
  | pinged elapsed => exact .inl rfl
  | syncRequested now delivered => exact .inl (aside_requestSync n now delivered).chain
  | gossiped => exact .inl rfl
  | accepted host answer now => exact .inl (aside_acceptOnePeer n host answer now).chain
  | connectTold address answer now => exact .inl (aside_connectToPeer n address answer now).chain
  | dialed answer now => exact .inl (aside_dialCandidate n answer now).chain
  | mined reading block =>
    refine .inr ⟨.submitBlock reading block,⟨trivial,reaches⟩,?_⟩
    rw [ChainManager.after]
    rcases submitted : n.chain.submitBlock P reading block with ⟨e | outcome,chain⟩
    · simp only [next,RunningNode.react,submitBlock,submitted]
    · simp only [next,RunningNode.react,submitBlock,submitted]
  | paid tx =>
    obtain ⟨said,run,-⟩ := submitTransaction_cases P n tx
    exact .inr ⟨.submitTransaction tx,⟨trivial,reaches⟩,by rw [next,RunningNode.react,run,ChainManager.after]⟩
  | remembered address now => exact .inl rfl
  | stopped => exact .inl rfl

theorem Keeps.buffer_next (keeps : Keeps K T n) (reaches : Reaches P K T input) :
    ∀ block ∈ (n.next P input).syncState.buffer, K block := by
  cases input with
  | received socket message reading now =>
    rcases found : n.livePeer socket with _ | peer
    · simp only [next,RunningNode.react,found]
      exact keeps.buffer
    simp only [next,RunningNode.react,found]
    unfold handle
    split
    · exact keeps.buffer
    split
    · exact keeps.buffer
    split
    · case _ _ type =>
      cases handleBlock_cases P n peer.socket message.payload reading now with
      | buffered syncState taken run =>
        rw [run]
        intro block member
        exact (buffer_bufferBlock taken member).elim (keeps.buffer block) (reaches.block type block)
      | unread unreadable run => exact run ▸ keeps.buffer
      | raised block chain e read submitted run => exact run ▸ keeps.buffer
      | submitted block chain outcome read submitted run => exact run ▸ keeps.buffer
    split
    · rcases handleTx_cases P n peer.socket message.payload with run | ⟨tx,said,run,-⟩
      · exact run ▸ keeps.buffer
      · exact run ▸ keeps.buffer
    split
    · exact keeps.buffer
    split
    · exact keeps.buffer
    split
    · exact keeps.buffer
    · exact keeps.buffer
  | lost socket => exact keeps.buffer
  | cleaned now wall =>
    have finished := finishSyncIfDue_syncState P { n with node := n.node.clean } now wall
    rw [next,RunningNode.react,clean,finished]
    unfold SyncState.finishSyncIfDue
    split
    · exact keeps.buffer
    split
    · exact keeps.buffer
    · exact fun _ member => absurd member List.not_mem_nil
  | pinged elapsed => exact keeps.buffer
  | syncRequested now delivered =>
    exact fun block member => keeps.buffer block ((aside_requestSync n now delivered).buffer block member)
  | gossiped => exact keeps.buffer
  | accepted host answer now =>
    exact fun block member => keeps.buffer block ((aside_acceptOnePeer n host answer now).buffer block member)
  | connectTold address answer now =>
    exact fun block member => keeps.buffer block ((aside_connectToPeer n address answer now).buffer block member)
  | dialed answer now =>
    exact fun block member => keeps.buffer block ((aside_dialCandidate n answer now).buffer block member)
  | mined reading block =>
    rw [next,RunningNode.react,submitBlock]
    split
    · exact keeps.buffer
    · exact keeps.buffer
  | paid tx =>
    obtain ⟨said,run,-⟩ := submitTransaction_cases P n tx
    rw [next,RunningNode.react,run]
    exact keeps.buffer
  | remembered address now => exact keeps.buffer
  | stopped => exact keeps.buffer

/-- A node that gets things of a kind has things of the kind only. -/
theorem Keeps.next (keeps : Keeps K T n) (kinds : Kinds K T) (regular : Regular P n.chain)
    (reaches : Reaches P K T input) : Keeps K T (n.next P input) := by
  refine ⟨?_,keeps.buffer_next reaches⟩
  rcases keeps.call reaches with same | ⟨call,⟨-,brings⟩,after⟩
  · exact same ▸ keeps.holds
  · exact after ▸ keeps.holds.after kinds regular brings

theorem carries_broadcastInv {exclude : Option Nat} {type : InventoryItemType} {hash : HashBytes} {socket : Nat}
    (member : .sendMsg socket outgoing ∈ n.broadcastInv exclude type hash) : Carries K T outgoing := by
  obtain ⟨peer,-,same⟩ := List.mem_map.mp member
  cases same
  trivial

theorem carries_announced {hashes : List HashBytes} {exclude : Option Nat} {socket : Nat}
    (member : .sendMsg socket outgoing ∈ hashes.flatMap (n.broadcastInv exclude .block)) : Carries K T outgoing := by
  obtain ⟨hash,-,there⟩ := List.mem_flatMap.mp member
  exact carries_broadcastInv there

theorem carries_respond {target socket : Nat} {outcome : BlockOutcome}
    (member : .sendMsg socket outgoing ∈ n.respond target outcome) : Carries K T outgoing := by
  unfold respond at member
  split at member
  · exact carries_announced member
  · exact carries_announced member
  · obtain ⟨hash,-,same⟩ := List.mem_map.mp member
    cases same
    trivial
  · cases member

theorem Holds.findBlock {m : ChainManager} {hash : HashBytes} {block : Block} (holds : Holds K T m)
    (found : m.findBlock hash = some block) : K block := by
  rcases there : m.blockchain.find hash with _ | other
  · rw [ChainManager.findBlock,there] at found
    exact holds.pool block (OrphanPool.mem_blocks.mpr ⟨hash,found⟩)
  · rw [ChainManager.findBlock,there] at found
    cases found
    obtain ⟨height,-,at_height⟩ := Option.bind_eq_some_iff.mp there
    exact holds.chain block (List.mem_of_getElem? at_height)

theorem Keeps.carries_getdata (keeps : Keeps K T n) {target socket : Nat} {payload : Bytes}
    (member : .sendMsg socket outgoing ∈ n.handleGetdata P target payload) : Carries K T outgoing := by
  unfold handleGetdata at member
  split at member
  · cases member
  obtain ⟨⟨type,hash⟩,-,sent⟩ := List.mem_filterMap.mp member
  cases type with
  | block =>
    obtain ⟨block,found,same⟩ := Option.map_eq_some_iff.mp sent
    cases same
    exact keeps.holds.findBlock found
  | transaction =>
    obtain ⟨tx,found,same⟩ := Option.map_eq_some_iff.mp sent
    cases same
    exact keeps.holds.mempool tx (List.mem_of_find?_eq_some found)

theorem mem_blocksAfterLocator {m : ChainManager} {locator : List HashBytes} {limit : Nat} {block : Block}
    (member : block ∈ m.blocksAfterLocator locator limit) : block ∈ m.blockchain.blocks := by
  unfold ChainManager.blocksAfterLocator at member
  split at member
  · cases member
  · exact List.mem_of_mem_drop (List.mem_of_mem_take member)

theorem Keeps.carries_getblocks (keeps : Keeps K T n) {target socket : Nat} {payload : Bytes}
    (member : .sendMsg socket outgoing ∈ n.handleGetblocks target payload) : Carries K T outgoing := by
  unfold handleGetblocks at member
  split at member
  · cases member
  obtain ⟨block,there,same⟩ := List.mem_map.mp member
  cases same
  exact keeps.holds.chain block (mem_blocksAfterLocator there)

theorem Keeps.carries_handle (keeps : Keeps K T n) {peer : Peer} {reading : Reading} {now socket : Nat}
    (member : .sendMsg socket outgoing ∈ (n.handle P peer message reading now).2) : Carries K T outgoing := by
  unfold handle at member
  split at member
  · unfold handleInv at member
    split at member
    · cases member
    dsimp only at member
    split at member
    · cases member
    · cases List.mem_singleton.mp member
      trivial
  split at member
  · exact keeps.carries_getdata member
  split at member
  · cases handleBlock_cases P n peer.socket message.payload reading now with
    | buffered syncState taken run =>
      rw [run] at member
      cases member
    | unread unreadable run =>
      rw [run] at member
      cases member
    | raised block chain e read submitted run =>
      rw [run] at member
      cases member
    | submitted block chain outcome read submitted run =>
      rw [run] at member
      exact carries_respond member
  split at member
  · rcases handleTx_cases P n peer.socket message.payload with run | ⟨tx,said,run,rfl | rfl⟩
    · rw [run] at member
      cases member
    · rw [run] at member
      cases member
    · rw [run] at member
      exact carries_broadcastInv member
  split at member
  · exact keeps.carries_getblocks member
  split at member
  · cases List.mem_singleton.mp member
    trivial
  split at member
  · cases member
  · cases member

/-- A node sends blocks and transactions that it has. -/
theorem Keeps.carries_react (keeps : Keeps K T n) {socket : Nat}
    (member : .sendMsg socket outgoing ∈ (n.react P input).2) : Carries K T outgoing := by
  cases input with
  | received from_socket message reading now =>
    rw [RunningNode.react] at member
    split at member
    · cases member
    · exact keeps.carries_handle member
  | lost lost_socket => cases member
  | cleaned now wall => cases member
  | pinged elapsed =>
    obtain ⟨peer,-,same⟩ := List.mem_map.mp member
    cases same
    trivial
  | syncRequested now delivered => exact (aside_requestSync n now delivered).carries K T socket outgoing member
  | gossiped =>
    obtain ⟨peer,-,there⟩ := List.mem_flatMap.mp member
    exact carries_sendPeerList n _ _ K T socket outgoing there
  | accepted host answer now => exact (aside_acceptOnePeer n host answer now).carries K T socket outgoing member
  | connectTold address answer now => exact (aside_connectToPeer n address answer now).carries K T socket outgoing member
  | dialed answer now => exact (aside_dialCandidate n answer now).carries K T socket outgoing member
  | mined reading block =>
    rw [RunningNode.react,submitBlock] at member
    split at member
    · cases member
    · exact carries_announced member
  | paid tx =>
    obtain ⟨said,run,rfl | rfl⟩ := submitTransaction_cases P n tx
    · rw [RunningNode.react,run] at member
      cases member
    · rw [RunningNode.react,run] at member
      exact carries_broadcastInv member
  | remembered address now => cases member
  | stopped => cases member

end

end ForgeChain.Custody
