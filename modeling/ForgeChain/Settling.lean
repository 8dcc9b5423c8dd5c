import ForgeChain.FeeOrder
import ForgeChain.Origins
import ForgeChain.Spreading
import Mathlib.Data.Prod.Lex
import Mathlib.Order.OrderIsoNat

/-!
Why gossip dies out. A message causes other messages only in three ways: the chain
of a node gets heavier, its mempool gets better, or the new messages weigh less
than the one that was handled. An announcement weighs more than the request that
it causes, a request as much as what is sent for it, and a block more than the
request for its parent (`weight`). As the chains cannot outgrow the blocks there
are and the mempools are bounded, every sequence of deliveries ends
(`gossip_settles`), whatever was mined, paid and connected before.
-/
namespace ForgeChain.Settling
open Runs RunningNode Network Custody Origins

/-! ### Graded blocks -/

section
variable {P : Primitives} {W : HashBytes → Nat} {block : Block} {chain : Blockchain} {m : ChainManager} {call : Call}

/-- The hash of a block stands for the work up to it: that of its parent and its
    own. -/
structure Graded (P : Primitives) (W : HashBytes → Nat) (block : Block) : Prop where
  whole : Whole P block
  work : W block.hash = W block.prevHash + block.blockWork.toNat
  bounded : W block.hash < 2 ^ 64

theorem Graded.rising (graded : Graded P W block) : W block.prevHash < W block.hash := by
  have positive := block.blockWork_pos
  have work := graded.work
  omega

theorem Graded.bare (graded : Graded P W block) : Graded P W (bare block) :=
  ⟨whole_of_deserialize graded.whole.deserialize,graded.work,graded.bounded⟩

theorem passes_graded (P : Primitives) (W : HashBytes → Nat) : Passes P (Graded P W) (fun _ => True) where
  stamped _ graded := ⟨⟨⟨graded.whole.fits.count,graded.whole.fits.sizes⟩,graded.whole.hash⟩,graded.work,graded.bounded⟩
  contents _ _ _ := trivial
  block graded read := by
    obtain rfl := Option.some.inj (graded.whole.deserialize.symm.trans read)
    exact graded.bare
  tx _ _ := trivial

/-- The work that a chain has noted is the one that the hashes stand for. -/
def Weighed (P : Primitives) (W : HashBytes → Nat) (chain : Blockchain) : Prop :=
  ∀ block ∈ chain.blocks, block.cumulativeWork.toNat + W (Block.genesis P).hash = W block.hash

theorem Weighed.latest (weighed : Weighed P W chain) :
    chain.latest.cumulativeWork.toNat + W (Block.genesis P).hash = W chain.latest.hash :=
  weighed _ (List.getLast_mem chain.nonempty)

/-- On the tip of a weighed chain the noted work does not overflow. -/
theorem Weighed.added (weighed : Weighed P W chain) (graded : Graded P W block)
    (parent : block.prevHash = chain.latest.hash) :
    (block.blockWork + chain.latest.cumulativeWork).toNat =
      block.blockWork.toNat + chain.latest.cumulativeWork.toNat := by
  have tip := weighed.latest
  have work := graded.work
  have bounded := graded.bounded
  rw [parent] at work
  rw [UInt64.toNat_add]
  exact Nat.mod_eq_of_lt (by omega)

theorem Weighed.addBlock (weighed : Weighed P W chain) (graded : Graded P W block)
    (parent : block.prevHash = chain.latest.hash) : Weighed P W (chain.addBlock block) := by
  refine List.forall_mem_append.mpr ⟨weighed,List.forall_mem_singleton.mpr ?_⟩
  have tip := weighed.latest
  have work := graded.work
  rw [parent] at work
  dsimp only
  rw [weighed.added graded parent]
  omega

theorem Weighed.cut (weighed : Weighed P W chain) (height : Nat) : Weighed P W (chain.cut height) :=
  fun block member => weighed block (List.mem_of_mem_take member)

theorem growing_weighed (P : Primitives) (W : HashBytes → Nat) : Growing (Graded P W) (Weighed P W) where
  added weighed graded parent := weighed.addBlock graded parent
  cut weighed height := weighed.cut height

end

/-! ### What a message weighs -/

section
variable {P : Primitives} {W : HashBytes → Nat} {n : RunningNode} {outgoing : Outgoing}

def itemWeight (W : HashBytes → Nat) (item : InventoryItem) : Nat :=
  match item.type with
  | .block => 1 + 2 * W item.hash
  | .transaction => 1

def itemsWeight (W : HashBytes → Nat) (items : List InventoryItem) : Nat := (items.map (itemWeight W)).sum

/-- What a message weighs, by what it can still cause. -/
def weight (P : Primitives) (W : HashBytes → Nat) (message : Message) : Nat :=
  if message.type = .inv then
    match deserializeInventory message.payload with
    | none => 1
    | some items => 2 + itemsWeight W items
  else if message.type = .getdata then
    match deserializeInventory message.payload with
    | none => 1
    | some items => 1 + itemsWeight W items
  else if message.type = .block then
    match Block.deserialize P message.payload with
    | none => 1
    | some block => 1 + 2 * W block.hash
  else if message.type = .getblocks then 1 + Sync.maxBlocksPerResponse * 2 ^ 65
  else if message.type = .ping then 2
  else 1

theorem weight_pos (P : Primitives) (W : HashBytes → Nat) (message : Message) : 0 < weight P W message := by
  unfold weight
  repeat' split
  all_goals omega

theorem weight_getdata {items : List InventoryItem} (few : items.length < 2 ^ 32) :
    weight P W (Outgoing.getdata items).message = 1 + itemsWeight W items := by
  have read : deserializeInventory (serializeInventory items) = some items := (decodes_inventory _ _).mpr ⟨few,rfl⟩
  rw [weight,Outgoing.message,if_neg (by rintro ⟨⟩),if_pos rfl,read]

theorem weight_block {block : Block} (graded : Graded P W block) :
    weight P W (Outgoing.block block).message = 1 + 2 * W block.hash := by
  rw [weight,Outgoing.message,if_neg (by rintro ⟨⟩),if_neg (by rintro ⟨⟩),if_pos rfl,graded.whole.deserialize]
  rfl

theorem weight_pong : weight P W Outgoing.pong.message = 1 := rfl

theorem hash_findBlock {m : ChainManager} (regular : Regular P m) {hash : HashBytes} {block : Block}
    (found : m.findBlock hash = some block) : block.hash = hash := by
  rcases there : m.blockchain.find hash with _ | other
  · rw [ChainManager.findBlock,there] at found
    exact regular.keyed hash block found
  · rw [ChainManager.findBlock,there] at found
    cases found
    exact (regular.sound.find there).1

theorem length_blocksAfterLocator {m : ChainManager} {locator : List HashBytes} {limit : Nat} :
    (m.blocksAfterLocator locator limit).length ≤ limit := by
  unfold ChainManager.blocksAfterLocator
  split
  · exact Nat.zero_le _
  · exact List.length_take_le _ _

/-- What a node's outputs weigh. -/
def saidWeight (P : Primitives) (W : HashBytes → Nat) (said : List Output) : Nat :=
  (said.map fun output => match output with
    | .dialed _ => 0
    | .sendMsg _ outgoing => weight P W outgoing.message).sum

theorem itemsWeight_filter (W : HashBytes → Nat) (keep : InventoryItem → Bool) (items : List InventoryItem) :
    itemsWeight W (items.filter keep) ≤ itemsWeight W items :=
  (List.filter_sublist.map _).sum_le_sum fun _ _ => Nat.zero_le _

theorem saidWeight_append (before said : List Output) :
    saidWeight P W (before ++ said) = saidWeight P W before + saidWeight P W said := by
  rw [saidWeight,List.map_append,List.sum_append]
  rfl

theorem saidWeight_cons (output : Output) (said : List Output) :
    saidWeight P W (output :: said) = saidWeight P W [output] + saidWeight P W said := saidWeight_append [output] said

theorem saidWeight_single (socket : Nat) (outgoing : Outgoing) :
    saidWeight P W [.sendMsg socket outgoing] = weight P W outgoing.message := Nat.add_zero _

/-- Replies to items weigh no more than the items if each does not. -/
theorem saidWeight_filterMap {reply : InventoryItem → Option Output} {items : List InventoryItem}
    (each : ∀ item ∈ items, ∀ output, reply item = some output → saidWeight P W [output] ≤ itemWeight W item) :
    saidWeight P W (items.filterMap reply) ≤ itemsWeight W items := by
  induction items with
  | nil => exact Nat.le_refl _
  | cons item rest ih =>
    obtain ⟨first,later⟩ := List.forall_mem_cons.mp each
    have others := ih later
    rcases sent : reply item with _ | output
    · rw [List.filterMap_cons_none sent]
      exact others.trans (Nat.le_add_left _ _)
    · rw [List.filterMap_cons_some sent,saidWeight_cons]
      exact Nat.add_le_add (first output sent) others

/-- Blocks weigh at most so much each. -/
theorem saidWeight_blocks {socket : Nat} {blocks : List Block} (graded : ∀ block ∈ blocks, Graded P W block) :
    saidWeight P W (blocks.map fun block => .sendMsg socket (.block block)) ≤ blocks.length * 2 ^ 65 := by
  induction blocks with
  | nil => exact Nat.zero_le _
  | cons block rest ih =>
    obtain ⟨first,later⟩ := List.forall_mem_cons.mp graded
    have others := ih later
    have bounded := first.bounded
    rw [List.map_cons,saidWeight_cons,saidWeight_single,weight_block first,List.length_cons]
    omega

theorem weight_inv_handled {socket : Nat} {message : Message} (type : message.type = .inv) :
    saidWeight P W (n.handleInv P socket message.payload) < weight P W message := by
  rw [weight,if_pos type,handleInv]
  rcases read : deserializeInventory message.payload with _ | items
  · exact Nat.zero_lt_one
  dsimp only
  generalize missing : items.filter _ = asked
  have fewer : itemsWeight W asked ≤ itemsWeight W items := missing ▸ itemsWeight_filter W _ items
  have few : asked.length < 2 ^ 32 := by
    rw [← missing]
    exact (List.length_filter_le _ _).trans_lt ((decodes_inventory _ _).mp read).1
  split
  · exact Nat.lt_of_lt_of_le Nat.zero_lt_two (Nat.le_add_right _ _)
  · rw [saidWeight_single,weight_getdata few]
    omega

theorem weight_getdata_handled (regular : Regular P n.chain) (keeps : Keeps (Graded P W) (fun _ => True) n) {socket : Nat}
    {message : Message} (type : message.type = .getdata) :
    saidWeight P W (n.handleGetdata P socket message.payload) < weight P W message := by
  rw [weight,if_neg (by rw [type]; nofun),if_pos type,handleGetdata]
  rcases read : deserializeInventory message.payload with _ | items
  · exact Nat.zero_lt_one
  refine Nat.lt_one_add_iff.mpr (saidWeight_filterMap ?_)
  rintro ⟨type,hash⟩ - output sent
  cases type with
  | block =>
    obtain ⟨block,found,rfl⟩ := Option.map_eq_some_iff.mp sent
    have same : block.hash = hash := hash_findBlock regular found
    rw [saidWeight_single,weight_block (keeps.holds.findBlock found),same]
    exact Nat.le_refl _
  | transaction =>
    obtain ⟨tx,found,rfl⟩ := Option.map_eq_some_iff.mp sent
    exact Nat.le_refl _

theorem weight_getblocks_handled (keeps : Keeps (Graded P W) (fun _ => True) n) {socket : Nat} {message : Message}
    (type : message.type = .getblocks) :
    saidWeight P W (n.handleGetblocks socket message.payload) < weight P W message := by
  rw [weight,if_neg (by rw [type]; nofun),if_neg (by rw [type]; nofun),if_neg (by rw [type]; nofun),if_pos type,
    handleGetblocks]
  refine Nat.lt_one_add_iff.mpr ?_
  split
  · exact Nat.zero_le _
  · case h_2 locator read =>
    have sent : ∀ block ∈ n.chain.blocksAfterLocator locator Sync.maxBlocksPerResponse, Graded P W block :=
      fun block member => keeps.holds.chain block (mem_blocksAfterLocator member)
    exact (saidWeight_blocks sent).trans (Nat.mul_le_mul_right _ length_blocksAfterLocator)

end

/-! ### What a message leads to -/

section
variable {P : Primitives} {W : HashBytes → Nat} {n : RunningNode} {m : ChainManager} {message : Message}

/-- What the pending transactions are worth to a miner, with one for each. -/
def worth (pool : Mempool) : Nat := (pool.pending.map fun tx => tx.fee.toNat + 1).sum

theorem worth_le (pool : Mempool) : worth pool ≤ pool.pending.length * 2 ^ 64 := by
  have each : ∀ worth ∈ pool.pending.map fun tx => tx.fee.toNat + 1, worth ≤ 2 ^ 64 := by
    intro worth member
    obtain ⟨tx,-,rfl⟩ := List.mem_map.mp member
    exact tx.fee.toNat_lt
  have bounded := List.sum_le_card_nsmul _ _ each
  rwa [List.length_map] at bounded

theorem worth_insert (pool : Mempool) (tx : Transaction) : worth (pool.insert tx) = tx.fee.toNat + 1 + worth pool := by
  rw [worth,((Mempool.insert_perm pool tx).map _).sum_eq]
  rfl

/-- What can be done with a transaction: the mempool is worth more, or stays. -/
theorem addTransaction_worth (pool : Mempool) (tx : Transaction) :
    worth pool < worth (pool.addTransaction P tx).2 ∨
      (pool.addTransaction P tx).1 ≠ .ok true ∧ (pool.addTransaction P tx).2 = pool := by
  cases Mempool.addTransaction_cases P pool tx with
  | raised e bad run => exact .inr (by simp [run])
  | invalid verdict run => exact .inr (by simp [run])
  | known valid there run => exact .inr (by simp [run])
  | refused valid fresh full cheap run => exact .inr (by simp [run])
  | inserted valid fresh room run =>
    left
    rw [run]
    dsimp only
    rw [worth_insert]
    omega
  | evicted valid fresh full front cheapest last dearer run =>
    left
    have dearer : cheapest.fee.toNat < tx.fee.toNat := dearer
    rw [run]
    dsimp only
    rw [worth_insert,worth,worth,last,List.map_append,List.sum_append,List.map_singleton,List.sum_singleton]
    dsimp only
    omega

/-- What can be done with a block: the chain gets heavier, the parent is asked
    for, or nothing happens. -/
inductive Verdict (m : ChainManager) (block : Block) (result : Except Exn BlockOutcome × ChainManager) : Prop
  | heavier (work : m.blockchain.latest.cumulativeWork < result.2.blockchain.latest.cumulativeWork)
  | asked (outcome : result.1 = .ok (.needParent block)) (blockchain : result.2.blockchain = m.blockchain)
      (mempool : result.2.mempool = m.mempool)
  | dropped (outcome : ∀ o, result.1 = .ok o → o = .rejected) (blockchain : result.2.blockchain = m.blockchain)
      (mempool : result.2.mempool = m.mempool)

theorem submitBlock_verdict (regular : Regular P m) (weighed : Weighed P W m.blockchain) (reading : Reading)
    {block : Block} (graded : Graded P W block) : Verdict m block (m.submitBlock P reading block) := by
  cases submitBlock_cases regular reading block with
  | refused notOn notOff run =>
    rw [run]
    exact .dropped (fun o same => (Except.ok.inj same).symm) rfl rfl
  | accepted tip signed applied run =>
    rw [run]
    refine .heavier (UInt64.lt_iff_toNat_lt.mpr ?_)
    have added := weighed.added graded tip.parent
    have positive := block.blockWork_pos
    simp only [ChainManager.extended,Blockchain.latest_addBlock]
    omega
  | rolledBack tip before tx after split signed applied stops run =>
    rw [run]
    exact .dropped (fun o same => (Except.ok.inj same).symm) rfl rfl
  | raised tip before tx after e split signed applied bad run =>
    rw [run]
    exact .dropped (by rintro _ ⟨⟩) rfl rfl
  | waiting off untraced run =>
    rw [run]
    exact .asked rfl rfl rfl
  | outweighed off traced weak run =>
    rw [run]
    exact .dropped (fun o same => (Except.ok.inj same).symm) rfl rfl
  | unverifiable off fork chosen e heavier bad run =>
    rw [run]
    exact .dropped (by rintro _ ⟨⟩) rfl rfl
  | reorganized off fork chosen height m' reorg ledger run =>
    obtain ⟨height',grown,-⟩ := chosen.grown regular
    obtain rfl : height = height' := Option.some.inj (reorg.found.symm.trans grown.valid.found)
    have work : m'.blockchain.latest.cumulativeWork = forkWork fork := by
      rw [reorg.blockchain]
      exact work_reorganized grown.ancestor
    have heavier : isForkHeavier m.blockchain fork = true := reorg.heavier
    rw [run]
    refine .heavier ?_
    dsimp only
    rw [work]
    simpa [isForkHeavier] using heavier

/-- What a message leads to: a heavier chain, a better mempool, or lighter
    messages. -/
inductive Outcome (P : Primitives) (W : HashBytes → Nat) (n : RunningNode) (message : Message) (reaction : Reaction) : Prop
  | heavier (work : n.chain.blockchain.latest.cumulativeWork < reaction.1.chain.blockchain.latest.cumulativeWork)
  | better (blockchain : reaction.1.chain.blockchain = n.chain.blockchain)
      (mempool : worth n.chain.mempool < worth reaction.1.chain.mempool)
  | lighter (blockchain : reaction.1.chain.blockchain = n.chain.blockchain)
      (mempool : reaction.1.chain.mempool = n.chain.mempool)
      (said : saidWeight P W reaction.2 < weight P W message)

theorem handleBlock_outcome (regular : Regular P n.chain) (weighed : Weighed P W n.chain.blockchain)
    (type : message.type = .block) (readable : Readable P (Graded P W) (fun _ => True) message) (socket : Nat)
    (reading : Reading) (now : Nat) :
    Outcome P W n message (n.handleBlock P socket message.payload reading now) := by
  have silent : saidWeight P W [] < weight P W message := weight_pos P W message
  cases handleBlock_cases P n socket message.payload reading now with
  | buffered syncState taken run => exact run ▸ .lighter rfl rfl silent
  | unread unreadable run => exact run ▸ .lighter rfl rfl silent
  | raised block chain e read submitted run =>
    have verdict := submitBlock_verdict regular weighed reading (readable.block type block read)
    rw [submitted] at verdict
    rw [run]
    cases verdict with
    | heavier work => exact .heavier work
    | asked outcome blockchain mempool => cases outcome
    | dropped outcome blockchain mempool => exact .lighter blockchain mempool silent
  | submitted block chain outcome read submitted run =>
    have graded := readable.block type block read
    have verdict := submitBlock_verdict regular weighed reading graded
    rw [submitted] at verdict
    rw [run]
    cases verdict with
    | heavier work => exact .heavier work
    | asked needs blockchain mempool =>
      refine .lighter blockchain mempool ?_
      obtain rfl := Except.ok.inj needs
      have rising := graded.rising
      rw [weight,if_neg (by rw [type]; nofun),if_neg (by rw [type]; nofun),if_pos type,read]
      have said : n.respond socket (.needParent block) = [.sendMsg socket (.getdata [⟨.block,block.prevHash⟩])] := rfl
      dsimp only
      rw [said,saidWeight_single,weight_getdata (by simp)]
      simp only [itemsWeight,itemWeight,List.map_singleton,List.sum_singleton]
      omega
    | dropped drops blockchain mempool =>
      obtain rfl := drops outcome rfl
      exact .lighter blockchain mempool silent

theorem handleTx_outcome (socket : Nat) : Outcome P W n message (n.handleTx P socket message.payload) := by
  have silent : saidWeight P W [] < weight P W message := weight_pos P W message
  rcases read : Transaction.deserialize message.payload with _ | tx
  · simp only [handleTx,read]
    exact .lighter rfl rfl silent
  rcases addTransaction_worth (P := P) n.chain.mempool tx with more | ⟨refused,same⟩
  · refine .better ?_ ?_
    all_goals
      rcases added : n.chain.mempool.addTransaction P tx with ⟨e | _ | _,pool⟩ <;> rw [added] at more <;>
        simp only [handleTx,read,ChainManager.submitTransaction,added]
    all_goals exact more
  · have quiet : n.handleTx P socket message.payload = (n,[]) := by
      rcases added : n.chain.mempool.addTransaction P tx with ⟨e | _ | _,pool⟩
      all_goals
        rw [added] at same refused
        dsimp only at same
        subst same
      · simp only [handleTx,read,ChainManager.submitTransaction,added]
      · simp only [handleTx,read,ChainManager.submitTransaction,added]
      · exact absurd rfl refused
    rw [quiet]
    exact .lighter rfl rfl silent

/-- Every message leads to one of the three. -/
theorem received_outcome (regular : Regular P n.chain) (keeps : Keeps (Graded P W) (fun _ => True) n)
    (weighed : Weighed P W n.chain.blockchain) (readable : Readable P (Graded P W) (fun _ => True) message)
    (socket : Nat) (reading : Reading) (now : Nat) :
    Outcome P W n message (n.react P (.received socket message reading now)) := by
  have silent : saidWeight P W [] < weight P W message := weight_pos P W message
  rw [RunningNode.react]
  split
  · exact .lighter rfl rfl silent
  unfold handle
  split
  · case _ type => exact .lighter rfl rfl (weight_inv_handled type)
  split
  · case _ type => exact .lighter rfl rfl (weight_getdata_handled regular keeps type)
  split
  · case _ type => exact handleBlock_outcome regular weighed type readable _ reading now
  split
  · exact handleTx_outcome _
  split
  · case _ type => exact .lighter rfl rfl (weight_getblocks_handled keeps type)
  split
  · case _ type =>
    refine .lighter rfl rfl ?_
    rw [saidWeight_single,weight_pong,weight,if_neg (by rw [type]; decide),if_neg (by rw [type]; decide),
      if_neg (by rw [type]; decide),if_neg (by rw [type]; decide),if_pos type]
    exact Nat.one_lt_two
  split
  · exact .lighter rfl rfl silent
  · exact .lighter rfl rfl silent

end

/-! ### A network -/

section
variable {ι E : Type} {P : Primitives} {W : HashBytes → Nat} {cables : Cables ι E} {capacity : ι → Nat}
  {net : Network ι E}

/-- All blocks are graded, and the chains and mempools are as runs of nodes leave
    them. -/
structure Orderly (P : Primitives) (W : HashBytes → Nat) (capacity : ι → Nat) (net : Network ι E) : Prop
    extends Clean P (Graded P W) (fun _ => True) net where
  weighed : ∀ i, Weighed P W (net.nodes i).chain.blockchain
  room : ∀ i, (net.nodes i).chain.mempool.maxSize = capacity i ∧
    (net.nodes i).chain.mempool.pending.length ≤ capacity i

variable [DecidableEq ι]

theorem Orderly.react (orderly : Orderly P W capacity net) {i : ι} {input : Input}
    (reaches : Reaches P (Graded P W) (fun _ => True) input) : Orderly P W capacity (net.react P cables i input) := by
  have call := (orderly.keeps i).call reaches
  refine ⟨orderly.toClean.react (passes_graded P W) reaches,fun j => ?_,fun j => ?_⟩
  · by_cases here : j = i
    · subst here
      rw [nodes_react_self]
      rcases call with same | ⟨call,⟨online,brings⟩,after⟩
      · exact same ▸ orderly.weighed j
      · exact after ▸ (growing_weighed P W).after (orderly.keeps j).holds (orderly.regular j) online brings
          (orderly.weighed j)
    · simpa [here] using orderly.weighed j
  · by_cases here : j = i
    · subst here
      rw [nodes_react_self]
      rcases call with same | ⟨call,-,after⟩
      · exact same ▸ orderly.room j
      · exact after ▸ mempool_after (FeeOrder.kept_bounded P (capacity j)) (orderly.regular j) call (orderly.room j)
    · simpa [here] using orderly.room j

variable [DecidableEq E]

omit [DecidableEq ι] in
theorem Orderly.taken (orderly : Orderly P W capacity net) {e : E} {message : Message} {rest : List Message}
    (first : net.inbox e = message :: rest) : Readable P (Graded P W) (fun _ => True) message ∧
      Orderly P W capacity { net with inbox := Function.update net.inbox e rest } := by
  have here := orderly.inbox e
  rw [first] at here
  obtain ⟨readable,later⟩ := List.forall_mem_cons.mp here
  refine ⟨readable,⟨orderly.regular,orderly.keeps,fun f other member => ?_⟩,orderly.weighed,orderly.room⟩
  by_cases same : f = e
  · subst same
    exact later other (by simpa using member)
  · exact orderly.inbox f other (by simpa [same] using member)

theorem Orderly.step (orderly : Orderly P W capacity net) {action : Action ι E}
    (comes : Comes P (Graded P W) (fun _ => True) action) : Orderly P W capacity (net.step P cables action) := by
  cases action with
  | act i input => exact orderly.react comes
  | deliver e reading now =>
    rw [Network.step]
    rcases first : net.inbox e with _ | ⟨message,rest⟩
    · exact orderly
    · obtain ⟨readable,taken⟩ := orderly.taken first
      exact taken.react readable

theorem Orderly.run (orderly : Orderly P W capacity net) {actions : List (Action ι E)}
    (comes : ∀ action ∈ actions, Comes P (Graded P W) (fun _ => True) action) :
    Orderly P W capacity (run (Network.step P cables) net actions) := by
  induction actions generalizing net with
  | nil => exact orderly
  | cons action rest ih =>
    obtain ⟨first,later⟩ := List.forall_mem_cons.mp comes
    exact ih (orderly.step first) later

variable [Fintype ι] [Fintype E]

/-- By how much the chains can still get heavier. -/
def workLeft (net : Network ι E) : Nat := ∑ i, (2 ^ 64 - (net.nodes i).chain.blockchain.latest.cumulativeWork.toNat)

/-- By how much the mempools can still get better. -/
def worthLeft (capacity : ι → Nat) (net : Network ι E) : Nat :=
  ∑ i, (capacity i * 2 ^ 64 - worth (net.nodes i).chain.mempool)

/-- What is on its way weighs. -/
def underway (P : Primitives) (W : HashBytes → Nat) (net : Network ι E) : Nat :=
  ∑ e, ((net.inbox e).map (weight P W)).sum

omit [Fintype ι] in
/-- What is sent reaches one end at most. -/
theorem posted_weight_single (i : ι) (socket : Nat) (outgoing : Outgoing) :
    ∑ e, ((posted cables i [.sendMsg socket outgoing] e).map (weight P W)).sum ≤ weight P W outgoing.message := by
  by_cases there : (∃ f, cables.owner f = i ∧ cables.socket f = socket) ∧
      outgoing.message.payload.length ≤ maxPayloadSize.toNat
  · obtain ⟨⟨f,rfl,rfl⟩,small⟩ := there
    rw [Finset.sum_eq_single (cables.other f)]
    · rw [posted_single f small,if_pos rfl,List.map_singleton,List.sum_singleton]
    · intro e _ elsewhere
      rw [posted_single f small,if_neg elsewhere,List.map_nil,List.sum_nil]
    · exact fun out => absurd (Finset.mem_univ _) out
  · have lost : ∀ e, posted cables i [.sendMsg socket outgoing] e = [] := by
      intro e
      refine List.filterMap_eq_nil_iff.mpr fun output member => ?_
      obtain rfl := List.mem_singleton.mp member
      exact if_neg fun arrives => there ⟨⟨cables.other e,arrives.1,arrives.2.1⟩,arrives.2.2⟩
    simp [lost]

omit [Fintype ι] in
theorem posted_weight (i : ι) (said : List Output) :
    ∑ e, ((posted cables i said e).map (weight P W)).sum ≤ saidWeight P W said := by
  induction said with
  | nil => simp
  | cons output rest ih =>
    have split : ∀ e, ((posted cables i (output :: rest) e).map (weight P W)).sum =
        ((posted cables i [output] e).map (weight P W)).sum + ((posted cables i rest e).map (weight P W)).sum := by
      intro e
      rw [posted,← List.singleton_append,List.filterMap_append,List.map_append,List.sum_append]
      rfl
    have one : ∑ e, ((posted cables i [output] e).map (weight P W)).sum ≤ saidWeight P W [output] := by
      cases output with
      | dialed address => simp [posted]
      | sendMsg socket outgoing =>
        rw [saidWeight_single]
        exact posted_weight_single i socket outgoing
    rw [Finset.sum_congr rfl fun e _ => split e,Finset.sum_add_distrib,saidWeight_cons]
    exact Nat.add_le_add one ih

omit [DecidableEq ι] [Fintype ι] in
theorem underway_taken {e : E} {message : Message} {rest : List Message} (first : net.inbox e = message :: rest) :
    underway P W { net with inbox := Function.update net.inbox e rest } + weight P W message = underway P W net := by
  unfold underway
  rw [← Finset.add_sum_erase _ _ (Finset.mem_univ e),← Finset.add_sum_erase _ _ (Finset.mem_univ e)]
  have others : ∀ f ∈ Finset.univ.erase e, ((Function.update net.inbox e rest f).map (weight P W)).sum =
      ((net.inbox f).map (weight P W)).sum := by
    intro f member
    rw [Function.update_of_ne (Finset.ne_of_mem_erase member)]
  dsimp only
  rw [Finset.sum_congr rfl others,Function.update_self,first,List.map_cons,List.sum_cons]
  omega

omit [Fintype ι] in
theorem underway_react (i : ι) (input : Input) :
    underway P W (net.react P cables i input) ≤ underway P W net + saidWeight P W ((net.nodes i).react P input).2 := by
  have split : ∀ e, (((net.react P cables i input).inbox e).map (weight P W)).sum =
      ((net.inbox e).map (weight P W)).sum +
        ((posted cables i ((net.nodes i).react P input).2 e).map (weight P W)).sum := by
    intro e
    rw [Network.react,List.map_append,List.sum_append]
  rw [underway,Finset.sum_congr rfl fun e _ => split e,Finset.sum_add_distrib]
  exact Nat.add_le_add_left (posted_weight i _) _

/-- What is left: work, then worth, then weight. -/
def left (P : Primitives) (W : HashBytes → Nat) (capacity : ι → Nat) (net : Network ι E) : Nat ×ₗ Nat ×ₗ Nat :=
  toLex (workLeft net,toLex (worthLeft capacity net,underway P W net))

omit [DecidableEq E] [Fintype E] in
/-- A turn changes what one node contributes to a sum over the nodes. -/
theorem sum_react (f : ι → RunningNode → Nat) (i : ι) (input : Input) :
    ∑ j, f j ((net.react P cables i input).nodes j) + f i (net.nodes i) =
      ∑ j, f j (net.nodes j) + f i ((net.nodes i).next P input) := by
  have others : ∀ j ∈ Finset.univ.erase i, f j ((net.react P cables i input).nodes j) = f j (net.nodes j) := by
    intro j member
    rw [nodes_react_of_ne P net input (Finset.ne_of_mem_erase member)]
  rw [← Finset.add_sum_erase _ _ (Finset.mem_univ i),← Finset.add_sum_erase _ (fun j => f j (net.nodes j)) (Finset.mem_univ i),
    Finset.sum_congr rfl others,nodes_react_self]
  omega

/-- A turn that leads to one of the three leaves less. -/
theorem left_react {i : ι} {input : Input} {message : Message}
    (still : ((net.nodes i).next P input).chain.mempool.pending.length ≤ capacity i)
    (outcome : Outcome P W (net.nodes i) message ((net.nodes i).react P input)) :
    left P W capacity (net.react P cables i input) <
      toLex (workLeft net,toLex (worthLeft capacity net,underway P W net + weight P W message)) := by
  have work : workLeft (net.react P cables i input) + _ = workLeft net + _ :=
    sum_react (fun _ n => 2 ^ 64 - n.chain.blockchain.latest.cumulativeWork.toNat) i input
  have worths : worthLeft capacity (net.react P cables i input) + _ = worthLeft capacity net + _ :=
    sum_react (fun j n => capacity j * 2 ^ 64 - worth n.chain.mempool) i input
  have messages : underway P W (net.react P cables i input) ≤ _ := underway_react i input
  cases outcome with
  | heavier more =>
    refine Prod.Lex.toLex_lt_toLex.mpr (.inl ?_)
    have more := UInt64.lt_iff_toNat_lt.mp more
    have bounded := ((net.nodes i).next P input).chain.blockchain.latest.cumulativeWork.toNat_lt
    rw [next] at bounded work
    omega
  | better blockchain more =>
    have same : workLeft (net.react P cables i input) = workLeft net := by
      rw [next,blockchain] at work
      exact Nat.add_right_cancel work
    refine Prod.Lex.toLex_lt_toLex.mpr (.inr ⟨same,Prod.Lex.toLex_lt_toLex.mpr (.inl ?_)⟩)
    have most := (worth_le ((net.nodes i).next P input).chain.mempool).trans (Nat.mul_le_mul_right _ still)
    rw [next] at most worths
    dsimp only at worths ⊢
    omega
  | lighter blockchain mempool said =>
    rw [next,blockchain] at work
    rw [next,mempool] at worths
    refine Prod.Lex.toLex_lt_toLex.mpr (.inr ⟨Nat.add_right_cancel work,?_⟩)
    refine Prod.Lex.toLex_lt_toLex.mpr (.inr ⟨Nat.add_right_cancel worths,?_⟩)
    dsimp only
    omega

/-- A delivery leaves less. -/
theorem Orderly.less (orderly : Orderly P W capacity net) {e : E} (reading : Reading) (now : Nat)
    (delivers : net.inbox e ≠ []) :
    left P W capacity (net.step P cables (.deliver e reading now)) < left P W capacity net := by
  obtain ⟨message,rest,first⟩ := List.exists_cons_of_ne_nil delivers
  obtain ⟨readable,taken⟩ := orderly.taken first
  have after : Orderly P W capacity (net.step P cables (.deliver e reading now)) := orderly.step trivial
  have outcome := received_outcome (orderly.regular (cables.owner e)) (orderly.keeps (cables.owner e))
    (orderly.weighed (cables.owner e)) readable (cables.socket e) reading now
  have before : underway P W { net with inbox := Function.update net.inbox e rest } + weight P W message =
      underway P W net := underway_taken first
  have still := (after.room (cables.owner e)).2
  rw [Network.step,first] at still ⊢
  dsimp only at still ⊢
  rw [nodes_react_self] at still
  have whole : left P W capacity net = toLex (workLeft net,toLex (worthLeft capacity net,_)) :=
    congrArg (fun weight => toLex (workLeft net,toLex (worthLeft capacity net,weight))) before.symm
  rw [whole]
  exact left_react still outcome

/-! ### Silence -/

/-- The network after so many deliveries of a schedule. -/
def delivered (P : Primitives) (cables : Cables ι E) (net : Network ι E) (schedule : Nat → Delivery E) (count : Nat) :
    Network ι E :=
  run (Network.step P cables) net ((List.range count).map fun k => (schedule k).action)

omit [Fintype ι] [Fintype E] in
theorem delivered_succ (schedule : Nat → Delivery E) (count : Nat) :
    delivered P cables net schedule (count + 1) =
      (delivered P cables net schedule count).step P cables (schedule count).action := by
  rw [delivered,List.range_succ,List.map_append,run_append]
  rfl

theorem Orderly.settles (orderly : Orderly P W capacity net) (schedule : Nat → Delivery E) :
    ∃ count, (delivered P cables net schedule count).inbox (schedule count).1 = [] := by
  by_contra never
  rw [not_exists] at never
  have always : ∀ count, Orderly P W capacity (delivered P cables net schedule count) :=
    fun count => orderly.run fun action member => by
      obtain ⟨k,-,rfl⟩ := List.mem_map.mp member
      trivial
  have falls : ∀ count, left P W capacity (delivered P cables net schedule (count + 1)) <
      left P W capacity (delivered P cables net schedule count) := by
    intro count
    rw [delivered_succ]
    exact (always count).less _ _ (never count)
  exact (RelEmbedding.natGT _ falls).not_wellFounded wellFounded_lt

/-- After whatever has been mined, paid, connected and delivered, gossip alone
    does not go on for ever: every schedule of deliveries comes to an end that
    waits for nothing. -/
theorem gossip_settles (fresh : Fresh P net) (genesis : Graded P W (Block.genesis P)) {actions : List (Action ι E)}
    (comes : ∀ action ∈ actions, Comes P (Graded P W) (fun _ => True) action) (schedule : Nat → Delivery E) :
    ∃ count, (delivered P cables (run (Network.step P cables) net actions) schedule count).inbox (schedule count).1 = [] := by
  have started : ∀ i, ∃ mempoolMaxSize params storage,
      (net.nodes i).chain = .new P mempoolMaxSize params storage ∧ (net.nodes i).syncState = .idle := by
    intro i
    obtain ⟨listenPort,info,mempoolMaxSize,params,storage,new⟩ := fresh.nodes i
    exact ⟨mempoolMaxSize,params,storage,by rw [new]; rfl,by rw [new]; rfl⟩
  have orderly : Orderly P W (fun i => (net.nodes i).chain.mempool.maxSize) net := by
    refine ⟨⟨fun i => ?_,fun i => ?_,fun e message member => ?_⟩,fun i => ?_,fun i => ?_⟩
    · obtain ⟨mempoolMaxSize,params,storage,new,-⟩ := started i
      rw [new]
      exact regular_new P mempoolMaxSize params storage
    · obtain ⟨mempoolMaxSize,params,storage,new,idle⟩ := started i
      refine ⟨?_,by rw [idle]; nofun⟩
      rw [new]
      exact ⟨List.forall_mem_singleton.mpr genesis,nofun,nofun⟩
    · rw [fresh.quiet e] at member
      cases member
    · obtain ⟨mempoolMaxSize,params,storage,new,-⟩ := started i
      rw [new]
      exact List.forall_mem_singleton.mpr (Nat.zero_add _)
    · obtain ⟨mempoolMaxSize,params,storage,new,-⟩ := started i
      rw [new]
      exact ⟨rfl,Nat.zero_le _⟩
  exact (orderly.run comes).settles schedule

end

open Samples

/-- Two nodes that meet, one of which then mines. -/
def strangers : Network Bool Bool := ⟨fun _ => newcomer,fun _ => []⟩

def meeting : List (Network.Action Bool Bool) :=
  [.act false (.accepted (some (text "8.8.8.8")) ⟨some 1,some ⟨1,1,0,9000,2⟩,true⟩ 0),
    .act true (.accepted (some (text "8.8.8.8")) ⟨some 1,some ⟨1,1,0,9000,2⟩,true⟩ 0),
    .act false (.mined reading plainA)]

/-- The work that the hashes of the two blocks stand for. -/
def sampleWork (hash : HashBytes) : Nat := if hash = genesisHash then 1 else if hash = plainA.hash then 17 else 0

theorem gossip_settles_meeting :
    (run (Network.step sample Spreading.pairCable) strangers meeting).inbox true ≠ [] ∧
      ∃ count, (delivered sample Spreading.pairCable (run (Network.step sample Spreading.pairCable) strangers meeting)
        (fun k => (k % 2 = 0,reading,0)) count).inbox (count % 2 = 0) = [] := by
  have fresh : Fresh sample strangers := ⟨fun _ => rfl,fun _ => ⟨_,_,_,_,_,rfl⟩⟩
  have genesis : Graded sample sampleWork (Block.genesis sample) :=
    ⟨whole_genesis sample,by decide +kernel,by decide +kernel⟩
  have mined : Graded sample sampleWork plainA :=
    ⟨⟨⟨by decide +kernel,nofun⟩,by decide +kernel⟩,by decide +kernel,by decide +kernel⟩
  have comes : ∀ action ∈ meeting, Comes sample (Graded sample sampleWork) (fun _ => True) action :=
    List.forall_mem_cons.mpr ⟨trivial,List.forall_mem_cons.mpr ⟨trivial,List.forall_mem_singleton.mpr mined⟩⟩
  exact ⟨by decide +kernel,gossip_settles fresh genesis comes (fun k => (k % 2 = 0,reading,0))⟩

end ForgeChain.Settling
