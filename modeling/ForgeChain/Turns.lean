import ForgeChain.Heads
import ForgeChain.Settling

/-!
What a node tells its peers about blocks and what it asks them for, turn by turn.
A node whose fork choice does not give a block up for a lighter tip (`Weighs`), as
it does not where the block is no heavier than its tip (`Abreast.weighs_light`) or
the branch of the block is signed and valid (`Abreast.weighs_branch`), moves its
tip only to the block that has just come in
(`Abreast.fate`), announces the new tip to all its peers but the one it has it
from, asks for what it lacks of what it is offered, and sends its tip to who asks
for it (`Turned`).
-/
namespace ForgeChain.Turns
open Runs RunningNode Network Batch Spreading Custody Origins Settling

/-! ### The blocks that messages are about -/

section
variable {P : Primitives} {W : HashBytes → Nat} {message : Message} {hash : HashBytes}

/-- The message announces a block or is the block. -/
inductive Tells (P : Primitives) (message : Message) (hash : HashBytes) : Prop
  | listed (items : List InventoryItem) (type : message.type = .inv)
      (read : deserializeInventory message.payload = some items) (there : ⟨.block,hash⟩ ∈ items)
  | sent (block : Block) (type : message.type = .block) (read : Block.deserialize P message.payload = some block)
      (same : block.hash = hash)

/-- The message asks for a block. -/
structure Asks (message : Message) (hash : HashBytes) : Prop where
  type : message.type = .getdata
  listed : ∃ items, deserializeInventory message.payload = some items ∧ ⟨.block,hash⟩ ∈ items

theorem Tells.type (tells : Tells P message hash) : message.type = .inv ∨ message.type = .block := by
  cases tells with
  | listed items type read there => exact .inl type
  | sent block type read same => exact .inr type

theorem tells_inv {item : InventoryItem} : Tells P (Outgoing.inv [item]).message hash ↔ item = ⟨.block,hash⟩ := by
  constructor
  · rintro (⟨items,type,read,there⟩ | ⟨block,type,read,same⟩)
    · obtain rfl : [item] = items := Option.some.inj ((deserialize_single item).symm.trans read)
      exact (List.mem_singleton.mp there).symm
    · cases type
  · rintro rfl
    exact .listed _ rfl (deserialize_single _) (List.mem_singleton_self _)

theorem tells_block {block : Block} (whole : Whole P block) :
    Tells P (Outgoing.block block).message hash ↔ block.hash = hash := by
  constructor
  · rintro (⟨items,type,read,there⟩ | ⟨other,type,read,same⟩)
    · cases type
    · obtain rfl : bare block = other := Option.some.inj (whole.deserialize.symm.trans read)
      exact same
  · exact fun same => .sent (bare block) rfl whole.deserialize same

theorem asks_getdata {items : List InventoryItem} (few : items.length < 2 ^ 32) :
    Asks (Outgoing.getdata items).message hash ↔ ⟨.block,hash⟩ ∈ items := by
  have decoded : deserializeInventory (serializeInventory items) = some items := (decodes_inventory _ _).mpr ⟨few,rfl⟩
  constructor
  · rintro ⟨-,others,read,there⟩
    obtain rfl : items = others := Option.some.inj (decoded.symm.trans read)
    exact there
  · exact fun there => ⟨rfl,items,decoded,there⟩

end

/-! ### Blocks and their chains -/

section
variable {P : Primitives} {W : HashBytes → Nat} {block : Block} {chain : Blockchain} {m : ChainManager} {reading : Reading}

/-- A graded block that `send_message` does not refuse. -/
structure Sendable (P : Primitives) (W : HashBytes → Nat) (block : Block) : Prop extends Graded P W block where
  small : block.serialize.length ≤ maxPayloadSize.toNat

theorem passes_sendable (P : Primitives) (W : HashBytes → Nat) : Passes P (Sendable P W) (fun _ => True) where
  stamped work sendable := ⟨(passes_graded P W).stamped work sendable.toGraded,sendable.small⟩
  contents _ _ _ := trivial
  block sendable read := by
    obtain rfl := Option.some.inj (sendable.whole.deserialize.symm.trans read)
    exact ⟨sendable.bare,sendable.small⟩
  tx _ _ := trivial

/-- Every block of the chain is heavier than those below. -/
def Rising (W : HashBytes → Nat) (chain : Blockchain) : Prop :=
  chain.blocks.Pairwise fun low high => W low.hash < W high.hash

theorem Rising.le_latest (rising : Rising W chain) (member : block ∈ chain.blocks) : W block.hash ≤ W chain.latest.hash := by
  have split : chain.blocks = chain.blocks.dropLast ++ [chain.latest] := (List.dropLast_append_getLast chain.nonempty).symm
  rw [Rising,split] at rising
  rw [split] at member
  rcases List.mem_append.mp member with below | top
  · exact ((List.pairwise_append.mp rising).2.2 block below chain.latest (List.mem_singleton_self _)).le
  · rw [List.mem_singleton.mp top]

theorem growing_rising (P : Primitives) (W : HashBytes → Nat) : Growing (Sendable P W) (Rising W) where
  added {chain block} rising sendable parent := by
    refine List.pairwise_append.mpr ⟨rising,List.pairwise_singleton _ _,fun low below high top => ?_⟩
    obtain rfl := List.mem_singleton.mp top
    have higher := sendable.rising
    rw [parent] at higher
    exact (rising.le_latest below).trans_lt higher
  cut rising height := rising.sublist (List.take_sublist _ _)

theorem growing_weighed_sendable (P : Primitives) (W : HashBytes → Nat) : Growing (Sendable P W) (Weighed P W) where
  added weighed sendable parent := weighed.addBlock sendable.toGraded parent
  cut weighed height := weighed.cut height

/-- The fork choice does not give the block up for a lighter tip. -/
def Weighs (P : Primitives) (W : HashBytes → Nat) (m : ChainManager) (reading : Reading) (block : Block) : Prop :=
  W block.hash ≤ W (m.submitBlock P reading block).2.blockchain.latest.hash

instance : Decidable (Weighs P W m reading block) := Nat.decLe _ _

/-- A chain manager of sendable blocks that waits for none heavier than its tip. -/
structure Abreast (P : Primitives) (W : HashBytes → Nat) (m : ChainManager) : Prop where
  regular : Regular P m
  holds : Holds (Sendable P W) (fun _ => True) m
  weighed : Weighed P W m.blockchain
  rising : Rising W m.blockchain
  indexed : TipIndexed m.blockchain
  pool : ∀ block ∈ m.orphanPool.blocks, W block.hash ≤ W m.blockchain.latest.hash

theorem abreast_new (genesis : Sendable P W (Block.genesis P)) (mempoolMaxSize : Nat) (params : ConsensusParams)
    (storage : Option Storage) : Abreast P W (.new P mempoolMaxSize params storage) where
  regular := regular_new P mempoolMaxSize params storage
  holds := ⟨List.forall_mem_singleton.mpr genesis,nofun,nofun⟩
  weighed := List.forall_mem_singleton.mpr (Nat.zero_add _)
  rising := List.pairwise_singleton _ _
  indexed := tipIndexed_new P
  pool := nofun

theorem Abreast.find (abreast : Abreast P W m) {hash : HashBytes} (found : m.findBlock hash = some block) :
    W block.hash ≤ W m.blockchain.latest.hash := by
  rcases there : m.blockchain.find hash with _ | other
  · rw [ChainManager.findBlock,there] at found
    exact abreast.pool block (OrphanPool.mem_blocks.mpr ⟨hash,found⟩)
  · rw [ChainManager.findBlock,there] at found
    cases found
    obtain ⟨-,height,-,inside⟩ := abreast.regular.sound.find there
    exact abreast.rising.le_latest (List.mem_of_getElem? inside)

theorem Abreast.has (abreast : Abreast P W m) {hash : HashBytes} (has : m.hasBlock hash = true) :
    W hash ≤ W m.blockchain.latest.hash := by
  obtain ⟨height,found⟩ := Option.isSome_iff_exists.mp has
  obtain ⟨block,inside,rfl⟩ := abreast.regular.sound hash height found
  exact abreast.rising.le_latest (List.mem_of_getElem? inside)

theorem Abreast.findBlock_tip (abreast : Abreast P W m) :
    m.findBlock m.blockchain.latest.hash = some m.blockchain.latest := by
  have there : m.blockchain.blocks[m.blockchain.size - 1]? = some m.blockchain.latest := by
    rw [Blockchain.latest,Blockchain.size,List.getLast_eq_getElem,List.getElem?_eq_getElem]
  have found : m.blockchain.find m.blockchain.latest.hash = some m.blockchain.latest :=
    Option.bind_eq_some_iff.mpr ⟨_,abreast.indexed,there⟩
  rw [ChainManager.findBlock,found]
  rfl

/-- What becomes of a block: it is the new tip and is announced, its parent is
    asked for, or nothing happens. -/
inductive Fate (W : HashBytes → Nat) (m : ChainManager) (block : Block)
    (result : Except Exn BlockOutcome × ChainManager) : Prop
  | moved (outcome : BlockOutcome) (returned : result.1 = .ok outcome)
      (status : outcome.status = .Accepted ∨ outcome.status = .Reorged)
      (tip : result.2.blockchain.latest.hash = block.hash) (rises : W m.blockchain.latest.hash < W block.hash)
      (listed : block.hash ∈ outcome.toBroadcast) (light : ∀ hash ∈ outcome.toBroadcast, W hash ≤ W block.hash)
  | asked (returned : result.1 = .ok (.needParent block)) (blockchain : result.2.blockchain = m.blockchain)
  | dropped (returned : ∀ outcome, result.1 = .ok outcome → outcome = .rejected)
      (blockchain : result.2.blockchain = m.blockchain)

theorem hash_latest_foldl {blocks : List Block} {last : Block} (chain : Blockchain) :
    ((blocks ++ [last]).foldl Blockchain.addBlock chain).latest.hash = last.hash := by
  rw [List.foldl_append,List.foldl_cons,List.foldl_nil,Blockchain.latest_addBlock]

/-- A branch that is heavier than the chain ends with the block that made it be
    looked at: what waited before is lighter than the tip. -/
theorem Abreast.reorganized (abreast : Abreast P W m) (sendable : Sendable P W block) {fork : ForkChain} {height : Nat}
    {m' : ChainManager} (chosen : Chosen P m reading block fork) (reorg : Reorganized P (m.pooled block) m' fork height)
    (after : (m.after P (.submitBlock reading block)).blockchain = m'.blockchain) :
    m'.blockchain.latest.hash = block.hash ∧ W m.blockchain.latest.hash < W block.hash ∧ block ∈ fork.blocks ∧
      ∀ other ∈ fork.blocks, W other.hash ≤ W block.hash := by
  obtain ⟨height',grown,origin⟩ := chosen.grown abreast.regular
  obtain rfl : height = height' := Option.some.inj (reorg.found.symm.trans grown.valid.found)
  have weighed : Weighed P W m'.blockchain := by
    have kept : Weighed P W (m.after P (.submitBlock reading block)).blockchain :=
      (growing_weighed_sendable P W).after abreast.holds abreast.regular trivial sendable abreast.weighed
    rwa [after] at kept
  have light : ∀ other ∈ fork.blocks, other = block ∨ W other.hash ≤ W m.blockchain.latest.hash :=
    fun other member => (origin other member).imp_right fun found =>
      abreast.pool other (OrphanPool.mem_blocks.mpr ⟨_,found⟩)
  have heavier : W m.blockchain.latest.hash < W m'.blockchain.latest.hash := by
    have work : m'.blockchain.latest.cumulativeWork = forkWork fork := by
      rw [reorg.blockchain]
      exact work_reorganized grown.ancestor
    have more : isForkHeavier m.blockchain fork = true := reorg.heavier
    rw [isForkHeavier,decide_eq_true_eq] at more
    have more := UInt64.lt_iff_toNat_lt.mp more
    have before := abreast.weighed.latest
    have now := weighed.latest
    rw [work] at now
    omega
  obtain ⟨front,last,split⟩ : ∃ front last, fork.blocks = front ++ [last] :=
    ⟨_,_,(List.dropLast_append_getLast (chosen.nonempty abreast.regular)).symm⟩
  have top : m'.blockchain.latest.hash = last.hash := by
    rw [reorg.blockchain,split,hash_latest_foldl]
  have member : last ∈ fork.blocks := by simp [split]
  rw [top] at heavier ⊢
  obtain rfl : last = block := (light last member).resolve_right (by omega)
  refine ⟨rfl,heavier,member,fun other inside => ?_⟩
  rcases light other inside with rfl | low
  · exact le_rfl
  · exact low.trans heavier.le

theorem Abreast.fate (abreast : Abreast P W m) (sendable : Sendable P W block) (reading : Reading) :
    Fate W m block (m.submitBlock P reading block) := by
  cases submitBlock_cases abreast.regular reading block with
  | refused notOn notOff run =>
    rw [run]
    exact .dropped (fun _ same => (Except.ok.inj same).symm) rfl
  | accepted tip signed applied run =>
    rw [run]
    have rises := sendable.rising
    rw [tip.parent] at rises
    refine .moved _ rfl (.inl rfl) ?_ rises (List.mem_singleton_self _) (List.forall_mem_singleton.mpr le_rfl)
    simp only [ChainManager.extended,Blockchain.latest_addBlock]
  | rolledBack tip before tx after split signed applied stops run =>
    rw [run]
    exact .dropped (fun _ same => (Except.ok.inj same).symm) rfl
  | raised tip before tx after e split signed applied bad run =>
    rw [run]
    exact .dropped (by rintro _ ⟨⟩) rfl
  | waiting off untraced run =>
    rw [run]
    exact .asked rfl rfl
  | outweighed off traced weak run =>
    rw [run]
    exact .dropped (fun _ same => (Except.ok.inj same).symm) rfl
  | unverifiable off fork chosen e heavier bad run =>
    rw [run]
    exact .dropped (by rintro _ ⟨⟩) rfl
  | reorganized off fork chosen height m' reorg ledger run =>
    obtain ⟨tip,rises,member,light⟩ := abreast.reorganized sendable chosen reorg (by rw [ChainManager.after,run])
    rw [run]
    exact .moved _ rfl (.inr rfl) tip rises (List.mem_map_of_mem member) (List.forall_mem_map.mpr light)

theorem Fate.rises {result : Except Exn BlockOutcome × ChainManager} (fate : Fate W m block result) :
    W m.blockchain.latest.hash ≤ W result.2.blockchain.latest.hash := by
  cases fate with
  | moved outcome returned status tip rises listed light => exact tip ▸ rises.le
  | asked returned blockchain => rw [blockchain]
  | dropped returned blockchain => rw [blockchain]

/-- The fork choice is as it should be for a block that is not heavier. -/
theorem Abreast.weighs_light (abreast : Abreast P W m) (sendable : Sendable P W block)
    (light : W block.hash ≤ W m.blockchain.latest.hash) : Weighs P W m reading block :=
  light.trans (abreast.fate sendable reading).rises

/-- The tip of a signed branch that is not heavier than the chain is no heavier
    than the tip of the chain. -/
theorem Abreast.branch_light (abreast : Abreast P W m) (sendable : Sendable P W block) {fork : ForkChain}
    (chosen : Chosen P m reading block fork) {front : List Block} {last : Block} (split : fork.blocks = front ++ [last])
    (signed : ∀ tx ∈ transactionsOf fork.blocks, tx.Authentic P)
    (weak : ∀ height, ¬ Adoptable P m fork height) : W last.hash ≤ W m.blockchain.latest.hash := by
  obtain ⟨height,grown,origin⟩ := chosen.grown abreast.regular
  have light : ¬ forkWork fork > m.blockchain.latest.cumulativeWork := by
    intro heavier
    exact weak height ⟨decide_eq_true heavier,signed,grown.valid.found⟩
  have all : ∀ other ∈ fork.blocks, Sendable P W other := by
    intro other member
    rcases origin other member with rfl | found
    · exact sendable
    · exact abreast.holds.pool other (OrphanPool.mem_blocks.mpr ⟨_,found⟩)
  have linked : Blockchain.Linked (m.blockchain.cut height).latest.hash fork.blocks := by
    rw [Blockchain.latest_cut grown.ancestor]
    exact grown.linked
  have weighed := ((growing_weighed_sendable P W).foldl_addBlock (abreast.weighed.cut height) all linked).latest
  rw [work_reorganized grown.ancestor,split,hash_latest_foldl] at weighed
  have before := abreast.weighed.latest
  have light := UInt64.not_lt.mp light
  rw [UInt64.le_iff_toNat_le] at light
  omega

/-- The fork choice is as it should be for a block whose branch is signed and at
    least as heavy up to where it is valid. -/
theorem Abreast.weighs_branch (abreast : Abreast P W m) (sendable : Sendable P W block) (off : OffTip P m block)
    {fork : ForkChain} (chosen : Chosen P m reading block fork) {front : List Block} {last : Block}
    (split : fork.blocks = front ++ [last]) (heavy : W block.hash ≤ W last.hash)
    (signed : ∀ tx ∈ transactionsOf fork.blocks, tx.Authentic P) : Weighs P W m reading block := by
  cases submitBlock_cases abreast.regular reading block with
  | refused notOn notOff run => exact absurd off notOff
  | accepted tip signed applied run => exact absurd tip.parent off.parent
  | rolledBack tip before tx after split signed applied stops run => exact absurd tip.parent off.parent
  | raised tip before tx after e split signed applied bad run => exact absurd tip.parent off.parent
  | waiting off untraced run =>
    obtain ⟨own,traced⟩ := chosen.1
    exact absurd (untraced.symm.trans traced) nofun
  | outweighed off traced weak run =>
    have light := abreast.branch_light sendable chosen split signed (weak fork · chosen)
    rw [Weighs,run]
    exact heavy.trans light
  | unverifiable off other that e heavier bad run =>
    obtain rfl := chosen.unique that
    rw [checkSignatures_true.mpr signed] at bad
    cases bad
  | reorganized off other that height m' reorg ledger run =>
    have moved := abreast.reorganized sendable that reorg (by rw [ChainManager.after,run])
    rw [Weighs,run]
    exact moved.1 ▸ le_rfl

theorem Abreast.after (abreast : Abreast P W m) {call : Call} (online : Online call)
    (brings : Brings (Sendable P W) (fun _ => True) call)
    (rises : W m.blockchain.latest.hash ≤ W (m.after P call).blockchain.latest.hash)
    (light : Brings (fun block => W block.hash ≤ W (m.after P call).blockchain.latest.hash) (fun _ => True) call) :
    Abreast P W (m.after P call) where
  regular := regular_after abreast.regular call
  holds := abreast.holds.after (passes_sendable P W).toKinds abreast.regular brings
  weighed := (growing_weighed_sendable P W).after abreast.holds abreast.regular online brings abreast.weighed
  rising := (growing_rising P W).after abreast.holds abreast.regular online brings abreast.rising
  indexed := tipIndexed_after abreast.regular abreast.indexed
  pool := by
    have bounded : Holds (fun block => W block.hash ≤ W (m.after P call).blockchain.latest.hash) (fun _ => True) m :=
      ⟨fun block member => (abreast.rising.le_latest member).trans rises,
        fun block member => (abreast.pool block member).trans rises,fun _ _ => trivial⟩
    exact bounded.pool_after abreast.regular light

theorem Abreast.submitBlock (abreast : Abreast P W m) (sendable : Sendable P W block)
    (weighs : Weighs P W m reading block) : Abreast P W (m.after P (.submitBlock reading block)) :=
  abreast.after trivial sendable (abreast.fate sendable reading).rises weighs

theorem Abreast.submitTransaction (abreast : Abreast P W m) (tx : Transaction) :
    Abreast P W (m.after P (.submitTransaction tx)) :=
  abreast.after trivial trivial le_rfl trivial

end

/-! ### A turn of a node -/

section
variable {P : Primitives} {W : HashBytes → Nat} {n : RunningNode} {reaction : Reaction} {message : Message}
  {block : Block} {socket : Nat} {reading : Reading}

/-- The hash of the block that the chain of a node ends with. -/
def tip (n : RunningNode) : HashBytes := n.chain.blockchain.latest.hash

/-- A turn of a node, with a message from a peer or without: what is sent is what
    the protocol of heads calls for. -/
structure Turned (P : Primitives) (W : HashBytes → Nat) (n : RunningNode) (heard : Option (Nat × Message))
    (reaction : Reaction) : Prop where
  abreast : Abreast P W reaction.1.chain
  syncState : reaction.1.syncState = n.syncState
  sockets : sockets reaction.1 = sockets n
  rises : W (tip n) ≤ W (tip reaction.1)
  offered : ∀ socket outgoing hash, .sendMsg socket outgoing ∈ reaction.2 → Tells P outgoing.message hash →
    W hash ≤ W (tip reaction.1)
  asked : ∀ socket outgoing hash, .sendMsg socket outgoing ∈ reaction.2 → Asks outgoing.message hash →
    ∃ cause better, heard = some (socket,cause) ∧ Tells P cause better ∧ W hash ≤ W better
  told : tip reaction.1 ≠ tip n → ∀ socket ∈ Network.sockets n,
    .sendMsg socket (.inv [⟨.block,tip reaction.1⟩]) ∈ reaction.2 ∨
      ∃ cause, heard = some (socket,cause) ∧ Tells P cause (tip reaction.1)
  pursued : ∀ socket cause hash, heard = some (socket,cause) → Tells P cause hash → W hash ≤ W (tip reaction.1) ∨
    ∃ outgoing, .sendMsg socket outgoing ∈ reaction.2 ∧ Asks outgoing.message hash ∧
      outgoing.message.payload.length ≤ maxPayloadSize.toNat
  answered : ∀ socket cause, heard = some (socket,cause) → Asks cause (tip n) →
    ∃ outgoing, .sendMsg socket outgoing ∈ reaction.2 ∧ Tells P outgoing.message (tip n) ∧
      outgoing.message.payload.length ≤ maxPayloadSize.toNat

/-- A message that says nothing about blocks, and replies that do not either. -/
theorem turned_aside {heard : Option (Nat × Message)} (abreast : Abreast P W reaction.1.chain)
    (blockchain : reaction.1.chain.blockchain = n.chain.blockchain) (syncState : reaction.1.syncState = n.syncState)
    (sockets : sockets reaction.1 = sockets n)
    (silent : ∀ socket outgoing, .sendMsg socket outgoing ∈ reaction.2 → ∀ hash,
      ¬ Tells P outgoing.message hash ∧ ¬ Asks outgoing.message hash)
    (other : ∀ socket cause, heard = some (socket,cause) → ∀ hash, ¬ Tells P cause hash ∧ ¬ Asks cause hash) :
    Turned P W n heard reaction where
  abreast := abreast
  syncState := syncState
  sockets := sockets
  rises := by rw [tip,tip,blockchain]
  offered socket outgoing hash said tells := absurd tells (silent socket outgoing said hash).1
  asked socket outgoing hash said asks := absurd asks (silent socket outgoing said hash).2
  told moved := absurd (congrArg (·.latest.hash) blockchain) moved
  pursued socket cause hash heard tells := absurd tells (other socket cause heard hash).1
  answered socket cause heard asks := absurd asks (other socket cause heard _).2

/-- What `handle_inv` asks for. -/
theorem handleInv_spec {items : List InventoryItem} (read : deserializeInventory message.payload = some items) :
    ∃ missing : List InventoryItem, missing.Sublist items ∧
      (∀ output ∈ n.handleInv P socket message.payload, output = .sendMsg socket (.getdata missing)) ∧
      ∀ hash, ⟨.block,hash⟩ ∈ items → n.chain.hasBlock hash = true ∨
        ⟨.block,hash⟩ ∈ missing ∧ .sendMsg socket (.getdata missing) ∈ n.handleInv P socket message.payload := by
  simp only [handleInv,read]
  generalize filtered : items.filter _ = missing
  refine ⟨missing,filtered ▸ List.filter_sublist,fun output member => ?_,fun hash there => ?_⟩
  · split at member
    · cases member
    · exact List.mem_singleton.mp member
  · rcases has : n.chain.hasBlock hash with _ | _
    · have lacks : ⟨.block,hash⟩ ∈ missing := by
        rw [← filtered]
        exact List.mem_filter.mpr ⟨there,by simp [has]⟩
      rw [if_neg (List.ne_nil_of_mem lacks)]
      exact .inr ⟨lacks,List.mem_singleton_self _⟩
    · exact .inl rfl

theorem length_serializeInventory (items : List InventoryItem) :
    (serializeInventory items).length = 4 + items.length * 33 := by
  have sizes : ∀ item : InventoryItem, item.serialize.length = 33 := by
    intro item
    simp [InventoryItem.serialize,item.hash.size]
  simp [serializeInventory,le32_length,List.length_flatMap,sizes]

theorem turned_inv (abreast : Abreast P W n.chain) (type : message.type = .inv)
    (small : message.payload.length ≤ maxPayloadSize.toNat) :
    Turned P W n (some (socket,message)) (n,n.handleInv P socket message.payload) := by
  have unasked : ∀ hash, ¬ Asks message hash := fun hash asks => absurd (type.symm.trans asks.type) (by decide)
  rcases read : deserializeInventory message.payload with _ | items
  · have silent : n.handleInv P socket message.payload = [] := by simp only [handleInv,read]
    rw [silent]
    refine turned_aside abreast rfl rfl rfl (by simp) fun _ _ same hash => ?_
    cases same
    refine ⟨?_,unasked hash⟩
    rintro (⟨others,-,there,-⟩ | ⟨block,other,-,-⟩)
    · exact absurd (read.symm.trans there) (by rintro ⟨⟩)
    · exact absurd (type.symm.trans other) (by decide)
  obtain ⟨few,payload⟩ := (decodes_inventory _ _).mp read
  obtain ⟨missing,fewer,only,all⟩ := @handleInv_spec P n message socket items read
  have asks : ∀ hash, Asks (Outgoing.getdata missing).message hash ↔ ⟨.block,hash⟩ ∈ missing :=
    fun hash => asks_getdata (fewer.length_le.trans_lt few)
  refine ⟨abreast,rfl,rfl,le_rfl,?_,?_,fun moved => absurd rfl moved,?_,?_⟩
  · intro target outgoing hash said tells
    cases only _ said
    exact tells.type.elim (by rintro ⟨⟩) (by rintro ⟨⟩)
  · intro target outgoing hash said asked
    cases only _ said
    exact ⟨message,hash,rfl,.listed items type read (fewer.subset ((asks hash).mp asked)),le_rfl⟩
  · intro target cause hash same tells
    cases same
    rcases tells with ⟨others,-,there,listed⟩ | ⟨block,other,-,-⟩
    · obtain rfl := Option.some.inj (read.symm.trans there)
      refine (all hash listed).imp abreast.has fun found => ⟨_,found.2,(asks hash).mpr found.1,?_⟩
      have size := fewer.length_le
      rw [payload,length_serializeInventory] at small
      rw [Outgoing.message,length_serializeInventory]
      omega
    · exact absurd (type.symm.trans other) (by decide)
  · intro target cause same asked
    cases same
    exact absurd asked (unasked _)

theorem turned_getdata (abreast : Abreast P W n.chain) (type : message.type = .getdata) :
    Turned P W n (some (socket,message)) (n,n.handleGetdata P socket message.payload) := by
  have untold : ∀ hash, ¬ Tells P message hash := fun hash tells => tells.type.elim (type ▸ by decide) (type ▸ by decide)
  rcases read : deserializeInventory message.payload with _ | items
  · have silent : n.handleGetdata P socket message.payload = [] := by simp only [handleGetdata,read]
    rw [silent]
    refine turned_aside abreast rfl rfl rfl (by simp) fun _ _ same hash => ?_
    cases same
    refine ⟨untold hash,?_⟩
    rintro ⟨-,others,there,-⟩
    exact absurd (read.symm.trans there) (by rintro ⟨⟩)
  have said : ∀ target outgoing, .sendMsg target outgoing ∈ n.handleGetdata P socket message.payload →
      (∃ tx, outgoing = .tx tx) ∨ ∃ block hash, outgoing = .block block ∧ n.chain.findBlock hash = some block := by
    intro target outgoing member
    simp only [handleGetdata,read] at member
    obtain ⟨⟨kind,hash⟩,-,sent⟩ := List.mem_filterMap.mp member
    cases kind with
    | block =>
      obtain ⟨block,found,same⟩ := Option.map_eq_some_iff.mp sent
      cases same
      exact .inr ⟨block,hash,rfl,found⟩
    | transaction =>
      obtain ⟨tx,-,same⟩ := Option.map_eq_some_iff.mp sent
      cases same
      exact .inl ⟨tx,rfl⟩
  refine ⟨abreast,rfl,rfl,le_rfl,?_,?_,fun moved => absurd rfl moved,?_,?_⟩
  · intro target outgoing hash member tells
    rcases said target outgoing member with ⟨tx,rfl⟩ | ⟨block,wanted,rfl,found⟩
    · exact tells.type.elim (by rintro ⟨⟩) (by rintro ⟨⟩)
    · obtain rfl := (tells_block (abreast.holds.findBlock found).whole).mp tells
      exact abreast.find found
  · intro target outgoing hash member asks
    rcases said target outgoing member with ⟨tx,rfl⟩ | ⟨block,wanted,rfl,found⟩
    · exact absurd asks.type (by rintro ⟨⟩)
    · exact absurd asks.type (by rintro ⟨⟩)
  · intro target cause hash same tells
    cases same
    exact absurd tells (untold hash)
  · intro target cause same asks
    cases same
    obtain ⟨-,others,there,listed⟩ := asks
    obtain rfl := Option.some.inj (read.symm.trans there)
    have sendable := abreast.holds.findBlock abreast.findBlock_tip
    refine ⟨.block n.chain.blockchain.latest,?_,(tells_block sendable.whole).mpr rfl,sendable.small⟩
    simp only [handleGetdata,read]
    refine List.mem_filterMap.mpr ⟨_,listed,?_⟩
    dsimp only [tip]
    rw [abreast.findBlock_tip]
    rfl

theorem turned_getblocks (abreast : Abreast P W n.chain) (type : message.type = .getblocks) :
    Turned P W n (some (socket,message)) (n,n.handleGetblocks socket message.payload) := by
  have said : ∀ target outgoing, .sendMsg target outgoing ∈ n.handleGetblocks socket message.payload →
      ∃ block ∈ n.chain.blockchain.blocks, outgoing = .block block := by
    intro target outgoing member
    unfold handleGetblocks at member
    split at member
    · cases member
    · obtain ⟨block,inside,same⟩ := List.mem_map.mp member
      cases same
      exact ⟨block,mem_blocksAfterLocator inside,rfl⟩
  refine ⟨abreast,rfl,rfl,le_rfl,?_,?_,fun moved => absurd rfl moved,?_,?_⟩
  · intro target outgoing hash member tells
    obtain ⟨block,inside,rfl⟩ := said target outgoing member
    obtain rfl := (tells_block (abreast.holds.chain block inside).whole).mp tells
    exact abreast.rising.le_latest inside
  · intro target outgoing hash member asks
    obtain ⟨block,inside,rfl⟩ := said target outgoing member
    exact absurd asks.type nofun
  · intro target cause hash same tells
    cases same
    exact tells.type.elim (type ▸ nofun) (type ▸ nofun)
  · intro target cause same asks
    cases same
    exact absurd (type.symm.trans asks.type) nofun

theorem silent_broadcast {exclude : Option Nat} {tx : Transaction} (target : Nat) (outgoing : Outgoing)
    (member : .sendMsg target outgoing ∈ n.broadcastInv exclude .transaction (tx.computeHash P)) (hash : HashBytes) :
    ¬ Tells P outgoing.message hash ∧ ¬ Asks outgoing.message hash := by
  obtain ⟨peer,-,same⟩ := List.mem_map.mp member
  cases same
  exact ⟨fun tells => absurd (tells_inv.mp tells) nofun,fun asks => absurd asks.type nofun⟩

theorem turned_tx (abreast : Abreast P W n.chain) (type : message.type = .tx) :
    Turned P W n (some (socket,message)) (n.handleTx P socket message.payload) := by
  have other : ∀ target cause, some (socket,message) = some (target,cause) → ∀ hash,
      ¬ Tells P cause hash ∧ ¬ Asks cause hash := by
    intro target cause same hash
    cases same
    exact ⟨fun tells => tells.type.elim (type ▸ nofun) (type ▸ nofun),fun asks => absurd (type.symm.trans asks.type) nofun⟩
  rcases handleTx_cases P n socket message.payload with run | ⟨tx,said,run,quiet⟩
  · rw [run]
    exact turned_aside abreast rfl rfl rfl nofun other
  · rw [run]
    refine turned_aside (abreast.submitTransaction tx) rfl rfl rfl ?_ other
    rcases quiet with rfl | rfl
    · nofun
    · exact silent_broadcast

theorem turned_paid (abreast : Abreast P W n.chain) (tx : Transaction) : Turned P W n none (n.submitTransaction P tx) := by
  obtain ⟨said,run,quiet⟩ := submitTransaction_cases P n tx
  rw [run]
  refine turned_aside (abreast.submitTransaction tx) rfl rfl rfl ?_ nofun
  rcases quiet with rfl | rfl
  · nofun
  · exact silent_broadcast

/-- A block that is submitted, from a peer or not: what is announced and asked for
    follows from what becomes of it. -/
theorem turned_submitted {heard : Option (Nat × Message)} {result : Except Exn BlockOutcome × ChainManager}
    {said : List Output} (after : Abreast P W result.2) (sendable : Sendable P W block)
    (fate : Fate W n.chain block result) (weighs : W block.hash ≤ W result.2.blockchain.latest.hash)
    (only : ∀ target outgoing, .sendMsg target outgoing ∈ said → ∃ outcome, result.1 = .ok outcome ∧
      ((∃ hash ∈ outcome.toBroadcast, outgoing = .inv [⟨.block,hash⟩]) ∨
        outgoing = .getdata [⟨.block,block.prevHash⟩] ∧ ∃ cause, heard = some (target,cause) ∧ Tells P cause block.hash))
    (all : ∀ outcome, result.1 = .ok outcome → outcome.status = .Accepted ∨ outcome.status = .Reorged →
      ∀ hash ∈ outcome.toBroadcast, ∀ socket ∈ sockets n, .sendMsg socket (.inv [⟨.block,hash⟩]) ∈ said ∨
        ∃ cause, heard = some (socket,cause) ∧ Tells P cause block.hash)
    (about : ∀ socket cause, heard = some (socket,cause) →
      (∀ hash, Tells P cause hash → block.hash = hash) ∧ ∀ hash, ¬ Asks cause hash) :
    Turned P W n heard ({ n with chain := result.2 },said) := by
  refine ⟨after,rfl,rfl,fate.rises,?_,?_,?_,?_,?_⟩
  · intro target outgoing hash member tells
    obtain ⟨outcome,returned,⟨listed,announced,rfl⟩ | ⟨rfl,-⟩⟩ := only target outgoing member
    · cases tells_inv.mp tells
      cases fate with
      | moved outcome' returned' status tip rises listed light =>
        obtain rfl := Except.ok.inj (returned.symm.trans returned')
        rw [Turns.tip,tip]
        exact light hash announced
      | asked returned' blockchain =>
        obtain rfl := Except.ok.inj (returned.symm.trans returned')
        cases announced
      | dropped returned' blockchain =>
        obtain rfl := returned' outcome returned
        cases announced
    · exact tells.type.elim nofun nofun
  · intro target outgoing hash member asks
    obtain ⟨outcome,returned,⟨listed,announced,rfl⟩ | ⟨rfl,cause,from_peer,tells⟩⟩ := only target outgoing member
    · exact absurd asks.type nofun
    · cases List.mem_singleton.mp ((asks_getdata (by simp)).mp asks)
      exact ⟨cause,block.hash,from_peer,tells,sendable.rising.le⟩
  · intro moved socket peer
    cases fate with
    | moved outcome returned status tip rises listed light =>
      rw [Turns.tip,tip]
      exact all outcome returned status block.hash listed socket peer
    | asked returned blockchain => exact absurd (congrArg (·.latest.hash) blockchain) moved
    | dropped returned blockchain => exact absurd (congrArg (·.latest.hash) blockchain) moved
  · intro target cause hash from_peer tells
    exact .inl ((about target cause from_peer).1 hash tells ▸ weighs)
  · intro target cause from_peer asks
    exact absurd asks ((about target cause from_peer).2 _)

theorem Fate.missing {result : Except Exn BlockOutcome × ChainManager} {outcome : BlockOutcome}
    (fate : Fate W n.chain block result) (returned : result.1 = .ok outcome) (needs : outcome.status = .NeedParent) :
    outcome = .needParent block := by
  cases fate with
  | moved other same status tip rises listed light =>
    obtain rfl := Except.ok.inj (returned.symm.trans same)
    rcases status with status | status
    · exact absurd (needs.symm.trans status) nofun
    · exact absurd (needs.symm.trans status) nofun
  | asked same blockchain => exact Except.ok.inj (returned.symm.trans same)
  | dropped all blockchain =>
    obtain rfl := all outcome returned
    cases needs

theorem announced_only {hashes : List HashBytes} {exclude : Option Nat} {target : Nat} {outgoing : Outgoing}
    (member : .sendMsg target outgoing ∈ hashes.flatMap (n.broadcastInv exclude .block)) :
    ∃ hash ∈ hashes, outgoing = .inv [⟨.block,hash⟩] := by
  obtain ⟨hash,there,sent⟩ := List.mem_flatMap.mp member
  obtain ⟨peer,-,same⟩ := List.mem_map.mp sent
  cases same
  exact ⟨hash,there,rfl⟩

/-- Every peer but the one excluded is told of every hash. -/
theorem announced_all {hashes : List HashBytes} {exclude : Option Nat} {hash : HashBytes} {target : Nat}
    (listed : hash ∈ hashes) (peer : target ∈ sockets n) (other : some target ≠ exclude) :
    .sendMsg target (.inv [⟨.block,hash⟩]) ∈ hashes.flatMap (n.broadcastInv exclude .block) := by
  obtain ⟨live,there,rfl⟩ := List.mem_map.mp peer
  refine mem_announced listed ?_
  simp only [targets,List.mem_filter,decide_eq_true_eq] at there ⊢
  exact ⟨there.1,other,there.2.2⟩

/-- What `handle_block` sends by the outcome. -/
theorem respond_spec {result : Except Exn BlockOutcome × ChainManager} {outcome : BlockOutcome}
    (fate : Fate W n.chain block result) (returned : result.1 = .ok outcome) {target : Nat} {outgoing : Outgoing}
    (member : .sendMsg target outgoing ∈ n.respond socket outcome) :
    (∃ hash ∈ outcome.toBroadcast, outgoing = .inv [⟨.block,hash⟩]) ∨
      outgoing = .getdata [⟨.block,block.prevHash⟩] ∧ target = socket := by
  rw [respond] at member
  cases status : outcome.status with
  | Accepted =>
    rw [status] at member
    exact .inl (announced_only member)
  | Reorged =>
    rw [status] at member
    exact .inl (announced_only member)
  | NeedParent =>
    obtain rfl := fate.missing returned status
    cases List.mem_singleton.mp member
    exact .inr ⟨rfl,rfl⟩
  | Rejected =>
    rw [status] at member
    cases member

theorem turned_block (abreast : Abreast P W n.chain) (type : message.type = .block)
    (idle : n.syncState.active = false) (readable : Readable P (Sendable P W) (fun _ => True) message)
    (weighs : ∀ block, Block.deserialize P message.payload = some block → Weighs P W n.chain reading block) (now : Nat) :
    Turned P W n (some (socket,message)) (n.handleBlock P socket message.payload reading now) := by
  have unasked : ∀ hash, ¬ Asks message hash := fun hash asks => absurd (type.symm.trans asks.type) nofun
  have told : ∀ {block hash}, Block.deserialize P message.payload = some block → Tells P message hash → block.hash = hash := by
    rintro block hash read (⟨items,other,-,-⟩ | ⟨other,-,there,same⟩)
    · exact absurd (type.symm.trans other) nofun
    · obtain rfl := Option.some.inj (read.symm.trans there)
      exact same
  cases handleBlock_cases P n socket message.payload reading now with
  | buffered syncState taken run =>
    rw [handleBlock_idle idle] at taken
    cases taken
  | unread unreadable run =>
    rw [run]
    refine turned_aside abreast rfl rfl rfl nofun fun _ _ same hash => ?_
    cases same
    refine ⟨?_,unasked hash⟩
    rintro (⟨items,other,-,-⟩ | ⟨block,-,there,-⟩)
    · exact absurd (type.symm.trans other) nofun
    · exact absurd (unreadable.symm.trans there) nofun
  | raised block chain e read submitted run =>
    have sendable := readable.block type block read
    have after : Abreast P W (n.chain.submitBlock P reading block).2 := abreast.submitBlock sendable (weighs block read)
    have fate := abreast.fate sendable reading
    have heavy : W block.hash ≤ _ := weighs block read
    rw [submitted] at after fate heavy
    rw [run]
    refine turned_submitted after sendable fate heavy nofun (fun _ returned => absurd returned nofun) ?_
    intro target cause same
    cases same
    exact ⟨fun hash => told read,unasked⟩
  | submitted block chain outcome read submitted run =>
    have sendable := readable.block type block read
    have after : Abreast P W (n.chain.submitBlock P reading block).2 := abreast.submitBlock sendable (weighs block read)
    have fate := abreast.fate sendable reading
    have heavy : W block.hash ≤ _ := weighs block read
    rw [submitted] at after fate heavy
    rw [run]
    refine turned_submitted after sendable fate heavy ?_ ?_ ?_
    · intro target outgoing member
      refine ⟨outcome,rfl,(respond_spec fate rfl member).imp_right fun asked => ⟨asked.1,message,?_,?_⟩⟩
      · rw [asked.2]
      · exact .sent block type read rfl
    · intro other returned status hash listed target peer
      obtain rfl := Except.ok.inj returned
      by_cases sender : target = socket
      · exact .inr ⟨message,by rw [sender],.sent block type read rfl⟩
      · have told : .sendMsg target (.inv [⟨.block,hash⟩]) ∈
            outcome.toBroadcast.flatMap (n.broadcastInv (some socket) .block) :=
          announced_all listed peer fun same => sender (Option.some.inj same)
        rcases status with status | status
        · exact .inl (by rwa [respond,status])
        · exact .inl (by rwa [respond,status])
    · intro target cause same
      cases same
      exact ⟨fun hash => told read,unasked⟩

theorem turned_mined (abreast : Abreast P W n.chain) (sendable : Sendable P W block)
    (weighs : Weighs P W n.chain reading block) : Turned P W n none (n.submitBlock P reading block) := by
  have after : Abreast P W (n.chain.submitBlock P reading block).2 := abreast.submitBlock sendable weighs
  have fate := abreast.fate sendable reading
  have heavy : W block.hash ≤ _ := weighs
  rcases submitted : n.chain.submitBlock P reading block with ⟨e | outcome,chain⟩
  all_goals rw [submitted] at after fate heavy
  · have run : n.submitBlock P reading block = ({ n with chain },[]) := by simp only [submitBlock,submitted]
    rw [run]
    exact turned_submitted after sendable fate heavy (by simp) (fun _ returned => absurd returned (by rintro ⟨⟩)) (by simp)
  · have run : n.submitBlock P reading block =
        ({ n with chain },outcome.toBroadcast.flatMap (n.broadcastInv none .block)) := by
      simp only [submitBlock,submitted]
    rw [run]
    refine turned_submitted after sendable fate heavy ?_ ?_ (by simp)
    · exact fun target outgoing member => ⟨outcome,rfl,.inl (announced_only member)⟩
    · intro other returned status hash listed target peer
      obtain rfl := Except.ok.inj returned
      exact .inl (announced_all listed peer (by simp))

/-- A message from a live peer. -/
theorem turned_received (abreast : Abreast P W n.chain) (idle : n.syncState.active = false)
    (peer : socket ∈ sockets n) (small : message.payload.length ≤ maxPayloadSize.toNat)
    (readable : Readable P (Sendable P W) (fun _ => True) message)
    (weighs : message.type = .block → ∀ block, Block.deserialize P message.payload = some block →
      Weighs P W n.chain reading block) (now : Nat) :
    Turned P W n (some (socket,message)) (n.react P (.received socket message reading now)) := by
  obtain ⟨live,rfl,handled⟩ := react_received (P := P) peer
  rw [handled]
  unfold handle
  split
  · case _ type => exact turned_inv abreast type small
  split
  · case _ type => exact turned_getdata abreast type
  split
  · case _ type => exact turned_block abreast type idle readable (weighs type) now
  split
  · case _ type => exact turned_tx abreast type
  split
  · case _ type => exact turned_getblocks abreast type
  case _ inv getdata block tx getblocks =>
  have other : ∀ target cause, some (live.socket,message) = some (target,cause) → ∀ hash,
      ¬ Tells P cause hash ∧ ¬ Asks cause hash := by
    intro target cause same hash
    cases same
    exact ⟨fun tells => tells.type.elim inv block,fun asks => getdata asks.type⟩
  split
  · refine turned_aside abreast rfl rfl rfl ?_ other
    intro target outgoing member hash
    cases List.mem_singleton.mp member
    exact ⟨fun tells => tells.type.elim nofun nofun,fun asks => absurd asks.type nofun⟩
  split
  · exact turned_aside abreast rfl rfl rfl nofun other
  · exact turned_aside abreast rfl rfl rfl nofun other

theorem turned_gossiped (abreast : Abreast P W n.chain) : Turned P W n none (n,n.gossipPeers) := by
  refine turned_aside abreast rfl rfl rfl ?_ nofun
  intro target outgoing member hash
  obtain ⟨peer,-,sent⟩ := List.mem_flatMap.mp member
  obtain ⟨gossip,-,same⟩ := List.mem_map.mp sent
  cases same
  exact ⟨fun tells => tells.type.elim nofun nofun,fun asks => absurd asks.type nofun⟩

theorem turned_pinged (abreast : Abreast P W n.chain) {elapsed : Nat → Nat}
    (recent : ∀ socket ∈ sockets n, elapsed socket < pingTimeout) : Turned P W n none (n.pingPeers elapsed) := by
  have peers : (n.node.peers.map fun entry =>
      if entry.peer.alive = true ∧ elapsed entry.peer.socket ≥ pingTimeout then entry.markDead else entry) = n.node.peers := by
    refine (List.map_congr_left fun entry member => if_neg ?_).trans (List.map_id _)
    rintro ⟨alive,late⟩
    have live : entry.peer ∈ n.targets none :=
      List.mem_filter.mpr ⟨List.mem_map_of_mem member,by simp [alive]⟩
    exact absurd (recent _ (List.mem_map_of_mem live)) (Nat.not_lt.mpr late)
  refine turned_aside abreast rfl rfl ?_ ?_ nofun
  · simp only [pingPeers,peers]
  · intro target outgoing member hash
    obtain ⟨peer,-,same⟩ := List.mem_map.mp member
    cases same
    exact ⟨fun tells => tells.type.elim nofun nofun,fun asks => absurd asks.type nofun⟩

theorem turned_cleaned (abreast : Abreast P W n.chain) (idle : n.syncState.active = false) (now : Nat) (wall : UInt64) :
    Turned P W n none (n.clean P now wall,[]) := by
  have run : n.clean P now wall = { n with node := n.node.clean } := by
    simp only [clean,finishSyncIfDue,SyncState.finishSyncIfDue,idle,if_true]
  have peers : ({ n with node := n.node.clean } : RunningNode).targets none = n.targets none := by
    simp only [targets,Node.clean,List.filter_map,List.filter_filter]
    refine congrArg _ (List.filter_congr fun entry _ => ?_)
    simp
  rw [run]
  exact turned_aside abreast rfl rfl (congrArg (List.map Peer.socket) peers) (by simp) (by simp)

/-- What a node does on its own while its connections last and it catches up with
    nobody. -/
inductive Chore (P : Primitives) (W : HashBytes → Nat) (n : RunningNode) : Input → Prop
  | mined (reading : Reading) (block : Block) (sendable : Sendable P W block) (weighs : Weighs P W n.chain reading block) :
    Chore P W n (.mined reading block)
  | paid (tx : Transaction) : Chore P W n (.paid tx)
  | cleaned (now : Nat) (wall : UInt64) : Chore P W n (.cleaned now wall)
  | pinged (elapsed : Nat → Nat) (recent : ∀ socket ∈ sockets n, elapsed socket < pingTimeout) :
    Chore P W n (.pinged elapsed)
  | gossiped : Chore P W n .gossiped
  | remembered (address : PeerAddress) (now : Nat) : Chore P W n (.remembered address now)

theorem Chore.turned {input : Input} (chore : Chore P W n input) (abreast : Abreast P W n.chain)
    (idle : n.syncState.active = false) : Turned P W n none (n.react P input) := by
  cases chore with
  | mined reading block sendable weighs => exact turned_mined abreast sendable weighs
  | paid tx => exact turned_paid abreast tx
  | cleaned now wall => exact turned_cleaned abreast idle now wall
  | pinged elapsed recent => exact turned_pinged abreast recent
  | gossiped => exact turned_gossiped abreast
  | remembered address now => exact turned_aside abreast rfl rfl rfl nofun nofun

end

end ForgeChain.Turns
