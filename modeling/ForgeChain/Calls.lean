import ForgeChain.Branches
import ForgeChain.Runs

/-!
What the calls of the chain manager can do, said once for states whose index is
sound and whose chain is authentic (`Regular`), which every call preserves. In
such a state nothing raises but the check of a signature under a bad key.
-/
namespace ForgeChain
open Tally

section
variable {P : Primitives} {m m' : ChainManager} {reading : Reading} {block : Block}

/-- The chain starts with the genesis block, where the index points there is a
    block with the hash, the transactions of the chain are authentic, and the
    orphan pool keeps every block under its own hash. -/
structure Regular (P : Primitives) (m : ChainManager) : Prop where
  root : m.blockchain.blocks[0]? = some (Block.genesis P)
  sound : m.blockchain.Sound
  keyed : m.orphanPool.Keyed
  authentic : ∀ tx ∈ transactionsOf m.blockchain.blocks, tx.Authentic P

/-! ### A submitted block -/

/-- The rules for a block on its own that `submit_block` enforces. -/
structure Proper (P : Primitives) (block : Block) : Prop where
  target : meetsTarget block.hash block.difficulty = true
  coinbase : validateCoinbaseAmount block.transactions = true
  hash : block.hash = block.computeHash P
  coinbaseFirst : ∀ tx ∈ block.transactions.drop 1, ¬ tx.isCoinbase

/-- The work that a chain gives a block is none of these rules' business. -/
theorem Proper.stamp (proper : Proper P block) (work : UInt64) : Proper P { block with cumulativeWork := work } :=
  ⟨proper.target,proper.coinbase,proper.hash,proper.coinbaseFirst⟩

/-- A proper block on the tip that meets the contextual rules. -/
structure OnTip (P : Primitives) (m : ChainManager) (now : UInt64) (block : Block) : Prop where
  proper : Proper P block
  parent : block.prevHash = m.blockchain.latest.hash
  fits : Fits P m.params m.blockchain.blockAt now m.blockchain.size block

/-- A proper block that is not on the tip. -/
structure OffTip (P : Primitives) (m : ChainManager) (block : Block) : Prop where
  proper : Proper P block
  parent : block.prevHash ≠ m.blockchain.latest.hash

namespace ChainManager

/-- The state after a block on the tip is accepted. -/
def extended (P : Primitives) (m : ChainManager) (block : Block) : ChainManager :=
  { m with
    ledger := play Ledger.applyTransaction m.ledger block.transactions
    blockchain := m.blockchain.addBlock block
    mempool := block.transactions.foldl (·.removeTransaction P) m.mempool
    tipVersion := m.tipVersion + 1
    storage := m.storage.map (·.saveBlock block ((m.blockchain.addBlock block).size - 1)) }

/-- The state with a block in the orphan pool. -/
def pooled (m : ChainManager) (block : Block) : ChainManager := { m with orphanPool := m.orphanPool.addOrphan block }

end ChainManager

/-- The branch that a fork candidate makes the chain manager weigh against its
    chain. -/
def Chosen (P : Primitives) (m : ChainManager) (reading : Reading) (block : Block) (fork : ForkChain) : Prop :=
  (∃ own, buildForkChain m.blockchain (m.pooled block).orphanPool block = some own) ∧
    (m.pooled block).bestFork P reading.now
      (ChainManager.findForkTips (m.pooled block).orphanPool reading.walk block) none = .ok (some fork)

/-- What `submit_block` can do in a regular state. -/
inductive Submitted (P : Primitives) (m : ChainManager) (reading : Reading) (block : Block) : Prop
  | refused (notOn : ¬ OnTip P m reading.now block) (notOff : ¬ OffTip P m block)
      (run : m.submitBlock P reading block = (.ok .rejected,m))
  | accepted (tip : OnTip P m reading.now block) (signed : ∀ tx ∈ block.transactions, tx.Authentic P)
      (applied : AllAccepted Ledger.applyTransaction m.ledger block.transactions)
      (run : m.submitBlock P reading block = (.ok (.accepted block),m.extended P block))
  | rolledBack (tip : OnTip P m reading.now block) (before : List Transaction) (tx : Transaction)
      (after : List Transaction) (split : block.transactions = before ++ tx :: after)
      (signed : ∀ t ∈ before, t.Authentic P) (applied : AllAccepted Ledger.applyTransaction m.ledger before)
      (stops : Stops P (play Ledger.applyTransaction m.ledger before) tx)
      (run : m.submitBlock P reading block =
        (.ok .rejected,{ m with
          ledger := play Ledger.reverseTransaction (play Ledger.applyTransaction m.ledger before) before.reverse }))
  | raised (tip : OnTip P m reading.now block) (before : List Transaction) (tx : Transaction)
      (after : List Transaction) (e : Exn) (split : block.transactions = before ++ tx :: after)
      (signed : ∀ t ∈ before, t.Authentic P) (applied : AllAccepted Ledger.applyTransaction m.ledger before)
      (bad : checkSignature P tx = .error e)
      (run : m.submitBlock P reading block =
        (.error e,{ m with ledger := play Ledger.applyTransaction m.ledger before }))
  | waiting (off : OffTip P m block)
      (untraced : buildForkChain m.blockchain (m.pooled block).orphanPool block = none)
      (run : m.submitBlock P reading block = (.ok (.needParent block),m.pooled block))
  | outweighed (off : OffTip P m block)
      (traced : ∃ own, buildForkChain m.blockchain (m.pooled block).orphanPool block = some own)
      (weak : ∀ fork height, Chosen P m reading block fork → ¬ Adoptable P m fork height)
      (run : m.submitBlock P reading block = (.ok .rejected,m.pooled block))
  | unverifiable (off : OffTip P m block) (fork : ForkChain) (chosen : Chosen P m reading block fork) (e : Exn)
      (heavier : isForkHeavier m.blockchain fork = true)
      (bad : checkSignatures P (transactionsOf fork.blocks) = .error e)
      (run : m.submitBlock P reading block = (.error e,m.pooled block))
  | reorganized (off : OffTip P m block) (fork : ForkChain) (chosen : Chosen P m reading block fork) (height : Nat)
      (m' : ChainManager) (reorg : Reorganized P (m.pooled block) m' fork height)
      (ledger : m'.ledger = settledLedger P m.ledger (transactionsOf (m.blockchain.blocks.drop (height + 1)))
        (transactionsOf fork.blocks))
      (run : m.submitBlock P reading block =
        (.ok (.reorged (fork.blocks.map Block.hash)),
          { m' with orphanPool := (fork.blocks.map Block.hash).foldl .removeOrphan m'.orphanPool }))

theorem checkTip_eq (P : Primitives) (m : ChainManager) (now : UInt64) (block : Block) :
    ∃ fits, m.checkTip P now block = .ok fits ∧
      (fits = true ↔ Fits P m.params m.blockchain.blockAt now m.blockchain.size block) := by
  have there : ∀ i < m.blockchain.size, ∃ block, m.blockchain.blockAt i = .ok block :=
    fun _ below => Blockchain.blockAt_below below
  obtain ⟨valid,stamp⟩ := timestampIsValid_total m.params now block there
  obtain ⟨difficulty,bits⟩ := nextDifficulty_total P m.params there
  unfold ChainManager.checkTip Fits
  rw [stamp,bits]
  cases valid <;> simp [bind,Except.bind,eq_comm]

theorem classifyNewBlock_spec (P : Primitives) (chain : Blockchain) (block : Block) :
    (chain.classifyNewBlock P block = .Invalid ∧
      ¬ (block.hash = block.computeHash P ∧ ∀ tx ∈ block.transactions.drop 1, ¬ tx.isCoinbase)) ∨
    ((block.hash = block.computeHash P ∧ ∀ tx ∈ block.transactions.drop 1, ¬ tx.isCoinbase) ∧
      chain.classifyNewBlock P block = if block.prevHash = chain.latest.hash then .Valid else .ForkCandidate) := by
  unfold Blockchain.classifyNewBlock
  by_cases hash : block.hash = block.computeHash P
  · by_cases later : ∃ tx ∈ block.transactions.drop 1, tx.isCoinbase
    · left
      rw [if_neg (by simpa using hash),if_pos later]
      obtain ⟨tx,member,coinbase⟩ := later
      exact ⟨rfl,fun both => both.2 tx member coinbase⟩
    · right
      rw [if_neg (by simpa using hash),if_neg later,ite_not]
      exact ⟨⟨hash,fun tx member coinbase => later ⟨tx,member,coinbase⟩⟩,rfl⟩
  · left
    rw [if_pos hash]
    exact ⟨rfl,fun both => hash both.1⟩

theorem classify_of_proper (proper : Proper P block) :
    m.blockchain.classifyNewBlock P block =
      if block.prevHash = m.blockchain.latest.hash then .Valid else .ForkCandidate := by
  rcases classifyNewBlock_spec P m.blockchain block with ⟨-,wrong⟩ | ⟨-,class_eq⟩
  · exact absurd ⟨proper.hash,proper.coinbaseFirst⟩ wrong
  · exact class_eq

theorem submitBlock_onTip (tip : OnTip P m reading.now block) : m.submitBlock P reading block = m.extendTip P block := by
  have valid := classify_of_proper (m := m) tip.proper
  rw [if_pos tip.parent] at valid
  obtain ⟨fits,checked,fits_iff⟩ := checkTip_eq P m reading.now block
  rw [fits_iff.mpr tip.fits] at checked
  simp [ChainManager.submitBlock,tip.proper.target,tip.proper.coinbase,valid,checked]

theorem submitBlock_offTip (off : OffTip P m block) :
    m.submitBlock P reading block = m.handleForkCandidate P reading block := by
  have candidate := classify_of_proper (m := m) off.proper
  rw [if_neg off.parent] at candidate
  simp [ChainManager.submitBlock,off.proper.target,off.proper.coinbase,candidate]

theorem submitBlock_neither (notOn : ¬ OnTip P m reading.now block) (notOff : ¬ OffTip P m block) :
    m.submitBlock P reading block = (.ok .rejected,m) := by
  by_cases target : meetsTarget block.hash block.difficulty = true
  swap
  · simp [ChainManager.submitBlock,target]
  by_cases coinbase : validateCoinbaseAmount block.transactions = true
  swap
  · simp [ChainManager.submitBlock,target,coinbase]
  rcases classifyNewBlock_spec P m.blockchain block with ⟨invalid,-⟩ | ⟨⟨hash,first⟩,class_eq⟩
  · simp [ChainManager.submitBlock,target,coinbase,invalid]
  · have proper : Proper P block := ⟨target,coinbase,hash,first⟩
    have parent : block.prevHash = m.blockchain.latest.hash := by
      by_contra other
      exact notOff ⟨proper,other⟩
    rw [if_pos parent] at class_eq
    obtain ⟨fits,checked,fits_iff⟩ := checkTip_eq P m reading.now block
    cases fits with
    | false => simp [ChainManager.submitBlock,target,coinbase,class_eq,checked]
    | true => exact absurd ⟨proper,parent,fits_iff.mp rfl⟩ notOn

/-- A fork candidate that can be traced back makes the chain manager try the
    branch that is chosen. -/
theorem handleForkCandidate_chosen {fork : ForkChain} (chosen : Chosen P m reading block fork) :
    m.handleForkCandidate P reading block = (m.pooled block).adoptFork P fork := by
  obtain ⟨⟨own,traced⟩,best⟩ := chosen
  rw [ChainManager.handleForkCandidate]
  simp only [ChainManager.pooled] at traced best ⊢
  simp only [traced,best]

/-- Of what a reorganization leaves, a fork candidate only changes the orphan pool. -/
theorem adoptFork_leaves (P : Primitives) (m : ChainManager) (fork : ForkChain) :
    (m.adoptFork P fork).2.mempool = (m.tryReorg P fork).2.mempool ∧
      (m.adoptFork P fork).2.storage = (m.tryReorg P fork).2.storage := by
  unfold ChainManager.adoptFork
  split
  · case h_1 run => exact ⟨by rw [run],by rw [run]⟩
  · case h_2 run => exact ⟨by rw [run],by rw [run]⟩
  · case h_3 run => exact ⟨by rw [run],by rw [run]⟩

/-- A block on the tip is accepted if its transactions are authentic and apply. -/
theorem submitBlock_extends (tip : OnTip P m reading.now block) (signed : ∀ tx ∈ block.transactions, tx.Authentic P)
    (applied : AllAccepted Ledger.applyTransaction m.ledger block.transactions) :
    m.submitBlock P reading block = (.ok (.accepted block),m.extended P block) := by
  rw [submitBlock_onTip tip,ChainManager.extendTip,applyBlockToLedger,applyTransactions_all signed applied []]
  rfl

/-- Only one branch is chosen. -/
theorem Chosen.unique {fork other : ForkChain} (chosen : Chosen P m reading block fork)
    (that : Chosen P m reading block other) : fork = other := by
  have same := chosen.2
  rw [that.2] at same
  exact (Option.some.inj (Except.ok.inj same)).symm

theorem submitBlock_cases (regular : Regular P m) (reading : Reading) (block : Block) : Submitted P m reading block := by
  by_cases tip : OnTip P m reading.now block
  · rcases applyTransactions_cases (P := P) m.ledger [] block.transactions with
      ⟨signed,applied,ends⟩ | ⟨before,tx,after,split,signed,applied,⟨e,bad,ends⟩ | ⟨stops,ends⟩⟩
    · exact .accepted tip signed applied (submitBlock_extends tip signed applied)
    · exact .raised tip before tx after e split signed applied bad (by
        rw [submitBlock_onTip tip,ChainManager.extendTip,applyBlockToLedger,ends])
    · exact .rolledBack tip before tx after split signed applied stops (by
        rw [submitBlock_onTip tip,ChainManager.extendTip,applyBlockToLedger,ends,List.append_nil])
  by_cases off : OffTip P m block
  swap
  · exact .refused tip off (submitBlock_neither tip off)
  rcases traced : buildForkChain m.blockchain (m.pooled block).orphanPool block with _ | own
  · exact .waiting off traced (by
      rw [submitBlock_offTip off,ChainManager.handleForkCandidate]
      simp only [ChainManager.pooled] at traced
      rw [traced]
      rfl)
  rcases bestFork_spec P (m.pooled block) reading.now regular.sound
    (ChainManager.findForkTips (m.pooled block).orphanPool reading.walk block) with ⟨best,-⟩ | ⟨fork,best,-⟩
  · refine .outweighed off ⟨own,traced⟩ (fun fork height chosen => ?_) (by
      rw [submitBlock_offTip off,ChainManager.handleForkCandidate]
      simp only [ChainManager.pooled] at traced best ⊢
      simp only [traced,best])
    have := chosen.2
    rw [best] at this
    cases this
  · have chosen : Chosen P m reading block fork := ⟨⟨own,traced⟩,best⟩
    have adopt : m.submitBlock P reading block = (m.pooled block).adoptFork P fork := by
      rw [submitBlock_offTip off,handleForkCandidate_chosen chosen]
    cases tryReorg_cases P (m.pooled block) fork with
    | kept weak run =>
      refine .outweighed off ⟨own,traced⟩ (fun other height that => ?_) (by rw [adopt,ChainManager.adoptFork,run])
      obtain rfl := chosen.unique that
      exact weak height
    | raised e heavier bad run =>
      exact .unverifiable off fork chosen e heavier bad (by rw [adopt,ChainManager.adoptFork,run])
    | interrupted height m' e reorg bad run =>
      obtain ⟨m'',-,-,returned⟩ := Tried.adopts reorg.adoptable regular.authentic
      rw [run] at returned
      cases returned
    | adopted height m' reorg ledger run =>
      exact .reorganized off fork chosen height m' reorg ledger (by rw [adopt,ChainManager.adoptFork,run])

/-- What the status of an outcome tells of the block. -/
theorem submitBlock_status (regular : Regular P m) {outcome : BlockOutcome}
    (returned : (m.submitBlock P reading block).1 = .ok outcome) :
    match outcome.status with
    | .Accepted =>
      OnTip P m reading.now block ∧ (∀ tx ∈ block.transactions, tx.Authentic P) ∧
        AllAccepted Ledger.applyTransaction m.ledger block.transactions ∧
        m.submitBlock P reading block = (.ok (.accepted block),m.extended P block)
    | .Reorged => ∃ fork, Chosen P m reading block fork
    | .NeedParent =>
      buildForkChain m.blockchain (m.pooled block).orphanPool block = none ∧
        m.submitBlock P reading block = (.ok (.needParent block),m.pooled block)
    | .Rejected => outcome = .rejected := by
  cases submitBlock_cases regular reading block with
  | accepted tip signed applied run =>
    rw [run] at returned
    cases returned
    exact ⟨tip,signed,applied,run⟩
  | reorganized off fork chosen height m' reorg ledger run =>
    rw [run] at returned
    cases returned
    exact ⟨fork,chosen⟩
  | waiting off untraced run =>
    rw [run] at returned
    cases returned
    exact ⟨untraced,run⟩
  | refused notOn notOff run | rolledBack tip before tx after split signed applied stops run
  | outweighed off traced weak run =>
    rw [run] at returned
    cases returned
    rfl
  | raised tip before tx after e split signed applied bad run | unverifiable off fork chosen e heavier bad run =>
    rw [run] at returned
    cases returned

theorem Chosen.nonempty {fork : ForkChain} (regular : Regular P m) (chosen : Chosen P m reading block fork) :
    fork.blocks ≠ [] := by
  have best := chosen.2
  rcases bestFork_spec P (m.pooled block) reading.now regular.sound
    (ChainManager.findForkTips (m.pooled block).orphanPool reading.walk block) with
    ⟨none,-⟩ | ⟨other,run,⟨tip,-,full,-,cut⟩,-⟩
  · rw [best] at none
    cases none
  · rw [best] at run
    obtain rfl := Option.some.inj (Except.ok.inj run)
    exact truncate_nonempty cut

/-- The chosen branch grows from the chain, and its blocks are the submitted one
    or wait in the orphan pool. -/
theorem Chosen.grown {fork : ForkChain} (regular : Regular P m) (chosen : Chosen P m reading block fork) :
    ∃ height, Grown P m reading.now fork height ∧
      ∀ other ∈ fork.blocks, other = block ∨ m.orphanPool.findOrphan other.hash = some other := by
  have sound : (m.pooled block).blockchain.Sound := regular.sound
  have keyed : (m.pooled block).orphanPool.Keyed := regular.keyed.addOrphan block
  have before : ∀ other, (m.pooled block).orphanPool.findOrphan other.hash = some other →
      other = block ∨ m.orphanPool.findOrphan other.hash = some other :=
    fun other found => (OrphanPool.findOrphan_of_addOrphan found).imp_left And.right
  rcases bestFork_spec P (m.pooled block) reading.now sound
    (ChainManager.findForkTips (m.pooled block).orphanPool reading.walk block) with ⟨best,-⟩ | ⟨best,run,origin,-⟩
  · have := chosen.2
    rw [best] at this
    cases this
  · have same := chosen.2
    rw [run] at same
    obtain rfl := Option.some.inj (Except.ok.inj same)
    obtain ⟨tip,is_tip,candidate⟩ := origin
    obtain ⟨height,path,len,grown,blocks,-,-,inside⟩ := candidate.grown sound keyed
    refine ⟨height,⟨grown.ancestor,grown.linked,grown.valid.found,grown.valid.fits⟩,?_⟩
    intro other member
    rw [blocks] at member
    rcases List.mem_append.mp (List.mem_of_mem_take member) with earlier | last
    · exact before other (inside other earlier)
    · obtain rfl := List.mem_singleton.mp last
      rcases mem_findForkTips is_tip with rfl | pooled
      · exact .inl rfl
      · exact before other (keyed.mem_blocks.mp pooled)

/-! ### A requested branch -/

/-- What is left of an answer behind the blocks the chain has, cut behind its
    valid prefix, grows from the chain block at a height and is linked. -/
structure Request (P : Primitives) (m : ChainManager) (now : UInt64) (blocks : List Block) (fork : ForkChain)
    (height : Nat) : Prop where
  unknown : ∃ first rest len, blocks.dropWhile (fun block => m.blockchain.hasBlock block.hash) = first :: rest ∧
    m.blockchain.findHeight first.prevHash = some height ∧ 0 < len ∧ len ≤ (first :: rest).length ∧
    fork.blocks = (first :: rest).take len
  grown : Grown P m now fork height

theorem requestedFork_spec (sound : m.blockchain.Sound) (now : UInt64) (blocks : List Block) :
    m.requestedFork P now blocks = .ok none ∨
    ∃ fork height, m.requestedFork P now blocks = .ok (some fork) ∧ Request P m now blocks fork height := by
  rcases unknown : blocks.dropWhile (fun block => m.blockchain.hasBlock block.hash) with _ | ⟨first,rest⟩
  · exact .inl (by simp [ChainManager.requestedFork,unknown])
  · rcases found : m.blockchain.findHeight first.prevHash with _ | height
    · exact .inl (by simp [ChainManager.requestedFork,unknown,found])
    · obtain ⟨ancestor,there,hash⟩ := sound _ _ found
      by_cases chained : List.IsChain (fun parent block => block.prevHash = parent.hash) (first :: rest)
      swap
      · exact .inl (by simp [ChainManager.requestedFork,unknown,found,chained])
      have run : m.requestedFork P now blocks = m.truncate P ⟨first :: rest,ancestor⟩ now := by
        simp [ChainManager.requestedFork,unknown,found,chained,Blockchain.blockAt_eq_ok.mpr there,bind,Except.bind]
      obtain ⟨result,cut⟩ := truncate_total (P := P) sound ⟨first :: rest,ancestor⟩ now
      cases result with
      | none => exact .inl (run.trans cut)
      | some fork =>
        obtain ⟨height',len,valid,some_left,inside,rfl⟩ := truncate_valid cut
        have same : height' = height := by
          have := valid.found
          rw [hash,found] at this
          exact (Option.some.inj this).symm
        subst same
        refine .inr ⟨_,_,run.trans cut,⟨first,rest,len,unknown,found,some_left,inside,rfl⟩,there,?_,valid⟩
        rw [hash]
        exact (Blockchain.linked_of_isChain chained).take len

theorem Request.nonempty {now : UInt64} {blocks : List Block} {fork : ForkChain} {height : Nat}
    (request : Request P m now blocks fork height) : fork.blocks ≠ [] := by
  obtain ⟨first,rest,len,-,-,some_left,inside,taken⟩ := request.unknown
  refine List.length_pos_iff.mp ?_
  rw [taken,List.length_take]
  omega

theorem Request.of_requested {now : UInt64} {blocks : List Block} {fork : ForkChain} (sound : m.blockchain.Sound)
    (requested : m.requestedFork P now blocks = .ok (some fork)) : ∃ height, Request P m now blocks fork height := by
  rcases requestedFork_spec (P := P) sound now blocks with nothing | ⟨other,height,that,request⟩
  · rw [requested] at nothing
    cases nothing
  · rw [requested] at that
    obtain rfl := Option.some.inj (Except.ok.inj that)
    exact ⟨height,request⟩

theorem adoptBranch_state {now : UInt64} {blocks : List Block} {fork : ForkChain}
    (requested : m.requestedFork P now blocks = .ok (some fork)) :
    (m.adoptBranch P now blocks).2 = (m.tryReorg P fork).2 := by
  unfold ChainManager.adoptBranch
  rw [requested]
  dsimp only
  split
  · case h_1 run => rw [run]
  · case h_2 run => rw [run]

/-- What `adopt_branch` can do in a regular state. -/
inductive Requested (P : Primitives) (m : ChainManager) (now : UInt64) (blocks : List Block) : Prop
  | refused (weak : ∀ fork height, m.requestedFork P now blocks = .ok (some fork) → ¬ Adoptable P m fork height)
      (run : m.adoptBranch P now blocks = (.ok false,m))
  | unverifiable (fork : ForkChain) (requested : m.requestedFork P now blocks = .ok (some fork)) (e : Exn)
      (heavier : isForkHeavier m.blockchain fork = true)
      (bad : checkSignatures P (transactionsOf fork.blocks) = .error e) (run : m.adoptBranch P now blocks = (.error e,m))
  | reorganized (fork : ForkChain) (requested : m.requestedFork P now blocks = .ok (some fork)) (height : Nat)
      (m' : ChainManager) (reorg : Reorganized P m m' fork height)
      (ledger : m'.ledger = settledLedger P m.ledger (transactionsOf (m.blockchain.blocks.drop (height + 1)))
        (transactionsOf fork.blocks))
      (run : m.adoptBranch P now blocks = (.ok true,m'))

theorem adoptBranch_cases (regular : Regular P m) (now : UInt64) (blocks : List Block) : Requested P m now blocks := by
  rcases requestedFork_spec (P := P) regular.sound now blocks with nothing | ⟨fork,-,requested,-⟩
  · refine .refused (fun fork height requested => ?_) (by rw [ChainManager.adoptBranch,nothing])
    rw [nothing] at requested
    cases requested
  · cases tryReorg_cases P m fork with
    | kept weak run =>
      refine .refused (fun other height that => ?_) (by rw [ChainManager.adoptBranch,requested]; simp [run])
      rw [requested] at that
      obtain rfl := Option.some.inj (Except.ok.inj that)
      exact weak height
    | raised e heavier bad run =>
      exact .unverifiable fork requested e heavier bad (by rw [ChainManager.adoptBranch,requested]; simp [run])
    | interrupted height m' e reorg bad run =>
      obtain ⟨m'',-,-,returned⟩ := Tried.adopts reorg.adoptable regular.authentic
      rw [run] at returned
      cases returned
    | adopted height m' reorg ledger run =>
      exact .reorganized fork requested height m' reorg ledger
        (by rw [ChainManager.adoptBranch,requested]; simp [run])

/-- A branch that is requested and adoptable is adopted. -/
theorem adoptBranch_adopts {now : UInt64} {blocks : List Block} {fork : ForkChain} {height : Nat} (regular : Regular P m)
    (requested : m.requestedFork P now blocks = .ok (some fork)) (able : Adoptable P m fork height) :
    ∃ m', Reorganized P m m' fork height ∧ m.adoptBranch P now blocks = (.ok true,m') := by
  obtain ⟨m',reorg,-,run⟩ := Tried.adopts able regular.authentic
  exact ⟨m',reorg,by rw [ChainManager.adoptBranch,requested]; simp [run]⟩

/-! ### `restore_block` -/

/-- What `restore_block` can do. -/
inductive Restored (P : Primitives) (m : ChainManager) (block : Block) : Prop
  | restored (signed : ∀ tx ∈ block.transactions, tx.Authentic P)
      (applied : AllAccepted Ledger.applyTransaction m.ledger block.transactions)
      (run : m.restoreBlock P block = (.ok true,{ m with
        ledger := play Ledger.applyTransaction m.ledger block.transactions
        blockchain := m.blockchain.addBlock block
        tipVersion := m.tipVersion + 1 }))
  | raised (before : List Transaction) (tx : Transaction) (after : List Transaction) (e : Exn)
      (split : block.transactions = before ++ tx :: after)
      (applied : AllAccepted Ledger.applyTransaction m.ledger before) (bad : checkSignature P tx = .error e)
      (run : m.restoreBlock P block = (.error e,{ m with ledger := play Ledger.applyTransaction m.ledger before }))
  | rolledBack (before : List Transaction) (tx : Transaction) (after : List Transaction)
      (split : block.transactions = before ++ tx :: after)
      (applied : AllAccepted Ledger.applyTransaction m.ledger before)
      (stops : Stops P (play Ledger.applyTransaction m.ledger before) tx)
      (run : m.restoreBlock P block = (.ok false,{ m with
        ledger := play Ledger.reverseTransaction (play Ledger.applyTransaction m.ledger before) before.reverse }))

theorem restoreBlock_cases (P : Primitives) (m : ChainManager) (block : Block) : Restored P m block := by
  rcases applyTransactions_cases (P := P) m.ledger [] block.transactions with
    ⟨signed,applied,ends⟩ | ⟨before,tx,after,split,-,applied,⟨e,bad,ends⟩ | ⟨stops,ends⟩⟩
  · exact .restored signed applied (by rw [ChainManager.restoreBlock,applyBlockToLedger,ends])
  · exact .raised before tx after e split applied bad (by rw [ChainManager.restoreBlock,applyBlockToLedger,ends])
  · rw [List.append_nil] at ends
    exact .rolledBack before tx after split applied stops (by rw [ChainManager.restoreBlock,applyBlockToLedger,ends])

/-! ### Any call -/

/-- A call that changes a chain manager. -/
inductive Call where
  | submitBlock (reading : Reading) (block : Block)
  | submitTransaction (tx : Transaction)
  | adoptBranch (now : UInt64) (blocks : List Block)
  | restoreBlock (block : Block)
  | setBalance (address : Bytes) (amount : UInt64)

/-- The state that a call leaves behind, whether it returns or raises. -/
def ChainManager.after (P : Primitives) (m : ChainManager) : Call → ChainManager
  | .submitBlock reading block => (m.submitBlock P reading block).2
  | .submitTransaction tx => (m.submitTransaction P tx).2
  | .adoptBranch now blocks => (m.adoptBranch P now blocks).2
  | .restoreBlock block => (m.restoreBlock P block).2
  | .setBalance address amount => m.setBalance address amount

/-- The block that a call applies to the ledger. -/
def Applies (P : Primitives) (m : ChainManager) : Call → Block → Prop
  | .submitBlock reading submitted, block => submitted = block ∧ OnTip P m reading.now block
  | .restoreBlock restored, block => restored = block
  | _, _ => False

/-- The branch that a call offers for a reorganization. -/
def Offers (P : Primitives) (m : ChainManager) : Call → ForkChain → Prop
  | .submitBlock reading block, fork => OffTip P m block ∧ Chosen P m reading block fork
  | .adoptBranch now blocks, fork => m.requestedFork P now blocks = .ok (some fork)
  | _, _ => False

/-- What a call can do to the chain and the ledger of a regular state. -/
inductive Change (P : Primitives) (m : ChainManager) (call : Call) (m' : ChainManager) : Prop
  | kept (blockchain : m'.blockchain = m.blockchain) (ledger : m'.ledger = m.ledger)
  | extended (block : Block) (applies : Applies P m call block) (signed : ∀ tx ∈ block.transactions, tx.Authentic P)
      (applied : AllAccepted Ledger.applyTransaction m.ledger block.transactions)
      (blockchain : m'.blockchain = m.blockchain.addBlock block)
      (ledger : m'.ledger = play Ledger.applyTransaction m.ledger block.transactions)
  | rolledBack (block : Block) (applies : Applies P m call block) (before : List Transaction) (tx : Transaction)
      (after : List Transaction) (split : block.transactions = before ++ tx :: after)
      (applied : AllAccepted Ledger.applyTransaction m.ledger before)
      (stops : Stops P (play Ledger.applyTransaction m.ledger before) tx) (blockchain : m'.blockchain = m.blockchain)
      (ledger : m'.ledger =
        play Ledger.reverseTransaction (play Ledger.applyTransaction m.ledger before) before.reverse)
  | raised (block : Block) (applies : Applies P m call block) (before : List Transaction) (tx : Transaction)
      (after : List Transaction) (split : block.transactions = before ++ tx :: after)
      (applied : AllAccepted Ledger.applyTransaction m.ledger before) (bad : tx.BadKey P)
      (blockchain : m'.blockchain = m.blockchain) (ledger : m'.ledger = play Ledger.applyTransaction m.ledger before)
  | reorganized (fork : ForkChain) (offers : Offers P m call fork) (height : Nat) (able : Adoptable P m fork height)
      (blockchain : m'.blockchain = fork.blocks.foldl .addBlock (m.blockchain.cut height))
      (ledger : m'.ledger = settledLedger P m.ledger (transactionsOf (m.blockchain.blocks.drop (height + 1)))
        (transactionsOf fork.blocks))
  | balanceSet (address : Bytes) (amount : UInt64) (call_eq : call = .setBalance address amount)
      (blockchain : m'.blockchain = m.blockchain) (ledger : m'.ledger = m.ledger.setBalance address amount)

theorem after_change (regular : Regular P m) (call : Call) : Change P m call (m.after P call) := by
  cases call with
  | submitBlock reading block =>
    cases submitBlock_cases regular reading block with
    | refused notOn notOff run => exact .kept (by simp [ChainManager.after,run]) (by simp [ChainManager.after,run])
    | accepted tip signed applied run =>
      exact .extended block ⟨rfl,tip⟩ signed applied (by rw [ChainManager.after,run]; rfl)
        (by rw [ChainManager.after,run]; rfl)
    | rolledBack tip before tx after split signed applied stops run =>
      exact .rolledBack block ⟨rfl,tip⟩ before tx after split applied stops (by rw [ChainManager.after,run])
        (by rw [ChainManager.after,run])
    | raised tip before tx after e split signed applied bad run =>
      exact .raised block ⟨rfl,tip⟩ before tx after split applied (checkSignature_error.mp ⟨e,bad⟩)
        (by rw [ChainManager.after,run]) (by rw [ChainManager.after,run])
    | waiting off untraced run =>
      exact .kept (by rw [ChainManager.after,run]; rfl) (by rw [ChainManager.after,run]; rfl)
    | outweighed off traced weak run =>
      exact .kept (by rw [ChainManager.after,run]; rfl) (by rw [ChainManager.after,run]; rfl)
    | unverifiable off fork chosen e heavier bad run =>
      exact .kept (by rw [ChainManager.after,run]; rfl) (by rw [ChainManager.after,run]; rfl)
    | reorganized off fork chosen height m' reorg ledger run =>
      exact .reorganized fork ⟨off,chosen⟩ height reorg.adoptable
        (by rw [ChainManager.after,run]; exact reorg.blockchain) (by rw [ChainManager.after,run]; exact ledger)
  | submitTransaction tx => exact .kept rfl rfl
  | adoptBranch now blocks =>
    cases adoptBranch_cases regular now blocks with
    | refused weak run => exact .kept (by rw [ChainManager.after,run]) (by rw [ChainManager.after,run])
    | unverifiable fork requested e heavier bad run =>
      exact .kept (by rw [ChainManager.after,run]) (by rw [ChainManager.after,run])
    | reorganized fork requested height m' reorg ledger run =>
      exact .reorganized fork requested height reorg.adoptable (by rw [ChainManager.after,run]; exact reorg.blockchain)
        (by rw [ChainManager.after,run]; exact ledger)
  | restoreBlock block =>
    cases restoreBlock_cases P m block with
    | restored signed applied run =>
      exact .extended block rfl signed applied (by rw [ChainManager.after,run]) (by rw [ChainManager.after,run])
    | raised before tx after e split applied bad run =>
      exact .raised block rfl before tx after split applied (checkSignature_error.mp ⟨e,bad⟩)
        (by rw [ChainManager.after,run]) (by rw [ChainManager.after,run])
    | rolledBack before tx after split applied stops run =>
      exact .rolledBack block rfl before tx after split applied stops (by rw [ChainManager.after,run])
        (by rw [ChainManager.after,run])
  | setBalance address amount => exact .balanceSet address amount rfl rfl rfl

theorem transactionsOf_append (left right : List Block) :
    transactionsOf (left ++ right) = transactionsOf left ++ transactionsOf right := by
  simp [transactionsOf]

theorem transactionsOf_singleton (block : Block) : transactionsOf [block] = block.transactions := by
  simp [transactionsOf]

theorem transactionsOf_stamp (work : UInt64) (blocks : List Block) :
    transactionsOf (Blockchain.stamp work blocks) = transactionsOf blocks := by
  rw [transactionsOf,transactionsOf,List.flatMap_def,List.flatMap_def,Blockchain.stamp_map (fun _ _ => rfl)]

theorem transactionsOf_addBlock (chain : Blockchain) (block : Block) :
    transactionsOf (chain.addBlock block).blocks = transactionsOf chain.blocks ++ block.transactions := by
  rw [Blockchain.addBlock,transactionsOf_append]
  simp [transactionsOf]

/-- The transactions of a chain that was reorganized. -/
theorem transactionsOf_reorganized (chain : Blockchain) (height : Nat) (blocks : List Block) :
    transactionsOf (blocks.foldl .addBlock (chain.cut height)).blocks =
      transactionsOf (chain.blocks.take (height + 1)) ++ transactionsOf blocks := by
  rw [Blockchain.blocks_foldl_addBlock,transactionsOf_append,transactionsOf_stamp]
  rfl

theorem mem_transactionsOf_take {blocks : List Block} {len : Nat} {tx : Transaction}
    (member : tx ∈ transactionsOf (blocks.take len)) : tx ∈ transactionsOf blocks := by
  rw [← List.take_append_drop len blocks,transactionsOf_append]
  exact List.mem_append_left _ member

/-- The genesis block has no transactions. -/
theorem Regular.transactionsOf_drop (regular : Regular P m) :
    transactionsOf (m.blockchain.blocks.drop 1) = transactionsOf m.blockchain.blocks := by
  have root := regular.root
  cases blocks : m.blockchain.blocks with
  | nil => rfl
  | cons first rest =>
    rw [blocks] at root
    obtain rfl := Option.some.inj root
    rfl

theorem regular_new (P : Primitives) (mempoolMaxSize : Nat) (params : ConsensusParams) (storage : Option Storage) :
    Regular P (.new P mempoolMaxSize params storage) :=
  ⟨rfl,Blockchain.sound_new P,OrphanPool.keyed_new _,
    by simp [ChainManager.new,Blockchain.new,transactionsOf,Block.genesis,Block.make]⟩

/-- What a call leaves in the orphan pool was there before or is the proper
    block that it submits. -/
theorem findOrphan_after (regular : Regular P m) {call : Call} {hash : HashBytes} {other : Block}
    (found : (m.after P call).orphanPool.findOrphan hash = some other) :
    m.orphanPool.findOrphan hash = some other ∨
      ∃ reading, call = .submitBlock reading other ∧ hash = other.hash ∧ Proper P other := by
  cases call with
  | submitBlock reading block =>
    have added : Proper P block → (m.pooled block).orphanPool.findOrphan hash = some other →
        m.orphanPool.findOrphan hash = some other ∨
          ∃ r, Call.submitBlock reading block = .submitBlock r other ∧ hash = other.hash ∧ Proper P other := by
      intro proper there
      rcases OrphanPool.findOrphan_of_addOrphan there with ⟨rfl,rfl⟩ | before
      · exact .inr ⟨reading,rfl,rfl,proper⟩
      · exact .inl before
    rw [ChainManager.after] at found
    cases submitBlock_cases regular reading block with
    | refused notOn notOff run => exact .inl (by rwa [run] at found)
    | accepted tip signed applied run => exact .inl (by rwa [run] at found)
    | rolledBack tip before tx after split signed applied stops run => exact .inl (by rwa [run] at found)
    | raised tip before tx after e split signed applied bad run => exact .inl (by rwa [run] at found)
    | waiting off untraced run => exact added off.proper (by rwa [run] at found)
    | outweighed off traced weak run => exact added off.proper (by rwa [run] at found)
    | unverifiable off fork chosen e heavier bad run => exact added off.proper (by rwa [run] at found)
    | reorganized off fork chosen height m' reorg ledger run =>
      rw [run] at found
      simp only [OrphanPool.findOrphan_foldl_removeOrphan,reorg.orphanPool] at found
      split at found
      · cases found
      · exact added off.proper found
  | submitTransaction tx => exact .inl found
  | adoptBranch now blocks =>
    rw [ChainManager.after] at found
    cases adoptBranch_cases regular now blocks with
    | refused weak run => exact .inl (by rwa [run] at found)
    | unverifiable fork requested e heavier bad run => exact .inl (by rwa [run] at found)
    | reorganized fork requested height m' reorg ledger run =>
      rw [run] at found
      exact .inl (by rwa [← reorg.orphanPool])
  | restoreBlock block =>
    rw [ChainManager.after] at found
    cases restoreBlock_cases P m block with
    | restored signed applied run => exact .inl (by rwa [run] at found)
    | raised before tx after e split applied bad run => exact .inl (by rwa [run] at found)
    | rolledBack before tx after split applied stops run => exact .inl (by rwa [run] at found)
  | setBalance address amount => exact .inl found

/-- The consensus parameters are fixed. -/
theorem params_after (regular : Regular P m) (call : Call) : (m.after P call).params = m.params := by
  cases call with
  | submitBlock reading block =>
    rw [ChainManager.after]
    cases submitBlock_cases regular reading block with
    | refused notOn notOff run => rw [run]
    | accepted tip signed applied run => rw [run]; rfl
    | rolledBack tip before tx after split signed applied stops run => rw [run]
    | raised tip before tx after e split signed applied bad run => rw [run]
    | waiting off untraced run => rw [run]; rfl
    | outweighed off traced weak run => rw [run]; rfl
    | unverifiable off fork chosen e heavier bad run => rw [run]; rfl
    | reorganized off fork chosen height m' reorg ledger run => rw [run]; exact reorg.params
  | submitTransaction tx => rfl
  | adoptBranch now blocks =>
    rw [ChainManager.after]
    cases adoptBranch_cases regular now blocks with
    | refused weak run => rw [run]
    | unverifiable fork requested e heavier bad run => rw [run]
    | reorganized fork requested height m' reorg ledger run => rw [run]; exact reorg.params
  | restoreBlock block =>
    rw [ChainManager.after]
    cases restoreBlock_cases P m block with
    | restored signed applied run => rw [run]
    | raised before tx after e split applied bad run => rw [run]
    | rolledBack before tx after split applied stops run => rw [run]
  | setBalance address amount => rfl

theorem keyed_after (regular : Regular P m) (call : Call) : (m.after P call).orphanPool.Keyed := by
  intro hash block found
  rcases findOrphan_after regular found with before | ⟨reading,-,same,-⟩
  · exact regular.keyed hash block before
  · exact same.symm

theorem regular_after (regular : Regular P m) (call : Call) : Regular P (m.after P call) := by
  have change := after_change regular call
  have keyed := keyed_after regular call
  obtain ⟨root,sound,-,authentic⟩ := regular
  cases change with
  | kept blockchain ledger => exact ⟨blockchain ▸ root,blockchain ▸ sound,keyed,blockchain ▸ authentic⟩
  | extended block applies signed applied blockchain ledger =>
    refine ⟨?_,blockchain ▸ sound.addBlock block,keyed,?_⟩
    · rw [blockchain,Blockchain.addBlock,List.getElem?_append_left m.blockchain.size_pos,root]
    · rw [blockchain,transactionsOf_addBlock]
      exact fun tx member => (List.mem_append.mp member).elim (authentic tx) (signed tx)
  | rolledBack block applies before tx after split applied stops blockchain ledger =>
    exact ⟨blockchain ▸ root,blockchain ▸ sound,keyed,blockchain ▸ authentic⟩
  | raised block applies before tx after split applied bad blockchain ledger =>
    exact ⟨blockchain ▸ root,blockchain ▸ sound,keyed,blockchain ▸ authentic⟩
  | reorganized fork offers height able blockchain ledger =>
    refine ⟨?_,blockchain ▸ (sound.cut height).foldl_addBlock fork.blocks,keyed,?_⟩
    · rw [blockchain,Blockchain.blocks_foldl_addBlock,List.getElem?_append_left (Blockchain.size_pos _),Blockchain.cut,
        List.getElem?_take_of_lt (Nat.succ_pos height),root]
    · rw [blockchain,transactionsOf_reorganized]
      intro tx member
      exact (List.mem_append.mp member).elim (fun old => authentic tx (mem_transactionsOf_take old)) (able.2.1 tx)
  | balanceSet address amount call_eq blockchain ledger =>
    exact ⟨blockchain ▸ root,blockchain ▸ sound,keyed,blockchain ▸ authentic⟩

/-- Every state that calls reach from a new chain manager is regular. -/
theorem regular_run (P : Primitives) (mempoolMaxSize : Nat) (params : ConsensusParams) (storage : Option Storage)
    (calls : List Call) : Regular P (Runs.run (ChainManager.after P) (.new P mempoolMaxSize params storage) calls) :=
  Runs.run_keeps (motive := Regular P) (fun _ call regular => regular_after regular call) calls
    (regular_new P mempoolMaxSize params storage)

end
end ForgeChain
