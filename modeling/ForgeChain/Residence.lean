import ForgeChain.RunningNode

/-!
Where a node keeps its blocks: in the chain or in the orphan pool. Nothing makes
these exclude each other. A block of the chain that comes in again is put into
the pool, and one that waits in the pool stays there when it extends the tip or
comes with an answer to a catch-up; where none of this happens, no block is in
both (`disjoint_run`). A block that cannot be traced back makes the node ask for
its parent, even if that is in the pool and something further down is missing
(`needParent_missing_iff`).
-/
namespace ForgeChain.Residence
open Runs Samples

/-- No hash is in the index of the chain and in the orphan pool. -/
def Disjoint (m : ChainManager) : Prop :=
  ∀ hash, m.blockchain.hasBlock hash = true → m.orphanPool.hasOrphan hash = false

/-- A call does not bring in a block that is kept already: what goes on the tip
    and what an answer adds to the chain is not in the pool, and what goes to the
    pool is not in the chain. -/
def BringsNew (P : Primitives) (m : ChainManager) : Call → Prop
  | .submitBlock reading block =>
    (OnTip P m reading.now block → m.orphanPool.hasOrphan block.hash = false) ∧
      (OffTip P m block → m.blockchain.hasBlock block.hash = false)
  | .adoptBranch _ blocks =>
    ∀ block ∈ blocks, m.blockchain.hasBlock block.hash = false → m.orphanPool.hasOrphan block.hash = false
  | .restoreBlock block => m.orphanPool.hasOrphan block.hash = false
  | .submitTransaction _ => True
  | .setBalance _ _ => True

section
variable {P : Primitives} {m m' : ChainManager} {chain : Blockchain} {pool : OrphanPool} {block : Block}
  {hash : HashBytes}

/-! ### The index and the pool after a change -/

theorem hasBlock_addBlock (chain : Blockchain) (block : Block) (hash : HashBytes) :
    (chain.addBlock block).hasBlock hash = true ↔ hash = block.hash ∨ chain.hasBlock hash = true := by
  unfold Blockchain.hasBlock Blockchain.addBlock
  by_cases same : hash = block.hash
  · subst same
    simp
  · simp [same,Finmap.lookup_insert_of_ne _ same]

theorem hasBlock_foldl_addBlock (chain : Blockchain) (blocks : List Block) (hash : HashBytes) :
    (blocks.foldl .addBlock chain).hasBlock hash = true ↔
      hash ∈ blocks.map Block.hash ∨ chain.hasBlock hash = true := by
  induction blocks generalizing chain with
  | nil => simp
  | cons block rest ih => rw [List.foldl_cons,ih,hasBlock_addBlock,List.map_cons,List.mem_cons,or_left_comm,or_assoc]

theorem hasBlock_of_cut {height : Nat} (there : (chain.cut height).hasBlock hash = true) :
    chain.hasBlock hash = true := by
  unfold Blockchain.hasBlock Blockchain.cut at there
  rw [Blockchain.lookup_foldl_erase] at there
  split at there
  · cases there
  · exact there

theorem hasOrphan_eq_false : pool.hasOrphan hash = false ↔ pool.findOrphan hash = none := by
  rw [OrphanPool.hasOrphan,OrphanPool.findOrphan,Option.map_eq_none_iff,Option.isSome_eq_false_iff,
    Option.isNone_iff_eq_none]

theorem hasOrphan_addOrphan (absent : pool.hasOrphan hash = false) (differs : hash ≠ block.hash) :
    (pool.addOrphan block).hasOrphan hash = false := by
  rw [hasOrphan_eq_false] at absent ⊢
  rw [OrphanPool.findOrphan_addOrphan,if_neg differs,absent,ite_self]

/-! ### Every call -/

theorem Disjoint.of_eq (disjoint : Disjoint m) (blockchain : m'.blockchain = m.blockchain)
    (orphanPool : m'.orphanPool = m.orphanPool) : Disjoint m' := by
  intro hash there
  rw [blockchain] at there
  rw [orphanPool]
  exact disjoint hash there

theorem Disjoint.addBlock (disjoint : Disjoint m) (absent : m.orphanPool.hasOrphan block.hash = false)
    (blockchain : m'.blockchain = m.blockchain.addBlock block) (orphanPool : m'.orphanPool = m.orphanPool) :
    Disjoint m' := by
  intro hash there
  rw [blockchain,hasBlock_addBlock] at there
  rw [orphanPool]
  rcases there with rfl | before
  · exact absent
  · exact disjoint hash before

theorem Disjoint.pooled (disjoint : Disjoint m) (absent : m.blockchain.hasBlock block.hash = false) :
    Disjoint (m.pooled block) := by
  intro hash there
  refine hasOrphan_addOrphan (disjoint hash there) ?_
  rintro rfl
  exact Bool.false_ne_true (absent.symm.trans there)

/-- A reorganization keeps the chain and the pool apart if the new blocks are not
    in the pool it leaves. -/
theorem Disjoint.reorganized (disjoint : Disjoint m) {fork : ForkChain} {height : Nat}
    (blockchain : m'.blockchain = fork.blocks.foldl .addBlock (m.blockchain.cut height))
    (fewer : ∀ hash, m.orphanPool.hasOrphan hash = false → m'.orphanPool.hasOrphan hash = false)
    (new : ∀ block ∈ fork.blocks, m'.orphanPool.hasOrphan block.hash = false) : Disjoint m' := by
  intro hash there
  rw [blockchain,hasBlock_foldl_addBlock] at there
  rcases there with added | kept
  · obtain ⟨block,member,rfl⟩ := List.mem_map.mp added
    exact new block member
  · exact fewer hash (disjoint hash (hasBlock_of_cut kept))

theorem disjoint_submitBlock (regular : Regular P m) (disjoint : Disjoint m) {reading : Reading}
    (brings : BringsNew P m (.submitBlock reading block)) : Disjoint (m.submitBlock P reading block).2 := by
  obtain ⟨onto,beside⟩ := brings
  cases submitBlock_cases regular reading block with
  | refused notOn notOff run => rwa [run]
  | accepted tip signed applied run =>
    rw [run]
    exact disjoint.addBlock (onto tip) rfl rfl
  | rolledBack tip before tx after split signed applied stops run =>
    rw [run]
    exact disjoint.of_eq rfl rfl
  | raised tip before tx after e split signed applied bad run =>
    rw [run]
    exact disjoint.of_eq rfl rfl
  | waiting off untraced run =>
    rw [run]
    exact disjoint.pooled (beside off)
  | outweighed off traced weak run =>
    rw [run]
    exact disjoint.pooled (beside off)
  | unverifiable off fork chosen e heavier bad run =>
    rw [run]
    exact disjoint.pooled (beside off)
  | reorganized off fork chosen height m' reorg ledger run =>
    rw [run]
    have left : ∀ hash, ((fork.blocks.map Block.hash).foldl .removeOrphan m'.orphanPool).hasOrphan hash = false ↔
        hash ∈ fork.blocks.map Block.hash ∨ (m.pooled block).orphanPool.hasOrphan hash = false := by
      intro hash
      rw [hasOrphan_eq_false,hasOrphan_eq_false,OrphanPool.findOrphan_foldl_removeOrphan,reorg.orphanPool]
      by_cases added : hash ∈ fork.blocks.map Block.hash
      · simp [added]
      · simp [added]
    exact (disjoint.pooled (beside off)).reorganized reorg.blockchain (fun hash absent => (left hash).mpr (.inr absent))
      (fun new member => (left new.hash).mpr (.inl (List.mem_map_of_mem member)))

theorem disjoint_adoptBranch (regular : Regular P m) (disjoint : Disjoint m) {now : UInt64} {blocks : List Block}
    (brings : BringsNew P m (.adoptBranch now blocks)) : Disjoint (m.adoptBranch P now blocks).2 := by
  cases adoptBranch_cases regular now blocks with
  | refused weak run => rwa [run]
  | unverifiable fork requested e heavier bad run => rwa [run]
  | reorganized fork requested height m' reorg ledger run =>
    rw [run]
    refine disjoint.reorganized reorg.blockchain (fun hash absent => by rwa [reorg.orphanPool]) fun block member => ?_
    obtain ⟨base,request⟩ := Request.of_requested regular.sound requested
    obtain ⟨first,rest,len,unknown,-,-,-,taken⟩ := request.unknown
    rw [taken,← unknown] at member
    have given : block ∈ blocks := (List.dropWhile_sublist _).subset (List.mem_of_mem_take member)
    rw [reorg.orphanPool]
    cases known : m.blockchain.hasBlock block.hash with
    | false => exact brings block given known
    | true => exact disjoint block.hash known

theorem disjoint_after (regular : Regular P m) (disjoint : Disjoint m) {call : Call} (brings : BringsNew P m call) :
    Disjoint (m.after P call) := by
  cases call with
  | submitBlock reading block => exact disjoint_submitBlock regular disjoint brings
  | submitTransaction tx => exact disjoint.of_eq rfl rfl
  | adoptBranch now blocks => exact disjoint_adoptBranch regular disjoint brings
  | restoreBlock block =>
    rw [ChainManager.after]
    cases restoreBlock_cases P m block with
    | restored signed applied run =>
      rw [run]
      exact disjoint.addBlock brings rfl rfl
    | raised before tx after e split applied bad run =>
      rw [run]
      exact disjoint.of_eq rfl rfl
    | rolledBack before tx after split applied stops run =>
      rw [run]
      exact disjoint.of_eq rfl rfl
  | setBalance address amount => exact disjoint.of_eq rfl rfl

end

/-- In every run in which no call brings in a block that is kept already, no
    block is in the chain and in the orphan pool. -/
theorem disjoint_run (P : Primitives) {mempoolMaxSize : Nat} {params : ConsensusParams} {storage : Option Storage}
    {calls : List Call}
    (brings : Along (ChainManager.after P) (BringsNew P) (.new P mempoolMaxSize params storage) calls) :
    Disjoint (run (ChainManager.after P) (.new P mempoolMaxSize params storage) calls) := by
  refine (brings.keeps (motive := fun m => Regular P m ∧ Disjoint m) (fun m call before meets => ?_) ⟨?_,?_⟩).2
  · exact ⟨regular_after before.1 call,disjoint_after before.1 before.2 meets⟩
  · exact regular_new P mempoolMaxSize params storage
  · intro hash there
    rfl

/-- A reorganization from one branch to another. -/
theorem disjoint_run_reorganized :
    let calls := [.submitBlock reading plainA,.submitBlock reading plainB,.submitBlock reading plainB2]
    Along (ChainManager.after sample) (BringsNew sample) start calls ∧
      (run (ChainManager.after sample) start calls).blockchain.hasBlock plainB2.hash = true ∧
      Disjoint (run (ChainManager.after sample) start calls) := by
  intro calls
  have brings : Along (ChainManager.after sample) (BringsNew sample) start calls :=
    ⟨⟨fun _ => by decide +kernel,fun _ => by decide +kernel⟩,⟨fun _ => by decide +kernel,fun _ => by decide +kernel⟩,
      ⟨fun _ => by decide +kernel,fun _ => by decide +kernel⟩,trivial⟩
  exact ⟨brings,by decide +kernel,disjoint_run sample brings⟩

/-- A block of the chain comes in again; a block waits in the pool for its parent
    and then comes in again on the tip; a block waits in the pool and then comes
    with the answer to a catch-up. Each is in the chain and in the pool. -/
theorem kept_twice :
    ¬ Disjoint (run (ChainManager.after sample) start
      [.submitBlock reading plainA,.submitBlock reading plainA2,.submitBlock reading plainA]) ∧
    ¬ Disjoint (run (ChainManager.after sample) start
      [.submitBlock reading plainA2,.submitBlock reading plainA,.submitBlock reading plainA2]) ∧
    ¬ Disjoint (run (ChainManager.after sample) start
      [.submitBlock reading plainB2,.adoptBranch 2000 [plainB,plainB2]]) := by
  refine ⟨fun disjoint => ?_,fun disjoint => ?_,fun disjoint => ?_⟩
  · exact absurd (disjoint plainA.hash (by decide +kernel)) (by decide +kernel)
  · exact absurd (disjoint plainA2.hash (by decide +kernel)) (by decide +kernel)
  · exact absurd (disjoint plainB2.hash (by decide +kernel)) (by decide +kernel)

/-! ### Missing parents -/

/-- The parent of a block is another block that is not in the pool, or that the
    block itself evicts from it. -/
def ParentMissing (pool : OrphanPool) (block : Block) : Prop :=
  block.prevHash ≠ block.hash ∧ (pool.hasOrphan block.prevHash = true → pool.Evicts block block.prevHash)

section
variable {m : ChainManager} {pool : OrphanPool} {block : Block}

theorem parentMissing_iff :
    ParentMissing pool block ↔ (pool.addOrphan block).hasOrphan block.prevHash = false := by
  rw [hasOrphan_eq_false,OrphanPool.findOrphan_addOrphan,ParentMissing,← Bool.not_eq_false,hasOrphan_eq_false]
  by_cases own : block.prevHash = block.hash
  · simp [own]
  · by_cases evicts : pool.Evicts block block.prevHash
    · simp [own,evicts]
    · simp [own,evicts]

/-- A branch that cannot be traced back has a parent that is not in the chain. -/
theorem absent_of_untraced (sound : m.blockchain.Sound)
    (untraced : buildForkChain m.blockchain pool block = none) : m.blockchain.hasBlock block.prevHash = false := by
  rw [← Bool.not_eq_true]
  intro there
  obtain ⟨height,found⟩ := Option.isSome_iff_exists.mp there
  obtain ⟨parent,at_height,-⟩ := sound _ _ found
  have inside : m.blockchain.find block.prevHash = some parent := Option.bind_eq_some_iff.mpr ⟨height,found,at_height⟩
  rw [buildForkChain,kMaxForkDepth,traceFork,inside] at untraced
  cases untraced

end

/-- The parent that `NeedParent` names, and that the node then asks for, is in
    neither the chain nor the pool exactly where it was not in the pool before,
    unless the new block evicts it. -/
theorem needParent_missing_iff (P : Primitives) (mempoolMaxSize : Nat) (params : ConsensusParams)
    (storage : Option Storage) (calls : List Call) (reading : Reading) (block : Block) {outcome : BlockOutcome}
    {m' : ChainManager}
    (submitted : (run (ChainManager.after P) (.new P mempoolMaxSize params storage) calls).submitBlock P reading block =
      (.ok outcome,m')) (needs : outcome.status = .NeedParent) :
    (∀ (n : RunningNode) (socket : Nat),
      n.respond socket outcome = [.sendMsg socket (.getdata [⟨.block,block.prevHash⟩])]) ∧
    ((∃ hash, outcome.missingParent = some hash ∧ m'.blockchain.hasBlock hash = false ∧
        m'.orphanPool.hasOrphan hash = false) ↔
      ParentMissing (run (ChainManager.after P) (.new P mempoolMaxSize params storage) calls).orphanPool block) := by
  have regular := regular_run P mempoolMaxSize params storage calls
  have told := submitBlock_status regular (congrArg Prod.fst submitted)
  rw [needs] at told
  obtain ⟨untraced,waits⟩ := told
  rw [waits] at submitted
  cases submitted
  refine ⟨fun n socket => rfl,?_⟩
  rw [parentMissing_iff]
  constructor
  · rintro ⟨hash,named,-,absent⟩
    obtain rfl := Option.some.inj named
    exact absent
  · intro absent
    exact ⟨block.prevHash,rfl,absent_of_untraced regular.sound untraced,absent⟩

/-- A block comes in before its parent. -/
theorem needParent_missing_iff_first :
    let m' := (start.submitBlock sample reading plainA2).2
    (start.submitBlock sample reading plainA2).1 = .ok (.needParent plainA2) ∧ ParentMissing start.orphanPool plainA2 ∧
      m'.blockchain.hasBlock plainA.hash = false ∧ m'.orphanPool.hasOrphan plainA.hash = false := by
  intro m'
  have needs : (start.submitBlock sample reading plainA2).1 = .ok (.needParent plainA2) := by decide +kernel
  have submitted : start.submitBlock sample reading plainA2 = (.ok (.needParent plainA2),m') := by
    rw [← needs]
  have missing : ParentMissing start.orphanPool plainA2 :=
    ⟨by decide +kernel,fun there => absurd there (by decide +kernel)⟩
  obtain ⟨hash,named,outside,absent⟩ :=
    (needParent_missing_iff sample 1000 testParams none [] reading plainA2 submitted rfl).2.mpr missing
  obtain rfl := Option.some.inj named
  exact ⟨needs,missing,outside,absent⟩

/-- A block waits in the pool for its own parent, and a child of it comes in: the
    node asks for the block that is in the pool. -/
theorem needParent_in_pool :
    let m := run (ChainManager.after sample) start [.submitBlock reading plainB2]
    (m.submitBlock sample reading forgedB3).1 = .ok ⟨.NeedParent,[],some plainB2.hash⟩ ∧
      (m.submitBlock sample reading forgedB3).2.orphanPool.hasOrphan plainB2.hash = true := by
  decide +kernel

end ForgeChain.Residence
