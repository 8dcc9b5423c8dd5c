import ForgeChain.Reorg
import ForgeChain.BlockTree

/-!
A fork block whose own path is valid and heavier than the chain, with
descendants in the orphan pool. `submit_block` weighs only the branches of the
fork tips behind the block, cut where the difficulty or a timestamp is wrong,
and hands the first of the heaviest to `try_reorg`. So the chain gets the work
of the block's own path exactly where that one branch has it and all of its
transactions are authentic (`work_reached_iff`). Unless the work wraps, the
branch has it, because it goes on with the block's own path (`unblocked_iff`).
-/
namespace ForgeChain.Descendants
open Tally Runs Ledger Reorg BlockTree Samples

/-- A fork block whose own path passes every rule and is heavier than the chain. -/
structure Worthy (P : Primitives) (m : ChainManager) (now : UInt64) (block : Block) (own : ForkChain)
    (height : Nat) : Prop where
  off : OffTip P m block
  traced : buildForkChain m.blockchain (m.pooled block).orphanPool block = some own
  valid : ValidBranch P m now own height
  proper : ∀ other ∈ own.blocks, Proper P other
  signed : ∀ tx ∈ transactionsOf own.blocks, tx.Authentic P
  applies : AllAccepted applyTransaction (replay (m.blockchain.blocks.take (height + 1))) (transactionsOf own.blocks)
  heavier : isForkHeavier m.blockchain own = true

/-- The branches of the fork tips that a walk from the block through the orphan
    pool ends at. -/
def tipBranches (P : Primitives) (m : ChainManager) (reading : Reading) (block : Block) : List ForkChain :=
  branches P (m.pooled block) reading.now (ChainManager.findForkTips (m.pooled block).orphanPool reading.walk block)

/-- Some fork tip is traced back to the chain, and the first of the heaviest
    branches has authentic transactions only and is no lighter than the block's
    own path. -/
def Unblocked (P : Primitives) (m : ChainManager) (reading : Reading) (block : Block) (own : ForkChain) : Prop :=
  ∃ fork, (tipBranches P m reading block).argmax (fun fork => (forkWork fork).toNat) = some fork ∧
    (∀ tx ∈ transactionsOf fork.blocks, tx.Authentic P) ∧ forkWork own ≤ forkWork fork

section
variable {P : Primitives} {m : ChainManager} {reading : Reading} {block : Block} {own fork : ForkChain} {height : Nat}

theorem chosen_iff (regular : Regular P m)
    (traced : buildForkChain m.blockchain (m.pooled block).orphanPool block = some own) :
    Chosen P m reading block fork ↔
      (tipBranches P m reading block).argmax (fun fork => (forkWork fork).toNat) = some fork := by
  have sound : (m.pooled block).blockchain.Sound := regular.sound
  rw [Chosen,bestFork_eq P reading.now sound,Except.ok.injEq]
  exact ⟨And.right,fun best => ⟨⟨own,traced⟩,best⟩⟩

/-! ### What the branches of the fork tips start with -/

/-- Behind a block, every trace through the pool comes back to the block and
    goes on as the block's own. -/
theorem trace_through {chain : Blockchain} {pool : OrphanPool} {walk : WalkOrder} {tip : Block} {left : Nat}
    {branch : List Block} (keyed : pool.Keyed) (apart : ∀ other ∈ pool.blocks, chain.find other.hash = none)
    (inside : block ∈ pool.blocks) (own_trace : buildForkChain chain pool block = some own)
    (below : Forest.Below (childrenIn pool walk) block tip)
    (run : traceFork chain pool left (tip :: branch) tip.prevHash = some fork) :
    fork.commonAncestor = own.commonAncestor ∧ own.blocks <+: fork.blocks := by
  induction below generalizing left branch with
  | refl =>
    obtain ⟨ancestor,path,blocks,own_blocks⟩ := traceFork_same run own_trace
    exact ⟨ancestor,branch,by rw [own_blocks,blocks]; simp⟩
  | @tail parent tip below is_child ih =>
    obtain ⟨-,parent_hash⟩ := OrphanPool.mem_childrenOf.mp is_child
    have pooled : parent ∈ pool.blocks := by
      rcases Relation.ReflTransGen.cases_tail below with rfl | ⟨earlier,-,child⟩
      · exact inside
      · exact (OrphanPool.mem_childrenOf.mp child).1
    cases left with
    | zero => cases run
    | succ left =>
      rw [parent_hash,traceFork] at run
      simp only [apart parent pooled,keyed.mem_blocks.mp pooled] at run
      exact ih run

/-- Where no block of the pool is in the chain, the branches of the fork tips
    go on with the block's own path. -/
theorem own_within (regular : Regular P m) (worthy : Worthy P m reading.now block own height)
    (apart : ∀ other ∈ (m.pooled block).orphanPool.blocks, m.blockchain.find other.hash = none)
    (member : fork ∈ tipBranches P m reading block) :
    fork.commonAncestor = own.commonAncestor ∧ own.blocks <+: fork.blocks := by
  have keyed : (m.pooled block).orphanPool.Keyed := regular.keyed.addOrphan block
  have sound : (m.pooled block).blockchain.Sound := regular.sound
  have inside : block ∈ (m.pooled block).orphanPool.blocks :=
    keyed.mem_blocks.mpr (OrphanPool.findOrphan_addOrphan_self _ _)
  obtain ⟨tip,is_tip,full,traced,cut⟩ := mem_branches.mp member
  obtain ⟨ancestor,rest,blocks⟩ :=
    trace_through keyed apart inside worthy.traced (below_of_findForkTips is_tip) traced
  have found : m.blockchain.findHeight full.commonAncestor.hash = some height := by
    rw [ancestor]
    exact worthy.valid.found
  have first : full.blocks.take own.blocks.length = own.blocks := by rw [← blocks,List.take_left]
  -- The own path is valid over the longer branch too, so the cut comes behind it.
  have some_block : 0 < own.blocks.length := by
    obtain ⟨path,own_blocks,-⟩ := traceFork_spec regular.sound keyed worthy.traced
    simp [own_blocks]
  obtain ⟨len,long,kept⟩ := truncate_keeps (P := P) sound full reading.now found some_block
    (by rw [← blocks]; simp) fun i other low there => by
      have own_there : own.blocks[i]? = some other := by rw [← first,List.getElem?_take_of_lt low,there]
      have same : SameBelow (height + 1 + i) (ChainManager.forkBlockAt m.blockchain (height + 1) full.blocks)
          (ChainManager.forkBlockAt m.blockchain (height + 1) (full.blocks.take own.blocks.length)) :=
            forkBlockAt_take low.le
      rw [first] at same
      exact (worthy.valid.fits i other own_there).congr same.symm
  rw [kept] at cut
  obtain rfl := Option.some.inj (Except.ok.inj cut)
  exact ⟨ancestor,List.prefix_take_iff.mpr ⟨⟨rest,blocks⟩,long⟩⟩

/-- If moreover no work wraps, only the signatures of the first of the heaviest
    branches can block the block's own path. -/
theorem unblocked_iff (regular : Regular P m) (worthy : Worthy P m reading.now block own height)
    (apart : ∀ other ∈ (m.pooled block).orphanPool.blocks, m.blockchain.find other.hash = none)
    (light : ∀ fork ∈ tipBranches P m reading block,
      fork.commonAncestor.cumulativeWork.toNat + pathWork fork.blocks < 2 ^ 64) :
    Unblocked P m reading block own ↔
      ∃ fork, (tipBranches P m reading block).argmax (fun fork => (forkWork fork).toNat) = some fork ∧
        ∀ tx ∈ transactionsOf fork.blocks, tx.Authentic P := by
  refine exists_congr fun fork => and_congr_right fun best => and_iff_left ?_
  have member := List.argmax_mem best
  obtain ⟨ancestor,rest,blocks⟩ := own_within regular worthy apart member
  have bound := light fork member
  have split : pathWork fork.blocks = pathWork own.blocks + pathWork rest := by rw [← blocks,pathWork_append]
  rw [UInt64.le_iff_toNat_le,forkWork,forkWork,foldl_work bound,foldl_work (by rw [← ancestor]; omega),ancestor]
  omega

theorem work_reached_of_regular (regular : Regular P m) (worthy : Worthy P m reading.now block own height) :
    forkWork own ≤ (m.submitBlock P reading block).2.blockchain.latest.cumulativeWork ↔
      Unblocked P m reading block own := by
  have heavier : m.blockchain.latest.cumulativeWork < forkWork own := of_decide_eq_true worthy.heavier
  -- With the chain unchanged the tip is lighter, so neither side holds.
  have unchanged : (∀ fork height, Chosen P m reading block fork → ¬ Adoptable P m fork height) →
      (forkWork own ≤ m.blockchain.latest.cumulativeWork ↔ Unblocked P m reading block own) := by
    intro weak
    refine ⟨fun reached => absurd heavier (UInt64.not_lt.mpr reached),?_⟩
    rintro ⟨fork,best,signed,no_lighter⟩
    have chosen := (chosen_iff regular worthy.traced).mpr best
    obtain ⟨height,grown,-⟩ := chosen.grown regular
    have heavy : isForkHeavier m.blockchain fork = true := decide_eq_true (UInt64.lt_of_lt_of_le heavier no_lighter)
    exact absurd ⟨heavy,signed,grown.valid.found⟩ (weak fork height chosen)
  cases submitBlock_cases regular reading block with
  | refused notOn notOff run => exact absurd worthy.off notOff
  | accepted tip signed applied run => exact absurd tip.parent worthy.off.parent
  | rolledBack tip before tx after split signed applied stops run => exact absurd tip.parent worthy.off.parent
  | raised tip before tx after e split signed applied bad run => exact absurd tip.parent worthy.off.parent
  | waiting off untraced run => exact absurd (untraced.symm.trans worthy.traced) (by simp)
  | outweighed off traced weak run =>
    rw [run]
    exact unchanged weak
  | unverifiable off fork chosen e heavy bad run =>
    rw [run]
    refine unchanged fun other height that able => ?_
    obtain rfl := chosen.unique that
    rw [checkSignatures_true.mpr able.2.1] at bad
    cases bad
  | reorganized off fork chosen height' m' reorg ledger run =>
    obtain ⟨height,grown,-⟩ := chosen.grown regular
    obtain rfl : height = height' := Option.some.inj (grown.valid.found.symm.trans reorg.found)
    have chain : m'.blockchain = fork.blocks.foldl .addBlock (m.blockchain.cut height) := reorg.blockchain
    rw [run,chain,work_reorganized grown.ancestor]
    constructor
    · intro reached
      exact ⟨fork,(chosen_iff regular worthy.traced).mp chosen,reorg.signed,reached⟩
    · rintro ⟨other,best,-,no_lighter⟩
      rwa [chosen.unique ((chosen_iff regular worthy.traced).mpr best)]

/-- In every reachable state, submitting a fork block with a valid and heavier
    path of its own brings the tip to the work of that path exactly where the
    descendants in the orphan pool do not block it. -/
theorem work_reached_iff {mempoolMaxSize : Nat} {params : ConsensusParams} {storage : Option Storage} {calls : List Call}
    (worthy : Worthy P (run (ChainManager.after P) (.new P mempoolMaxSize params storage) calls) reading.now block own height) :
    forkWork own ≤ ((run (ChainManager.after P) (.new P mempoolMaxSize params storage) calls).submitBlock P reading
        block).2.blockchain.latest.cumulativeWork ↔
      Unblocked P (run (ChainManager.after P) (.new P mempoolMaxSize params storage) calls) reading block own :=
  work_reached_of_regular (regular_run P mempoolMaxSize params storage calls) worthy

end

/-- Two siblings come, one of them on the chain. -/
def siblingRun : List Call := [.submitBlock reading plainA,.submitBlock reading plainB]

/-- The two blocks of the second branch. -/
def plainFork : ForkChain := ⟨[plainB,plainB2],Block.genesis sample⟩

theorem worthy_plainB2 (calls : List Call)
    (blocks : (run (ChainManager.after sample) start calls).blockchain = (submitAll start [plainA]).blockchain)
    (params : (run (ChainManager.after sample) start calls).params = testParams)
    (traced : buildForkChain (run (ChainManager.after sample) start calls).blockchain
      ((run (ChainManager.after sample) start calls).pooled plainB2).orphanPool plainB2 = some plainFork) :
    Worthy sample (run (ChainManager.after sample) start calls) 2000 plainB2 plainFork 0 := by
  refine ⟨⟨⟨by decide +kernel,by decide +kernel,by decide +kernel,by decide +kernel⟩,?_⟩,traced,⟨?_,?_⟩,?_,?_,?_,?_⟩
  · rw [blocks]
    decide +kernel
  · rw [blocks]
    decide +kernel
  · rw [blocks,params]
    rintro (_ | _ | i) block there
    · obtain rfl := Option.some.inj there
      exact ⟨by decide +kernel,by decide +kernel⟩
    · obtain rfl := Option.some.inj there
      exact ⟨by decide +kernel,by decide +kernel⟩
    · simp [plainFork] at there
  · rw [plainFork,List.forall_mem_cons,List.forall_mem_singleton]
    exact ⟨⟨by decide +kernel,by decide +kernel,by decide +kernel,by decide +kernel⟩,
      ⟨by decide +kernel,by decide +kernel,by decide +kernel,by decide +kernel⟩⟩
  · decide +kernel
  · rw [blocks]
    decide +kernel
  · rw [blocks]
    decide +kernel

theorem work_reached_plainB2 :
    forkWork plainFork ≤ ((run (ChainManager.after sample) start siblingRun).submitBlock sample reading
        plainB2).2.blockchain.latest.cumulativeWork ↔
      Unblocked sample (run (ChainManager.after sample) start siblingRun) reading plainB2 plainFork := by
  have worthy := worthy_plainB2 siblingRun (by decide +kernel) (by decide +kernel) (by decide +kernel)
  unfold start at worthy ⊢
  exact work_reached_iff worthy

/-- A block that nobody signed waits for the second branch, and its branch is
    the only one that is weighed. -/
theorem work_not_reached :
    Worthy sample (run (ChainManager.after sample) start (siblingRun ++ [.submitBlock reading forgedB3])) 2000 plainB2
        plainFork 0 ∧
      ((run (ChainManager.after sample) start (siblingRun ++ [.submitBlock reading forgedB3])).submitBlock sample reading
        plainB2).1 = .ok .rejected ∧
      ((run (ChainManager.after sample) start (siblingRun ++ [.submitBlock reading forgedB3])).submitBlock sample reading
        plainB2).2.blockchain.latest.cumulativeWork = 16 ∧ forkWork plainFork = 32 :=
  ⟨worthy_plainB2 _ (by decide +kernel) (by decide +kernel) (by decide +kernel),by decide +kernel,by decide +kernel,
    by decide +kernel⟩

end ForgeChain.Descendants
