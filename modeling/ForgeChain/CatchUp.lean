import ForgeChain.Calls
import ForgeChain.Samples

/-!
The rules that a branch meets which a node adopts while it catches up. Its
blocks meet the contextual rules in the chain they end up in. The rules for a
block on its own, which `submit_block` enforces first of all, are not among the
checks of `adopt_branch`: the blocks that are added meet them exactly where the
answer's own blocks do.
-/
namespace ForgeChain.CatchUp
open Samples

/-- The rules for a block on its own: proof of work and coinbase. -/
structure ContextFree (block : Block) : Prop where
  target : meetsTarget block.hash block.difficulty = true
  coinbase : validateCoinbaseAmount block.transactions = true
  coinbaseFirst : ∀ tx ∈ block.transactions.drop 1, ¬ tx.isCoinbase

/-- Every block that the chain `added` has above the one that the answer attaches
    to in `chain`, which is the parent of the first block that `chain` lacks,
    satisfies a property of its height and itself. -/
def EachAdded (chain added : Blockchain) (blocks : List Block) (holds : Nat → Block → Prop) : Prop :=
  ∀ first rest height, blocks.dropWhile (fun block => chain.hasBlock block.hash) = first :: rest →
    chain.findHeight first.prevHash = some height →
    ∀ i block, height < i → added.blocks[i]? = some block → holds i block

/-- In every reachable state: whatever catching up adds to the chain meets the
    rules of `submit_block` if and only if the branch that is adopted meets the
    rules for a block on its own. -/
theorem added_rules_iff (P : Primitives) (mempoolMaxSize : Nat) (params : ConsensusParams) (storage : Option Storage)
    (calls : List Call) (now : UInt64) (blocks : List Block) :
    let m := Runs.run (ChainManager.after P) (.new P mempoolMaxSize params storage) calls
    ((m.adoptBranch P now blocks).1 = .ok true →
      EachAdded m.blockchain (m.adoptBranch P now blocks).2.blockchain blocks fun i block =>
        ContextFree block ∧ Fits P m.params (m.adoptBranch P now blocks).2.blockchain.blockAt now i block) ↔
    ∀ fork height, m.requestedFork P now blocks = .ok (some fork) → Adoptable P m fork height →
      ∀ block ∈ fork.blocks, ContextFree block := by
  intro m
  have regular : Regular P m := regular_run P mempoolMaxSize params storage calls
  constructor
  · intro added fork height requested able block member
    obtain ⟨m',reorg,run⟩ := adoptBranch_adopts regular requested able
    obtain ⟨base,request⟩ := Request.of_requested regular.sound requested
    obtain rfl : height = base := Option.some.inj (able.2.2.symm.trans request.grown.valid.found)
    obtain ⟨first,rest,-,unknown,attached,-⟩ := request.unknown
    obtain ⟨j,own⟩ := List.mem_iff_getElem?.mp member
    obtain ⟨work,there⟩ := Blockchain.reorganized_of_branch (regular.sound.below able.2.2) own
    rw [← reorg.blockchain] at there
    rw [run] at added
    have free := (added rfl first rest height unknown attached _ _ (by omega) there).1
    exact ⟨free.target,free.coinbase,free.coinbaseFirst⟩
  · intro meets adopted first rest height unknown attached i block above there
    cases adoptBranch_cases regular now blocks with
    | refused weak run =>
      rw [run] at adopted
      cases adopted
    | unverifiable fork requested e heavier bad run =>
      rw [run] at adopted
      cases adopted
    | reorganized fork requested base m' reorg ledger run =>
      rw [run] at there ⊢
      obtain ⟨base',request⟩ := Request.of_requested regular.sound requested
      obtain rfl : base = base' := Option.some.inj (reorg.found.symm.trans request.grown.valid.found)
      obtain ⟨first',rest',-,unknown',attached',-⟩ := request.unknown
      rw [unknown] at unknown'
      obtain ⟨rfl,rfl⟩ := List.cons.inj unknown'
      obtain rfl : height = base := Option.some.inj (attached.symm.trans attached')
      simp only [reorg.blockchain] at there ⊢
      refine ⟨?_,request.grown.fits_reorganized regular.sound above there⟩
      obtain ⟨j,plain,rfl,own,same⟩ :=
        Blockchain.branch_of_reorganized (regular.sound.below reorg.found) above there
      have free := meets fork height requested reorg.adoptable plain (List.mem_of_getElem? own)
      rw [same]
      exact ⟨free.target,free.coinbase,free.coinbaseFirst⟩

/-- Catching up adds a block without proof of work. -/
theorem unmined_added :
    Block.deserialize sample unmined.serialize = some unmined ∧
      (start.adoptBranch sample 2000 [unmined]).1 = .ok true ∧
      ¬ EachAdded start.blockchain (start.adoptBranch sample 2000 [unmined]).2.blockchain [unmined]
        fun _ block => ContextFree block := by
  refine ⟨by decide +kernel,by decide +kernel,?_⟩
  intro each
  have free := each unmined [] 0 (by decide +kernel) (by decide +kernel) 1 { unmined with cumulativeWork := 16 }
    (by decide) (by decide +kernel)
  have target := free.target
  revert target
  decide +kernel

end ForgeChain.CatchUp
