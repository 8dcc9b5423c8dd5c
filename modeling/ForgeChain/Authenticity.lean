import ForgeChain.Calls

/-!
The transactions that count. Whatever the calls were, the chain holds authentic
transactions only (`Regular`), and the mempool holds transactions with a valid
signature: they come in through `add_transaction`, whether they are submitted or
put back by a reorganization, and blocks only take them out.
-/
namespace ForgeChain

section
variable {P : Primitives} {m : ChainManager} {tx : Transaction}

/-- What adding and removing preserve of the mempool, every call preserves. -/
theorem mempool_after {holds : Mempool → Prop} (kept : Mempool.Kept P holds) (regular : Regular P m) (call : Call)
    (before : holds m.mempool) : holds (m.after P call).mempool := by
  cases call with
  | submitBlock reading block =>
    rw [ChainManager.after]
    cases submitBlock_cases regular reading block with
    | refused notOn notOff run => rwa [run]
    | accepted tip signed applied run =>
      rw [run]
      exact kept.foldl_removeTransaction block.transactions before
    | rolledBack tip before tx after split signed applied stops run => rwa [run]
    | raised tip before tx after e split signed applied bad run => rwa [run]
    | waiting off untraced run => rwa [run]
    | outweighed off traced weak run => rwa [run]
    | unverifiable off fork chosen e heavier bad run => rwa [run]
    | reorganized off fork chosen height m' reorg ledger run =>
      rw [submitBlock_offTip off,handleForkCandidate_chosen chosen,(adoptFork_leaves P _ fork).1]
      exact tryReorg_keeps kept fork before
  | submitTransaction tx => exact kept.added m.mempool tx before
  | adoptBranch now blocks =>
    rw [ChainManager.after]
    cases adoptBranch_cases regular now blocks with
    | refused weak run => rwa [run]
    | unverifiable fork requested e heavier bad run => rwa [run]
    | reorganized fork requested height m' reorg ledger run =>
      rw [adoptBranch_state requested]
      exact tryReorg_keeps kept fork before
  | restoreBlock block =>
    rw [ChainManager.after]
    cases restoreBlock_cases P m block with
    | restored signed applied run => rwa [run]
    | raised before tx after e split applied bad run => rwa [run]
    | rolledBack before tx after split applied stops run => rwa [run]
  | setBalance address amount => exact before

theorem mempool_run {holds : Mempool → Prop} (kept : Mempool.Kept P holds) {mempoolMaxSize : Nat}
    (params : ConsensusParams) (storage : Option Storage) (calls : List Call) (empty : holds (.new mempoolMaxSize)) :
    holds (Runs.run (ChainManager.after P) (.new P mempoolMaxSize params storage) calls).mempool := by
  have both := Runs.run_keeps (motive := fun m => Regular P m ∧ holds m.mempool)
    (fun m call now => ⟨regular_after now.1 call,mempool_after kept now.1 call now.2⟩) calls
    ⟨regular_new P mempoolMaxSize params storage,empty⟩
  exact both.2

/-- A coinbase has no valid signature. -/
theorem Transaction.not_coinbase_of_valid (valid : tx.hasValidSignature P = .ok true) : ¬ tx.isCoinbase := by
  intro coinbase
  rw [hasValidSignature,if_pos coinbase] at valid
  cases valid

/-- Every transaction that waits in the mempool of a reachable state has a valid
    signature. -/
theorem mempool_valid (P : Primitives) (mempoolMaxSize : Nat) (params : ConsensusParams) (storage : Option Storage)
    (calls : List Call) :
    ∀ tx ∈ (Runs.run (ChainManager.after P) (.new P mempoolMaxSize params storage) calls).mempool.pending,
      tx.hasValidSignature P = .ok true := by
  exact mempool_run (Mempool.kept_valid P) params storage calls (fun _ none => by cases none)

/-- In every reachable state the transactions of the chain are coinbases or have
    a valid signature, and those of the mempool are no coinbases and have one. -/
theorem reachable_authentic (P : Primitives) (mempoolMaxSize : Nat) (params : ConsensusParams)
    (storage : Option Storage) (calls : List Call) :
    let m := Runs.run (ChainManager.after P) (.new P mempoolMaxSize params storage) calls
    (∀ block ∈ m.blockchain.blocks, ∀ tx ∈ block.transactions,
        tx.isCoinbase ∨ tx.hasValidSignature P = .ok true) ∧
      ∀ tx ∈ m.mempool.pending, tx.hasValidSignature P = .ok true ∧ ¬ tx.isCoinbase := by
  intro m
  constructor
  · intro block member tx inside
    exact (regular_run P mempoolMaxSize params storage calls).authentic tx (List.mem_flatMap.mpr ⟨block,member,inside⟩)
  · intro tx member
    have valid := mempool_valid P mempoolMaxSize params storage calls tx member
    exact ⟨valid,Transaction.not_coinbase_of_valid valid⟩

end
end ForgeChain
