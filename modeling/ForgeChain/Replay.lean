import ForgeChain.Reorg
import ForgeChain.LedgerPlay

/-!
The ledger against a replay of the chain, over whole runs. A call keeps the two
in step (`agrees_after`) unless it leaves a block half applied, rolls back a
payment that wrapped, accepts a transaction without a price from an address
that only the ledger knows, or adopts a branch that does not settle
(`Careful`). The chain itself replays as long as the branches that are adopted
do, which nothing checks.
-/
namespace ForgeChain.Replay
open Tally Runs Ledger Reorg Samples

/-- The block can be applied to the ledger without trouble: its signatures can
    be checked, no balance wraps, and the replayed ledger knows the senders of
    the transactions without a price. -/
structure TipClean (P : Primitives) (m : ChainManager) (block : Block) : Prop where
  keys : ∀ tx ∈ block.transactions, ¬ tx.BadKey P
  room : Along tryTransaction HasRoom m.ledger block.transactions
  known : Along tryTransaction Knows (replay m.blockchain.blocks) block.transactions

/-- A call that keeps the ledger in step with the chain. -/
structure Careful (P : Primitives) (m : ChainManager) (call : Call) : Prop where
  clean : ∀ block, Applies P m call block → TipClean P m block
  settles : ∀ fork height, Offers P m call fork → Adoptable P m fork height → SettlesOn P m fork height
  noGift : ∀ address amount, call ≠ .setBalance address amount

/-- A careful call that adopts no branch whose transactions do not apply in
    order on the ledger at the common ancestor. -/
structure Replayable (P : Primitives) (m : ChainManager) (call : Call) : Prop extends Careful P m call where
  applies : ∀ fork height, Offers P m call fork → Adoptable P m fork height →
    AllAccepted applyTransaction (replay (m.blockchain.blocks.take (height + 1))) (transactionsOf fork.blocks)

section
variable {P : Primitives} {m : ChainManager} {call : Call}

theorem replay_addBlock (chain : Blockchain) (block : Block) :
    replay (chain.addBlock block).blocks = play applyTransaction (replay chain.blocks) block.transactions := by
  rw [replay,transactionsOf_addBlock,play_append]
  rfl

/-! ### One call -/

theorem agrees_after (regular : Regular P m) (agrees : m.ledger.Agrees (replay m.blockchain.blocks))
    (careful : Careful P m call) : (m.after P call).ledger.Agrees (replay (m.after P call).blockchain.blocks) := by
  cases after_change regular call with
  | kept blockchain ledger => rwa [blockchain,ledger]
  | extended block applies signed applied blockchain ledger =>
    rw [blockchain,ledger,replay_addBlock]
    exact (allAccepted_of_agrees agrees (careful.clean block applies).known applied).2
  | rolledBack block applies before tx after split applied stops blockchain ledger =>
    have room := (careful.clean block applies).room
    rw [split,along_append] at room
    rw [blockchain,ledger]
    exact (covers_rollback applied room.1).agrees.trans agrees
  | raised block applies before tx after split applied bad blockchain ledger =>
    exact absurd bad ((careful.clean block applies).keys tx (by simp [split]))
  | reorganized fork offers height able blockchain ledger =>
    rw [blockchain,ledger,replay_cut]
    exact (agrees_settledLedger_iff (by rwa [← replay_eq])).mpr (careful.settles fork height offers able)
  | balanceSet address amount call_eq blockchain ledger => exact absurd call_eq (careful.noGift address amount)

theorem replays_after (regular : Regular P m) (agrees : m.ledger.Agrees (replay m.blockchain.blocks))
    (replays : Replays m.blockchain.blocks) (meets : Replayable P m call) :
    Replays (m.after P call).blockchain.blocks := by
  cases after_change regular call with
  | kept blockchain ledger => rwa [blockchain]
  | extended block applies signed applied blockchain ledger =>
    rw [blockchain,Replays,transactionsOf_addBlock,allAccepted_append]
    exact ⟨replays,(allAccepted_of_agrees agrees (meets.clean block applies).known applied).1⟩
  | rolledBack block applies before tx after split applied stops blockchain ledger => rwa [blockchain]
  | raised block applies before tx after split applied bad blockchain ledger => rwa [blockchain]
  | reorganized fork offers height able blockchain ledger =>
    rw [blockchain,Replays,transactionsOf_reorganized,allAccepted_append]
    rw [Replays,← List.take_append_drop (height + 1) m.blockchain.blocks,transactionsOf_append,
      allAccepted_append] at replays
    exact ⟨replays.1,meets.applies fork height offers able⟩
  | balanceSet address amount call_eq blockchain ledger => rwa [blockchain]

/-! ### Whole runs -/

/-- A regular state whose ledger agrees with the replay of the chain. -/
structure InStep (P : Primitives) (m : ChainManager) : Prop extends Regular P m where
  agrees : m.ledger.Agrees (replay m.blockchain.blocks)

theorem inStep_new (P : Primitives) (mempoolMaxSize : Nat) (params : ConsensusParams) (storage : Option Storage) :
    InStep P (.new P mempoolMaxSize params storage) :=
  ⟨regular_new P mempoolMaxSize params storage,.refl _⟩

theorem inStep_run {mempoolMaxSize : Nat} {params : ConsensusParams} {storage : Option Storage} {calls : List Call}
    (careful : Along (ChainManager.after P) (Careful P) (.new P mempoolMaxSize params storage) calls) :
    InStep P (run (ChainManager.after P) (.new P mempoolMaxSize params storage) calls) :=
  careful.keeps (motive := InStep P)
    (fun _ call state meets => ⟨regular_after state.toRegular call,agrees_after state.toRegular state.agrees meets⟩)
    (inStep_new P mempoolMaxSize params storage)

/-- Restoring blocks succeeds where their transactions are authentic and apply
    in order. -/
theorem restoreBlocks_all {blocks : List Block} (signed : ∀ tx ∈ transactionsOf blocks, tx.Authentic P)
    (all : AllAccepted applyTransaction m.ledger (transactionsOf blocks)) : (m.restoreBlocks P blocks).1 = .ok true := by
  induction blocks generalizing m with
  | nil => rfl
  | cons block rest ih =>
    have split : transactionsOf (block :: rest) = block.transactions ++ transactionsOf rest := rfl
    rw [split,allAccepted_append] at all
    have own := applyTransactions_all (fun tx member => signed tx (by simp [split,member])) all.1 []
    rw [ChainManager.restoreBlocks,ChainManager.restoreBlock,applyBlockToLedger,own]
    exact ih (fun tx member => signed tx (by simp [split,member])) all.2

end

/-- Alice gets a reward and spends it. -/
def paidRun : List Call := [.submitBlock reading paidA]

theorem paidRun_replayable : Along (ChainManager.after sample) (Replayable sample) start paidRun := by
  have parent : paidA.prevHash = start.blockchain.latest.hash := by decide +kernel
  refine ⟨⟨⟨?_,?_,by simp⟩,?_⟩,trivial⟩
  · rintro block ⟨rfl,-⟩
    exact ⟨by decide +kernel,by decide +kernel,by decide +kernel⟩
  · rintro fork height ⟨off,-⟩
    exact absurd parent off.parent
  · rintro fork height ⟨off,-⟩
    exact absurd parent off.parent

end ForgeChain.Replay
