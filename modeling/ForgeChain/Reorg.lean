import ForgeChain.Calls
import ForgeChain.Samples

/-!
The ledger after a reorganization against a replay of the new chain. The code
neither rewinds nor replays: it skips what both branches have, and it ignores
refusals of the ledger. Counting effects, the ledger agrees with the replay
exactly where what stays in effect of the discarded blocks weighs the same as
what is left out of the branch (`Settles`).
-/
namespace ForgeChain.Reorg
open Tally Ledger Samples

/-- The ledger that the transactions of a chain give, tried in order from the
    empty ledger. -/
def replay (blocks : List Block) : Ledger := play applyTransaction .empty (transactionsOf blocks)

/-- Every transaction of a chain applies, in order from the empty ledger. -/
def Replays (blocks : List Block) : Prop := AllAccepted applyTransaction .empty (transactionsOf blocks)

section
variable (P : Primitives) (base ledger : Ledger) (discarded branch : List Transaction)

/-- The discarded transactions that the undo loop tries, in its order. -/
def undone : List Transaction := discarded.reverse.filter (·.computeHash P ∉ plainHashes P branch)

/-- The branch transactions that the apply loop tries, in its order. -/
def redone : List Transaction := branch.filter (·.computeHash P ∉ plainHashes P discarded)

/-- What the discarded transactions in effect weigh after the undo loop. -/
def leftOver : Bytes → UInt64 × UInt64 :=
  total effect (accepted applyTransaction base discarded) -
    total effect (accepted reverseTransaction ledger (undone P discarded branch))

/-- What the transactions of the branch weigh that the apply loop leaves out. -/
def leftOut : Bytes → UInt64 × UInt64 :=
  total effect (accepted applyTransaction base branch) -
    total effect (accepted applyTransaction (play reverseTransaction ledger (undone P discarded branch))
      (redone P discarded branch))

/-- What stays in effect of the discarded transactions weighs at every address
    what is left out of the branch. -/
def Settles : Prop :=
  ∀ address, leftOver P base ledger discarded branch address = leftOut P base ledger discarded branch address

end

section
variable {P : Primitives} {base ledger : Ledger} {discarded branch : List Transaction}

theorem holdings_settledLedger (P : Primitives) (ledger : Ledger) (discarded branch : List Transaction) :
    (settledLedger P ledger discarded branch).holdings =
      ledger.holdings - total effect (accepted reverseTransaction ledger (undone P discarded branch)) +
        total effect (accepted applyTransaction (play reverseTransaction ledger (undone P discarded branch))
          (redone P discarded branch)) := by
  unfold settledLedger applyBranch
  rw [apply_measured.play,reverse_measured.play,total_neg,← sub_eq_add_neg]
  rfl

/-- A ledger that agrees with the discarded branch agrees, once settled, with
    the new one exactly where the two sides settle. -/
theorem agrees_settledLedger_iff (agrees : ledger.Agrees (play applyTransaction base discarded)) :
    (settledLedger P ledger discarded branch).Agrees (play applyTransaction base branch) ↔
      Settles P base ledger discarded branch := by
  have before := agrees_iff.mp agrees
  rw [apply_measured.play] at before
  rw [agrees_iff,holdings_settledLedger,before,apply_measured.play,Settles,← funext_iff,leftOver,leftOut]
  -- Both sides start from the ledger at the common ancestor.
  rw [add_sub_assoc,add_assoc,add_right_inj,eq_sub_iff_add_eq]

/-- The replay of a chain goes on from the replay of its beginning. -/
theorem replay_eq (blocks : List Block) (height : Nat) :
    replay blocks = play applyTransaction (replay (blocks.take height)) (transactionsOf (blocks.drop height)) := by
  rw [replay,replay,← play_append,← transactionsOf_append,List.take_append_drop]

theorem replay_cut (chain : Blockchain) (height : Nat) (blocks : List Block) :
    replay (blocks.foldl .addBlock (chain.cut height)).blocks =
      play applyTransaction (replay (chain.blocks.take (height + 1))) (transactionsOf blocks) := by
  rw [replay,transactionsOf_reorganized,play_append]
  rfl

/-- The branch settles on a chain manager that it is adopted by. -/
def SettlesOn (P : Primitives) (m : ChainManager) (fork : ForkChain) (height : Nat) : Prop :=
  Settles P (replay (m.blockchain.blocks.take (height + 1))) m.ledger
    (transactionsOf (m.blockchain.blocks.drop (height + 1))) (transactionsOf fork.blocks)

end

/-- A branch whose only block pays Bob. -/
def mintedFork : ForkChain := ⟨[minted],Block.genesis sample⟩

/-- Both branches pay Alice and have the transaction that spends it. -/
def paidFork : ForkChain := ⟨[paidB,overB],Block.genesis sample⟩

end ForgeChain.Reorg
