import ForgeChain.Replay

/-!
Whether two nodes with the same chain agree on the next block. The verdict
depends on the chain, the parameters and the clock, and on the ledger. Ledgers
in step with the same chain give every address the same balance and counter,
but they may know different addresses: a block that was rolled back leaves an
entry of balance 0 for everyone it paid. A transaction without a price is
accepted from such an address by one node and refused by another.
-/
namespace ForgeChain.Verdict
open Tally Runs Ledger Reorg Replay Samples

/-- `submit_block` returns the status `Accepted`. -/
def Accepts (P : Primitives) (m : ChainManager) (reading : Reading) (block : Block) : Prop :=
  ∃ outcome, (m.submitBlock P reading block).1 = .ok outcome ∧ outcome.status = .Accepted

/-- Both ledgers have an entry for the sender or neither, if the transaction has
    no price. -/
def SameSender (ledgers : Ledger × Ledger) (tx : Transaction) : Prop :=
  tx.isCoinbase ∨ tx.amount + tx.fee ≠ 0 ∨
    (ledgers.1.getBalance tx.sender).isSome = (ledgers.2.getBalance tx.sender).isSome

instance (ledgers : Ledger × Ledger) (tx : Transaction) : Decidable (SameSender ledgers tx) :=
  inferInstanceAs (Decidable (_ ∨ _))

/-- Two ledgers after trying a transaction on both. -/
def tryBoth (ledgers : Ledger × Ledger) (tx : Transaction) : Ledger × Ledger :=
  (ledgers.1.tryTransaction tx,ledgers.2.tryTransaction tx)

section
variable {P : Primitives} {m m₁ m₂ : ChainManager} {reading : Reading} {block : Block} {left right : Ledger}
  {tx : Transaction} {txs : List Transaction}

/-! ### Ledgers -/

theorem knows_of_sameSender (same : SameSender (left,right) tx) (accepts : (left.applyTransaction tx).1 = true) :
    right.Knows tx := by
  rcases same with coinbase | price | entries
  · exact .inl coinbase
  · exact .inr (.inl price)
  · rcases (apply_accepts_iff left tx).mp accepts with coinbase | ⟨held,known,-,-⟩
    · exact .inl coinbase
    · refine .inr (.inr ?_)
      rw [← entries,known]
      rfl

theorem allAccepted_of_sameSender (agrees : left.Agrees right) (same : Along tryBoth SameSender (left,right) txs)
    (all : AllAccepted applyTransaction left txs) : AllAccepted applyTransaction right txs := by
  induction txs generalizing left right with
  | nil => trivial
  | cons tx rest ih =>
    have accepts := accepts_of_agrees agrees (knows_of_sameSender same.1 all.1) all.1
    exact ⟨accepts,ih (agrees.apply all.1 accepts) same.2 all.2⟩

theorem sameSender_swap (same : Along tryBoth SameSender (left,right) txs) :
    Along tryBoth SameSender (right,left) txs := by
  induction txs generalizing left right with
  | nil => trivial
  | cons tx rest ih => exact ⟨same.1.imp_right (Or.imp_right Eq.symm),ih same.2⟩

/-! ### Blocks -/

/-- A block is accepted where it is on the tip and authentic and the ledger
    accepts its transactions in order. -/
theorem accepts_iff (regular : Regular P m) :
    Accepts P m reading block ↔ OnTip P m reading.now block ∧ (∀ tx ∈ block.transactions, tx.Authentic P) ∧
      AllAccepted applyTransaction m.ledger block.transactions := by
  constructor
  · rintro ⟨outcome,returned,status⟩
    have told := submitBlock_status regular returned
    rw [status] at told
    exact ⟨told.1,told.2.1,told.2.2.1⟩
  · rintro ⟨tip,signed,all⟩
    cases submitBlock_cases regular reading block with
    | accepted tip signed applied run => exact ⟨.accepted block,by rw [run],rfl⟩
    | refused notOn notOff run => exact absurd tip notOn
    | rolledBack _ before tx after split earlier applied stops run =>
      rw [split,allAccepted_append] at all
      have authentic := checkSignature_true.mpr (signed tx (by simp [split]))
      cases stops with
      | unsigned verdict =>
        rw [authentic] at verdict
        cases verdict
      | refused verdict refusal =>
        rw [all.2.1] at refusal
        cases refusal
    | raised _ before tx after e split earlier applied bad run =>
      rw [checkSignature_true.mpr (signed tx (by simp [split]))] at bad
      cases bad
    | waiting off untraced run => exact absurd tip.parent off.parent
    | outweighed off traced weak run => exact absurd tip.parent off.parent
    | unverifiable off fork chosen e heavier bad run => exact absurd tip.parent off.parent
    | reorganized off fork chosen height m' reorg ledger run => exact absurd tip.parent off.parent

theorem onTip_congr {now : UInt64} (same : m₁.blockchain.blocks = m₂.blockchain.blocks) (params : m₁.params = m₂.params)
    (tip : OnTip P m₁ now block) : OnTip P m₂ now block := by
  have latest : m₁.blockchain.latest = m₂.blockchain.latest := List.getLast_congr _ _ same
  have view : m₁.blockchain.blockAt = m₂.blockchain.blockAt := by
    funext i
    rw [Blockchain.blockAt,Blockchain.blockAt,same]
  have size : m₁.blockchain.size = m₂.blockchain.size := by rw [Blockchain.size,Blockchain.size,same]
  obtain ⟨proper,parent,fits⟩ := tip
  rw [latest] at parent
  rw [params,view,size] at fits
  exact ⟨proper,parent,fits⟩

/-- One direction for two states in step with the same chain. -/
theorem accepts_of_accepts {walk₁ walk₂ : WalkOrder} {now : UInt64} (state₁ : InStep P m₁) (state₂ : InStep P m₂)
    (same : m₁.blockchain.blocks = m₂.blockchain.blocks) (params : m₁.params = m₂.params)
    (senders : Along tryBoth SameSender (m₁.ledger,m₂.ledger) block.transactions)
    (accepts : Accepts P m₁ ⟨now,walk₁⟩ block) : Accepts P m₂ ⟨now,walk₂⟩ block := by
  obtain ⟨tip,signed,all⟩ := (accepts_iff state₁.toRegular).mp accepts
  have agrees : m₁.ledger.Agrees m₂.ledger := by
    have second := state₂.agrees.symm
    rw [← same] at second
    exact state₁.agrees.trans second
  exact (accepts_iff state₂.toRegular).mpr
    ⟨onTip_congr same params tip,signed,allAccepted_of_sameSender agrees senders all⟩

theorem params_run (P : Primitives) (mempoolMaxSize : Nat) (params : ConsensusParams) (storage : Option Storage)
    (calls : List Call) : (run (ChainManager.after P) (.new P mempoolMaxSize params storage) calls).params = params := by
  have both : Regular P (run (ChainManager.after P) (.new P mempoolMaxSize params storage) calls) ∧
      (run (ChainManager.after P) (.new P mempoolMaxSize params storage) calls).params = params :=
    run_keeps (motive := fun m => Regular P m ∧ m.params = params)
      (fun _ call state => ⟨regular_after state.1 call,(params_after state.1 call).trans state.2⟩) calls
      ⟨regular_new P mempoolMaxSize params storage,rfl⟩
  exact both.2

end

end ForgeChain.Verdict
