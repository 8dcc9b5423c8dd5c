import ForgeChain.Calls
import ForgeChain.Samples

/-!
Whether a block or a transaction of a peer can make a node raise. The address
of a sender is a hash of the public key, so any bytes can be the key of some
address, and the check of the signature raises on bytes that are no point of
the curve. In every reachable state this is the only exception: lookups stay
within the chain, and the transactions that a reorganization puts back into the
mempool were checked before.
-/
namespace ForgeChain.PeerInput
open Tally Runs Samples

/-- Applying the block, or checking the branch that it makes the node adopt,
    comes to a transaction with a bad key. -/
inductive ReachesBadKey (P : Primitives) (m : ChainManager) (reading : Reading) (block : Block) : Prop
  | onTip (tip : OnTip P m reading.now block) (before : List Transaction) (tx : Transaction) (after : List Transaction)
      (split : block.transactions = before ++ tx :: after) (signed : ∀ t ∈ before, t.Authentic P)
      (applied : AllAccepted Ledger.applyTransaction m.ledger before) (bad : tx.BadKey P)
  | inBranch (off : OffTip P m block) (fork : ForkChain) (chosen : Chosen P m reading block fork)
      (heavier : isForkHeavier m.blockchain fork = true) (before : List Transaction) (tx : Transaction)
      (after : List Transaction) (split : transactionsOf fork.blocks = before ++ tx :: after)
      (signed : ∀ t ∈ before, t.Authentic P) (bad : tx.BadKey P)

section
variable {P : Primitives} {m : ChainManager} {reading : Reading} {block : Block} {tx : Transaction}

theorem raises_of_badKey (reaches : ReachesBadKey P m reading block) :
    ∃ e, (m.submitBlock P reading block).1 = .error e := by
  cases reaches with
  | onTip tip before tx after split signed applied bad =>
    obtain ⟨e,raised⟩ := checkSignature_error.mpr bad
    have ends := applyTransactions_raises after signed applied raised []
    rw [← split] at ends
    refine ⟨e,?_⟩
    rw [submitBlock_onTip tip,ChainManager.extendTip,applyBlockToLedger]
    rcases result : applyTransactions P m.ledger [] block.transactions with ⟨verdict,ledger⟩
    rw [result] at ends
    obtain rfl : verdict = .error e := ends
    rfl
  | inBranch off fork chosen heavier before tx after split signed bad =>
    obtain ⟨e,raised⟩ := checkSignatures_error.mpr ⟨before,tx,after,split,signed,bad⟩
    refine ⟨e,?_⟩
    have trying : (m.pooled block).tryReorg P fork = (.error e,m.pooled block) := by
      have same : isForkHeavier (m.pooled block).blockchain fork = true := heavier
      simp [ChainManager.tryReorg,same,raised]
    rw [submitBlock_offTip off,handleForkCandidate_chosen chosen,ChainManager.adoptFork,trying]

/-- `submit_block` returns in a regular state unless it comes to a bad key. -/
theorem submitBlock_returns_iff (regular : Regular P m) :
    (∃ outcome, (m.submitBlock P reading block).1 = .ok outcome) ↔ ¬ ReachesBadKey P m reading block := by
  constructor
  · rintro ⟨outcome,returned⟩ reaches
    obtain ⟨e,raised⟩ := raises_of_badKey reaches
    rw [raised] at returned
    cases returned
  · intro unreached
    cases submitBlock_cases regular reading block with
    | refused notOn notOff run => exact ⟨_,by rw [run]⟩
    | accepted tip signed applied run => exact ⟨_,by rw [run]⟩
    | rolledBack tip before tx after split signed applied stops run => exact ⟨_,by rw [run]⟩
    | raised tip before tx after e split signed applied bad run =>
      exact absurd (.onTip tip before tx after split signed applied (checkSignature_error.mp ⟨e,bad⟩)) unreached
    | waiting off untraced run => exact ⟨_,by rw [run]⟩
    | outweighed off traced weak run => exact ⟨_,by rw [run]⟩
    | unverifiable off fork chosen e heavier bad run =>
      obtain ⟨before,tx,after,split,signed,key⟩ := checkSignatures_error.mp ⟨e,bad⟩
      exact absurd (.inBranch off fork chosen heavier before tx after split signed key) unreached
    | reorganized off fork chosen height m' reorg ledger run => exact ⟨_,by rw [run]⟩

/-- `submit_transaction` returns in any state unless the key is bad. -/
theorem submitTransaction_returns_iff :
    (∃ added, (m.submitTransaction P tx).1 = .ok added) ↔ ¬ tx.BadKey P := by
  rw [← tx.hasValidSignature_returns P]
  have shape : (m.submitTransaction P tx).1 = (m.mempool.addTransaction P tx).1 := rfl
  rw [shape,Mempool.addTransaction]
  cases tx.hasValidSignature P with
  | error e => simp
  | ok verdict =>
    have some_verdict : ∃ v, (Except.ok verdict : Except Exn Bool) = .ok v := ⟨verdict,rfl⟩
    refine ⟨fun _ => some_verdict,fun _ => ?_⟩
    cases verdict with
    | false => exact ⟨_,rfl⟩
    | true =>
      simp only
      split
      · exact ⟨_,rfl⟩
      · split
        · split
          · exact ⟨_,rfl⟩
          · split <;> exact ⟨_,rfl⟩
        · exact ⟨_,rfl⟩

end

/-- In every reachable state the payload of a `BLOCK` or a `TX` message makes
    the node raise exactly where it comes to a bad key. -/
theorem peer_input_returns_iff (P : Primitives) (mempoolMaxSize : Nat) (params : ConsensusParams)
    (storage : Option Storage) (calls : List Call) :
    let m := run (ChainManager.after P) (.new P mempoolMaxSize params storage) calls
    (∀ payload block reading, Block.deserialize P payload = some block →
      ((∃ outcome, (m.submitBlock P reading block).1 = .ok outcome) ↔ ¬ ReachesBadKey P m reading block)) ∧
    (∀ payload tx, Transaction.deserialize payload = some tx →
      ((∃ added, (m.submitTransaction P tx).1 = .ok added) ↔ ¬ tx.BadKey P)) ∧
    ∀ tx : Transaction, (∃ verdict, tx.hasValidSignature P = .ok verdict) ↔ ¬ tx.BadKey P := by
  intro m
  have regular : Regular P m := regular_run P mempoolMaxSize params storage calls
  refine ⟨?_,?_,Transaction.hasValidSignature_returns P⟩
  · intro payload block reading _
    exact submitBlock_returns_iff regular
  · intro payload tx _
    exact submitTransaction_returns_iff

/-- A transaction and a block of a peer that make a new node raise. -/
theorem peer_input_raises :
    Transaction.deserialize badKey.serialize = some badKey ∧
      (start.submitTransaction sample badKey).1 = .error (.runtimeError "EC_POINT_oct2point failed") ∧
      badKey.hasValidSignature sample = .error (.runtimeError "EC_POINT_oct2point failed") ∧
      Block.deserialize sample raising.serialize = some raising ∧
      (start.submitBlock sample reading raising).1 = .error (.runtimeError "EC_POINT_oct2point failed") := by
  decide +kernel

end ForgeChain.PeerInput
