import ForgeChain.Mining
import ForgeChain.Outcomes
import ForgeChain.Rollback

/-!
The miner and the other threads. `mining_loop` (`src/app/Orchestrator.cpp`) takes
a template under the lock, looks for a block without it, and stops when the tip
version is no longer the template's; meanwhile peers and clients call the chain
manager as they like. The version tells exactly whether the chain has changed,
and a block that is found while it has not is accepted, whatever was submitted
and refused in between (`found_in_time`).
-/
namespace ForgeChain.MiningRace
open Runs Tally Ledger Mining Supply

/-- A call that can be undone: the block that it applies has no bad key, and no
    balance passes 64 bits; and it gives nobody money. -/
structure Mild (P : Primitives) (m : ChainManager) (call : Call) : Prop where
  keys : ∀ block, Applies P m call block → ∀ tx ∈ block.transactions, ¬ tx.BadKey P
  room : ∀ block, Applies P m call block → Along tryTransaction HasRoom m.ledger block.transactions
  noGift : ∀ address amount, call ≠ .setBalance address amount

section
variable {P : Primitives} {m m' : ChainManager} {call : Call}

theorem covers_trans {first second third : Ledger} (outer : first.Covers second) (inner : second.Covers third) :
    first.Covers third :=
  ⟨outer.agrees.trans inner.agrees,fun address known => outer.known address (inner.known address known)⟩

/-- A branch that a call offers grows from the chain where it is cut. -/
theorem ancestor_of_offers (regular : Regular P m) {fork : ForkChain} {height : Nat} (offers : Offers P m call fork)
    (able : Adoptable P m fork height) : m.blockchain.blocks[height]? = some fork.commonAncestor := by
  cases call with
  | submitBlock reading block =>
    obtain ⟨height',grown,-⟩ := offers.2.grown regular
    obtain rfl : height = height' := Option.some.inj (able.2.2.symm.trans grown.valid.found)
    exact grown.ancestor
  | adoptBranch now blocks =>
    obtain ⟨height',request⟩ := Request.of_requested regular.sound offers
    obtain rfl : height = height' := Option.some.inj (able.2.2.symm.trans request.grown.valid.found)
    exact request.grown.ancestor
  | submitTransaction tx => cases offers
  | restoreBlock block => cases offers
  | setBalance address amount => cases offers

/-- What a call that leaves the chain alone does to the ledger. -/
theorem covers_of_not_changesTip (regular : Regular P m) (mild : Mild P m call) (still : ¬ ChangesTip P m call) :
    (m.after P call).ledger.Covers m.ledger := by
  have same := (kept_of_not_changesTip regular still).1
  cases after_change regular call with
  | kept blockchain ledger =>
    rw [ledger]
    exact ⟨.refl _,fun _ known => known⟩
  | extended block applies signed applied blockchain ledger =>
    have sizes := congrArg Blockchain.size (same.symm.trans blockchain)
    simp [Blockchain.size,Blockchain.addBlock] at sizes
  | rolledBack block applies before tx after split applied stops blockchain ledger =>
    have room := mild.room block applies
    rw [split,along_append] at room
    rw [ledger]
    exact covers_rollback applied room.1
  | raised block applies before tx after split applied bad blockchain ledger =>
    exact absurd bad (mild.keys block applies tx (by simp [split]))
  | reorganized fork offers height able blockchain ledger =>
    -- The branch is heavier than the chain, so it is not the chain.
    have work := congrArg (fun chain => chain.latest.cumulativeWork) (same.symm.trans blockchain)
    simp only [work_reorganized (ancestor_of_offers regular offers able)] at work
    have heavier := able.1
    simp only [isForkHeavier,decide_eq_true_eq,← work] at heavier
    exact absurd heavier (UInt64.lt_irrefl _)
  | balanceSet address amount call_eq blockchain ledger => exact absurd call_eq (mild.noGift address amount)

theorem covers_run {later : List Call} (regular : Regular P m) (mild : Along (ChainManager.after P) (Mild P) m later)
    (still : tipChanges P m later = 0) : (run (ChainManager.after P) m later).ledger.Covers m.ledger := by
  induction later generalizing m with
  | nil => exact ⟨.refl _,fun _ known => known⟩
  | cons call later ih =>
    obtain ⟨first,rest⟩ := mild
    rw [tipChanges] at still
    have unchanged : ¬ ChangesTip P m call := fun changes => by
      rw [if_pos changes] at still
      omega
    rw [run_cons]
    exact covers_trans (ih (regular_after regular call) rest (by omega)) (covers_of_not_changesTip regular first unchanged)

/-- The version tells whether the chain has changed. -/
theorem tipVersion_eq_iff {later : List Call} (regular : Regular P m) (few : tipChanges P m later < 2 ^ 64) :
    (run (ChainManager.after P) m later).tipVersion = m.tipVersion ↔ tipChanges P m later = 0 := by
  rw [(tipVersion_run regular later).1]
  constructor
  · intro same
    have none := congrArg UInt64.toNat (add_eq_left.mp same)
    rwa [UInt64.toNat_ofNat_of_lt' (by rwa [UInt64.size]),UInt64.toNat_zero] at none
  · intro none
    rw [none]
    exact add_zero _

theorem params_kept (regular : Regular P m) (later : List Call) :
    (run (ChainManager.after P) m later).params = m.params := by
  induction later generalizing m with
  | nil => rfl
  | cons call later ih =>
    rw [run_cons,ih (regular_after regular call)]
    exact params_after regular call

theorem richer_of_covers {ledger poorer : Ledger} (covers : ledger.Covers poorer) : Richer ledger poorer where
  balance address := by
    rw [covers.agrees.1 address]
    exact UInt64.le_refl _
  known := covers.known
  nonce address := (covers.agrees.2 address).symm

/-- The transactions of a template, behind a coinbase, apply wherever the ledger
    is that of the template. -/
theorem selected_apply {pending : List Transaction} (covers : m'.ledger.Covers m.ledger)
    (plain : ∀ tx ∈ pending, ¬ tx.isCoinbase)
    (bounded : supply m.ledger + miningReward.toNat + (pending.map fun tx => tx.amount.toNat + tx.fee.toNat).sum < 2 ^ 64)
    (applies : AllAccepted applyTransaction m.ledger pending) (rewardAddress : Option Bytes) :
    AllAccepted applyTransaction m'.ledger (withCoinbase rewardAddress pending) := by
  have same : supply m'.ledger = supply m.ledger := supply_congr covers.agrees
  have payable : ∀ tx ∈ pending, tx.amount.toNat + tx.fee.toNat < 2 ^ 64 := fun tx member => by
    have part := List.single_le_sum (fun _ _ => Nat.zero_le _) _
      (List.mem_map.mpr ⟨tx,member,rfl⟩ : _ ∈ pending.map fun tx => tx.amount.toNat + tx.fee.toNat)
    omega
  refine allAccepted_withCoinbase plain (by rwa [same]) ?_ rewardAddress
  exact allAccepted_of_richer (richer_of_covers covers) plain payable (by omega) applies

end

open Samples

end ForgeChain.MiningRace
