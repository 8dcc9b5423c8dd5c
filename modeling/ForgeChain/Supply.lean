import ForgeChain.Replay
import ForgeChain.MapSum

/-!
How much money there is. An accepted transaction takes its fee out of the
ledger, unless amount and fee wrap together, and a coinbase brings in its
amount; the coinbase rule bounds what a block brings in by the reward and the
fees of the block. So the balances add up to at most one reward for every block
above the genesis block, along every run that adopts no branch that breaks
these rules.
-/
namespace ForgeChain.Supply
open Tally Runs Ledger Reorg Replay Samples

/-- The sum of all balances. -/
def supply (ledger : Ledger) : Nat := MapSum.sum UInt64.toNat ledger.balances

/-- Amount and fee together fit 64 bits. -/
def Payable (tx : Transaction) : Prop := tx.isCoinbase ∨ tx.amount.toNat + tx.fee.toNat < 2 ^ 64

instance (tx : Transaction) : Decidable (Payable tx) := inferInstanceAs (Decidable (_ ∨ _))

/-- What a transaction brings into the ledger. -/
def reward (tx : Transaction) : Nat := if tx.isCoinbase then tx.amount.toNat else 0

/-- What a transaction takes out of the ledger. -/
def levy (tx : Transaction) : Nat := if tx.isCoinbase then 0 else tx.fee.toNat

def rewards (txs : List Transaction) : Nat := (txs.map reward).sum
def levies (txs : List Transaction) : Nat := (txs.map levy).sum

section
variable {ledger left right : Ledger} {tx : Transaction} {txs : List Transaction}

/-! ### Transactions -/

theorem weightAt_balances (ledger : Ledger) (address : Bytes) :
    MapSum.weightAt UInt64.toNat ledger.balances address = (ledger.balance address).toNat := by
  unfold MapSum.weightAt balance getBalance
  cases ledger.balances.lookup address <;> rfl

theorem supply_congr (agrees : left.Agrees right) : supply left = supply right := by
  apply MapSum.sum_congr
  intro address
  rw [weightAt_balances,weightAt_balances,agrees.1]

theorem supply_setBalance (ledger : Ledger) (address : Bytes) (amount : UInt64) :
    supply (ledger.setBalance address amount) + (ledger.balance address).toNat = supply ledger + amount.toNat := by
  rw [← weightAt_balances]
  exact MapSum.sum_insert UInt64.toNat ledger.balances address amount

theorem balance_le_supply (ledger : Ledger) (address : Bytes) : (ledger.balance address).toNat ≤ supply ledger := by
  have emptied := supply_setBalance ledger address 0
  rw [UInt64.toNat_zero] at emptied
  omega

theorem supply_credit (ledger : Ledger) (tx : Transaction) :
    supply (ledger.credit tx) ≤ supply ledger + tx.amount.toNat := by
  have exchanged := supply_setBalance ledger tx.recipient (ledger.balance tx.recipient + tx.amount)
  have wrapped : (ledger.balance tx.recipient + tx.amount).toNat ≤
      (ledger.balance tx.recipient).toNat + tx.amount.toNat := by
    rw [UInt64.toNat_add]
    exact Nat.mod_le _ _
  unfold credit
  omega

theorem price_toNat (fits : tx.amount.toNat + tx.fee.toNat < 2 ^ 64) :
    (tx.amount + tx.fee).toNat = tx.amount.toNat + tx.fee.toNat := by
  rw [UInt64.toNat_add,Nat.mod_eq_of_lt fits]

theorem supply_debit (fits : tx.amount.toNat + tx.fee.toNat < 2 ^ 64) (affords : ledger.Affords tx) :
    supply (ledger.debit tx) + (tx.amount.toNat + tx.fee.toNat) = supply ledger := by
  obtain ⟨held,known,enough,-⟩ := affords
  have paid : (held - (tx.amount + tx.fee)).toNat = held.toNat - (tx.amount.toNat + tx.fee.toNat) := by
    rw [UInt64.toNat_sub_of_le _ _ enough,price_toNat fits]
  have covered : tx.amount.toNat + tx.fee.toNat ≤ held.toNat := by
    rw [← price_toNat fits]
    exact enough
  have exchanged := supply_setBalance ledger tx.sender (held - (tx.amount + tx.fee))
  rw [balance_of_getBalance known,paid] at exchanged
  have same : supply (ledger.debit tx) = supply (ledger.setBalance tx.sender (held - (tx.amount + tx.fee))) := by
    unfold debit
    rw [balance_of_getBalance known]
    rfl
  omega

theorem supply_try (accepts : (ledger.applyTransaction tx).1 = true) (payable : Payable tx) :
    supply (ledger.tryTransaction tx) + levy tx ≤ supply ledger + reward tx := by
  unfold tryTransaction levy reward
  by_cases coinbase : tx.isCoinbase
  · rw [apply_coinbase coinbase,if_pos coinbase,if_pos coinbase]
    exact supply_credit ledger tx
  · have affords := ((apply_accepts_iff ledger tx).mp accepts).resolve_left coinbase
    have debited := supply_debit (payable.resolve_left coinbase) affords
    have credited := supply_credit (ledger.debit tx) tx
    rw [apply_affords coinbase affords,if_neg coinbase,if_neg coinbase]
    show supply ((ledger.debit tx).credit tx) + tx.fee.toNat ≤ supply ledger + 0
    omega

theorem supply_play (all : AllAccepted applyTransaction ledger txs) (payable : ∀ tx ∈ txs, Payable tx) :
    supply (play applyTransaction ledger txs) + levies txs ≤ supply ledger + rewards txs := by
  induction txs generalizing ledger with
  | nil => simp [play,levies,rewards]
  | cons tx rest ih =>
    obtain ⟨first,later⟩ := List.forall_mem_cons.mp payable
    have here := supply_try all.1 first
    have after := ih all.2 later
    simp only [levies,rewards,List.map_cons,List.sum_cons] at after ⊢
    unfold tryTransaction at here
    rw [play]
    omega

/-! ### The coinbase rule -/

/-- Once a coinbase is found, the search goes through only if there is no other. -/
theorem findCoinbase_found {i index : Nat} {result : Option Nat} (run : findCoinbase txs i (some index) = some result) :
    result = some index ∧ ∀ tx ∈ txs, ¬ tx.isCoinbase := by
  induction txs generalizing i with
  | nil => simpa [findCoinbase,eq_comm] using run
  | cons tx rest ih =>
    rw [findCoinbase] at run
    split at run
    · simp at run
    · rename_i plain
      obtain ⟨same,later⟩ := ih run
      exact ⟨same,List.forall_mem_cons.mpr ⟨plain,later⟩⟩

/-- The search finds no coinbase, or the position of the only one. -/
theorem findCoinbase_spec {i : Nat} {result : Option Nat} (run : findCoinbase txs i none = some result) :
    (result = none ∧ ∀ tx ∈ txs, ¬ tx.isCoinbase) ∨
    ∃ before coinbase after, txs = before ++ coinbase :: after ∧ result = some (i + before.length) ∧ coinbase.isCoinbase ∧
      (∀ tx ∈ before, ¬ tx.isCoinbase) ∧ ∀ tx ∈ after, ¬ tx.isCoinbase := by
  induction txs generalizing i with
  | nil =>
    left
    simpa [findCoinbase,eq_comm] using run
  | cons tx rest ih =>
    rw [findCoinbase] at run
    split at run
    · rename_i coinbase
      obtain ⟨same,later⟩ := findCoinbase_found (by simpa using run)
      exact .inr ⟨[],tx,rest,rfl,by simpa using same,coinbase,by simp,later⟩
    · rename_i plain
      rcases ih run with ⟨nothing,later⟩ | ⟨before,coinbase,after,rfl,same,is_coinbase,earlier,later⟩
      · exact .inl ⟨nothing,List.forall_mem_cons.mpr ⟨plain,later⟩⟩
      · refine .inr ⟨tx :: before,coinbase,after,rfl,?_,is_coinbase,List.forall_mem_cons.mpr ⟨plain,earlier⟩,later⟩
        rw [same,List.length_cons]
        congr 1
        omega

/-- The 64-bit sum of fees is at most what is levied where only the skipped
    transaction is a coinbase. -/
theorem feesTotal_le {index i : Nat} (total : UInt64)
    (only : ∀ j tx, txs[j]? = some tx → i + j ≠ index → ¬ tx.isCoinbase) :
    (feesTotal index txs i total).toNat ≤ total.toNat + levies txs := by
  induction txs generalizing i total with
  | nil => simp [feesTotal]
  | cons tx rest ih =>
    have later : ∀ j t, rest[j]? = some t → i + 1 + j ≠ index → ¬ t.isCoinbase := by
      intro j t there other
      exact only (j + 1) t there (by omega)
    have split : levies (tx :: rest) = levy tx + levies rest := by simp [levies]
    rw [feesTotal,split]
    by_cases skipped : i = index
    · have := ih total later
      rw [if_pos skipped]
      omega
    · have plain : ¬ tx.isCoinbase := only 0 tx rfl (by omega)
      have added : (total + tx.fee).toNat ≤ total.toNat + tx.fee.toNat := by
        rw [UInt64.toNat_add]
        exact Nat.mod_le _ _
      have := ih (total + tx.fee) later
      rw [if_neg skipped,levy,if_neg plain]
      omega

theorem rewards_of_plain (plain : ∀ tx ∈ txs, ¬ tx.isCoinbase) : rewards txs = 0 := by
  induction txs with
  | nil => rfl
  | cons tx rest ih =>
    obtain ⟨first,later⟩ := List.forall_mem_cons.mp plain
    have rest_plain := ih later
    simp only [rewards,List.map_cons,List.sum_cons] at rest_plain ⊢
    rw [rest_plain,reward,if_neg first]

/-- A block that meets the coinbase rule brings in at most the reward and what
    it levies. -/
theorem rewards_le (valid : validateCoinbaseAmount txs = true) : rewards txs ≤ miningReward.toNat + levies txs := by
  unfold validateCoinbaseAmount at valid
  cases found : findCoinbase txs 0 none with
  | none => simp [found] at valid
  | some result =>
    rcases findCoinbase_spec found with ⟨rfl,plain⟩ | ⟨before,coinbase,after,rfl,rfl,is_coinbase,earlier,later⟩
    · rw [rewards_of_plain plain]
      omega
    · have there : (before ++ coinbase :: after)[0 + before.length]? = some coinbase := by simp
      simp only [found,there,decide_eq_true_eq] at valid
      have only : ∀ j tx, (before ++ coinbase :: after)[j]? = some tx → 0 + j ≠ 0 + before.length → ¬ tx.isCoinbase := by
        intro j tx inside other
        rcases Nat.lt_or_ge j before.length with low | high
        · rw [List.getElem?_append_left low] at inside
          exact earlier tx (List.mem_of_getElem? inside)
        · obtain ⟨k,rfl⟩ := Nat.exists_eq_add_of_le high
          rw [List.getElem?_append_right (by omega),Nat.add_sub_cancel_left] at inside
          cases k with
          | zero => omega
          | succ k => exact later tx (List.mem_of_getElem? inside)
      have fees := feesTotal_le 0 only
      have bound : coinbase.amount.toNat ≤
          miningReward.toNat + (feesTotal (0 + before.length) (before ++ coinbase :: after) 0 0).toNat := by
        have := UInt64.le_iff_toNat_le.mp valid
        rw [UInt64.toNat_add] at this
        exact this.trans (Nat.mod_le _ _)
      have single : rewards (before ++ coinbase :: after) = coinbase.amount.toNat := by
        have first := rewards_of_plain earlier
        have last := rewards_of_plain later
        simp only [rewards,List.map_append,List.map_cons,List.sum_append,List.sum_cons] at first last ⊢
        rw [first,last,reward,if_pos is_coinbase]
        omega
      rw [UInt64.toNat_zero,Nat.zero_add (levies _)] at fees
      rw [single]
      omega

/-- Blocks that meet the coinbase rule bring in at most one reward each. -/
theorem supply_blocks {blocks : List Block}
    (valid : ∀ block ∈ blocks, validateCoinbaseAmount block.transactions = true)
    (payable : ∀ tx ∈ transactionsOf blocks, Payable tx)
    (all : AllAccepted applyTransaction ledger (transactionsOf blocks)) :
    supply (play applyTransaction ledger (transactionsOf blocks)) ≤
      supply ledger + miningReward.toNat * blocks.length := by
  induction blocks generalizing ledger with
  | nil => simp [transactionsOf,play]
  | cons block rest ih =>
    obtain ⟨first,later⟩ := List.forall_mem_cons.mp valid
    have split : transactionsOf (block :: rest) = block.transactions ++ transactionsOf rest := rfl
    rw [split] at payable all ⊢
    rw [allAccepted_append] at all
    have own := supply_play all.1 (fun tx member => payable tx (List.mem_append_left _ member))
    have brought := rewards_le first
    have after := ih later (fun tx member => payable tx (List.mem_append_right _ member)) all.2
    rw [play_append,List.length_cons,Nat.mul_succ]
    omega

end

/-! ### Runs -/

/-- A replayable call that brings no transaction into the chain whose amount and
    fee wrap, and by catching up no block that breaks the coinbase rule. -/
structure Sober (P : Primitives) (m : ChainManager) (call : Call) : Prop extends Replayable P m call where
  payable : ∀ block, Applies P m call block → ∀ tx ∈ block.transactions, Payable tx
  branchPayable : ∀ fork height, Offers P m call fork → Adoptable P m fork height →
    ∀ tx ∈ transactionsOf fork.blocks, Payable tx
  coinbases : ∀ now blocks fork height, call = .adoptBranch now blocks →
    m.requestedFork P now blocks = .ok (some fork) → Adoptable P m fork height →
    ∀ block ∈ fork.blocks, validateCoinbaseAmount block.transactions = true
  unrestored : ∀ block, call ≠ .restoreBlock block

/-- The chain replays in step with the ledger, its blocks and those of the
    orphan pool meet the coinbase rule, and no transaction of the chain wraps. -/
structure Bounded (P : Primitives) (m : ChainManager) : Prop extends InStep P m where
  replays : Replays m.blockchain.blocks
  coinbases : ∀ block ∈ m.blockchain.blocks, validateCoinbaseAmount block.transactions = true
  payable : ∀ tx ∈ transactionsOf m.blockchain.blocks, Payable tx
  pooled : ∀ hash block, m.orphanPool.findOrphan hash = some block → validateCoinbaseAmount block.transactions = true

section
variable {P : Primitives} {m : ChainManager} {call : Call}

theorem bounded_new (P : Primitives) (mempoolMaxSize : Nat) (params : ConsensusParams) (storage : Option Storage) :
    Bounded P (.new P mempoolMaxSize params storage) where
  toInStep := inStep_new P mempoolMaxSize params storage
  replays := trivial
  coinbases block member := by
    obtain rfl : block = Block.genesis P := by simpa [ChainManager.new,Blockchain.new] using member
    rfl
  payable tx member := by
    simp [ChainManager.new,Blockchain.new,transactionsOf,Block.genesis,Block.make] at member
  pooled hash block found := by
    simp [ChainManager.new,OrphanPool.new,OrphanPool.findOrphan] at found

/-- Whatever a sober call offers for a reorganization meets the coinbase rule. -/
theorem Bounded.offered (bounded : Bounded P m) (sober : Sober P m call) {fork : ForkChain} {height : Nat}
    (offers : Offers P m call fork) (able : Adoptable P m fork height) :
    ∀ block ∈ fork.blocks, validateCoinbaseAmount block.transactions = true := by
  cases call with
  | submitBlock reading submitted =>
    obtain ⟨off,chosen⟩ := offers
    obtain ⟨-,-,origin⟩ := chosen.grown bounded.toRegular
    intro block member
    rcases origin block member with rfl | waiting
    · exact off.proper.coinbase
    · exact bounded.pooled _ _ waiting
  | adoptBranch now blocks => exact sober.coinbases now blocks fork height rfl offers able
  | submitTransaction tx => exact offers.elim
  | restoreBlock block => exact offers.elim
  | setBalance address amount => exact offers.elim

theorem coinbases_after (bounded : Bounded P m) (sober : Sober P m call) :
    ∀ block ∈ (m.after P call).blockchain.blocks, validateCoinbaseAmount block.transactions = true := by
  cases after_change bounded.toRegular call with
  | kept blockchain ledger =>
    rw [blockchain]
    exact bounded.coinbases
  | extended block applies signed applied blockchain ledger =>
    rw [blockchain]
    intro other member
    rcases List.mem_append.mp member with old | new
    · exact bounded.coinbases other old
    · obtain rfl := List.mem_singleton.mp new
      cases call with
      | submitBlock reading submitted =>
        obtain ⟨rfl,tip⟩ := applies
        exact tip.proper.coinbase
      | restoreBlock restored => exact absurd rfl (sober.unrestored restored)
      | submitTransaction tx => exact applies.elim
      | adoptBranch now blocks => exact applies.elim
      | setBalance address amount => exact applies.elim
  | rolledBack block applies before tx after split applied stops blockchain ledger =>
    rw [blockchain]
    exact bounded.coinbases
  | raised block applies before tx after split applied bad blockchain ledger =>
    rw [blockchain]
    exact bounded.coinbases
  | reorganized fork offers height able blockchain ledger =>
    rw [blockchain,Blockchain.blocks_foldl_addBlock]
    intro other member
    rcases List.mem_append.mp member with old | new
    · exact bounded.coinbases other (List.mem_of_mem_take old)
    · obtain ⟨plain,inside,same⟩ := Blockchain.mem_stamp new
      rw [same]
      exact bounded.offered sober offers able plain inside
  | balanceSet address amount call_eq blockchain ledger =>
    rw [blockchain]
    exact bounded.coinbases

theorem payable_after (bounded : Bounded P m) (sober : Sober P m call) :
    ∀ tx ∈ transactionsOf (m.after P call).blockchain.blocks, Payable tx := by
  cases after_change bounded.toRegular call with
  | kept blockchain ledger =>
    rw [blockchain]
    exact bounded.payable
  | extended block applies signed applied blockchain ledger =>
    rw [blockchain,transactionsOf_addBlock]
    intro tx member
    exact (List.mem_append.mp member).elim (bounded.payable tx) (sober.payable block applies tx)
  | rolledBack block applies before tx after split applied stops blockchain ledger =>
    rw [blockchain]
    exact bounded.payable
  | raised block applies before tx after split applied bad blockchain ledger =>
    rw [blockchain]
    exact bounded.payable
  | reorganized fork offers height able blockchain ledger =>
    rw [blockchain,transactionsOf_reorganized]
    intro tx member
    exact (List.mem_append.mp member).elim (fun old => bounded.payable tx (mem_transactionsOf_take old))
      (sober.branchPayable fork height offers able tx)
  | balanceSet address amount call_eq blockchain ledger =>
    rw [blockchain]
    exact bounded.payable

theorem bounded_after (bounded : Bounded P m) (sober : Sober P m call) : Bounded P (m.after P call) where
  toRegular := regular_after bounded.toRegular call
  agrees := agrees_after bounded.toRegular bounded.agrees sober.toCareful
  replays := replays_after bounded.toRegular bounded.agrees bounded.replays sober.toReplayable
  coinbases := coinbases_after bounded sober
  payable := payable_after bounded sober
  pooled hash block found := by
    rcases findOrphan_after bounded.toRegular found with before | ⟨reading,-,-,proper⟩
    · exact bounded.pooled hash block before
    · exact proper.coinbase

/-- A bounded state has at most one reward for every block above the genesis
    block. -/
theorem Bounded.supply_le (bounded : Bounded P m) : supply m.ledger ≤ miningReward.toNat * (m.blockchain.size - 1) := by
  have rootless := bounded.transactionsOf_drop
  have all := bounded.replays
  rw [Replays,← rootless] at all
  have bound := supply_blocks (fun block member => bounded.coinbases block (List.mem_of_mem_drop member))
    (by rw [rootless]; exact bounded.payable) all
  rw [rootless,List.length_drop] at bound
  have nothing : supply Ledger.empty = 0 := rfl
  calc supply m.ledger = supply (replay m.blockchain.blocks) := supply_congr bounded.agrees
    _ ≤ supply Ledger.empty + miningReward.toNat * (m.blockchain.blocks.length - 1) := bound
    _ = miningReward.toNat * (m.blockchain.size - 1) := by rw [nothing,Nat.zero_add]; rfl

end

theorem paidRun_sober : Along (ChainManager.after sample) (Sober sample) start paidRun := by
  have parent : paidA.prevHash = start.blockchain.latest.hash := by decide +kernel
  refine ⟨⟨paidRun_replayable.1,?_,?_,?_,?_⟩,trivial⟩
  · rintro block ⟨rfl,-⟩
    decide +kernel
  · rintro fork height ⟨off,-⟩
    exact absurd parent off.parent
  · intro now blocks fork height same
    cases same
  · intro block same
    cases same

end ForgeChain.Supply
