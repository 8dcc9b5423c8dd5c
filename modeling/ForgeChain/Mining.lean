import ForgeChain.Supply
import ForgeChain.Authenticity
import Mathlib.Algebra.Order.BigOperators.Group.List

/-!
The blocks that a node mines: a template taken from its state, a coinbase put
before the transactions of the template, and a search for a nonce. Selection
tries the pending transactions on the ledger alone, the block is applied with
the coinbase first; a ledger with more funds accepts what a ledger accepts, as
long as the money in it fits 64 bits (`Richer`). The timestamp of the template
is one above the median time past, which is a later time unless the median is
the last one there is (`template_accepted_iff`).
-/
namespace ForgeChain.Mining
open Tally Runs Ledger Supply

/-! ### The mining loop -/

/-- `kMaxTxsPerBlock`. -/
def kMaxTxsPerBlock : Nat := 50

/-- The fees as the loop adds them up. -/
def totalFees (txs : List Transaction) : UInt64 := txs.foldl (fun total tx => total + tx.fee) 0

/-- The coinbase for the transactions of a template. -/
def coinbase (rewardAddress : Bytes) (txs : List Transaction) : Transaction where
  sender := kCoinbaseSender
  recipient := rewardAddress
  senderPublicKey := []
  amount := miningReward + totalFees txs
  signature := []
  fee := 0
  nonce := 0

/-- The transactions of the block: the coinbase goes first, where there is a
    reward address. -/
def withCoinbase : Option Bytes → List Transaction → List Transaction
  | none, txs => txs
  | some rewardAddress, txs => coinbase rewardAddress txs :: txs

/-! ### The search for a nonce -/

/-- `kMaxNonce`, the first nonce that is not tried. -/
def kMaxNonce : UInt32 := 0xFFFFFFFF

/-- `kCancelCheckInterval`. -/
def kCancelCheckInterval : UInt32 := 0xFFFF

/-- `kMaxTimestampBumps`. -/
def kMaxTimestampBumps : UInt32 := 60

/-- How trying the nonces for one timestamp ends. -/
inductive Search where
  | found (block : Block)
  | stopped
  | exhausted

section
variable (P : Primitives)

/-- The loop of `mine_block` with `left` nonces to go for the timestamp of the
    block; `should_stop` may answer differently at every nonce. -/
def tryNonces (shouldStop : UInt32 → Bool) (block : Block) : Nat → Search
  | 0 => .exhausted
  | left+1 =>
    let nonce := kMaxNonce - UInt32.ofNat (left + 1)
    if nonce % kCancelCheckInterval = 0 ∧ shouldStop nonce then .stopped
    else
      let block := { block with nonce }
      let hash := block.computeHash P
      if meetsTarget hash block.difficulty then .found { block with hash } else tryNonces shouldStop block left

/-- The same loop with `left` bumps of the timestamp to go. -/
def tryTimestamps (shouldStop : Nat → UInt32 → Bool) : Block → Nat → Option Block
  | block, 0 =>
    match tryNonces P (shouldStop 0) block kMaxNonce.toNat with
    | .found block => some block
    | .stopped | .exhausted => none
  | block, left+1 =>
    match tryNonces P (shouldStop (left + 1)) block kMaxNonce.toNat with
    | .found block => some block
    | .stopped => none
    | .exhausted => tryTimestamps shouldStop { block with timestamp := block.timestamp + 1 } left

def mineBlock (version : UInt32) (prevHash : HashBytes) (timestamp : UInt64) (difficulty : UInt32)
    (transactions : List Transaction) (shouldStop : Nat → UInt32 → Bool) : Option Block :=
  tryTimestamps P shouldStop { Block.make P version prevHash timestamp transactions with difficulty }
    kMaxTimestampBumps.toNat

variable {P} {block result : Block}

/-- A block that is found has its hash, meets its target, and has only a nonce
    and a hash of its own. -/
structure Solves (P : Primitives) (block result : Block) : Prop where
  own : ∃ nonce hash, result = { block with nonce, hash }
  hash : result.hash = result.computeHash P
  target : meetsTarget result.hash result.difficulty = true

theorem solves_of_tryNonces {shouldStop : UInt32 → Bool} {left : Nat}
    (run : tryNonces P shouldStop block left = .found result) : Solves P block result := by
  induction left generalizing block with
  | zero => cases run
  | succ left ih =>
    rw [tryNonces] at run
    split at run
    · cases run
    · dsimp only at run
      split at run
      · case isTrue target =>
        cases run
        exact ⟨⟨_,_,rfl⟩,rfl,target⟩
      · obtain ⟨⟨nonce,hash,own⟩,hash_eq,target⟩ := ih run
        exact ⟨⟨nonce,hash,own⟩,hash_eq,target⟩

/-- Found without a bump. -/
theorem Solves.at_once (solves : Solves P block result) (left : Nat) :
    ∃ bumps ≤ left, Solves P { block with timestamp := block.timestamp + UInt64.ofNat bumps } result := by
  refine ⟨0,Nat.zero_le left,?_⟩
  rwa [show block.timestamp + UInt64.ofNat 0 = block.timestamp from add_zero _]

theorem solves_of_tryTimestamps {shouldStop : Nat → UInt32 → Bool} {left : Nat}
    (run : tryTimestamps P shouldStop block left = some result) :
    ∃ bumps ≤ left, Solves P { block with timestamp := block.timestamp + UInt64.ofNat bumps } result := by
  induction left generalizing block with
  | zero =>
    rw [tryTimestamps] at run
    split at run
    · case h_1 found =>
      cases run
      exact (solves_of_tryNonces found).at_once 0
    · cases run
    · cases run
  | succ left ih =>
    rw [tryTimestamps] at run
    split at run
    · case h_1 found =>
      cases run
      exact (solves_of_tryNonces found).at_once (left + 1)
    · cases run
    · obtain ⟨bumps,few,solves⟩ := ih run
      refine ⟨bumps + 1,Nat.succ_le_succ few,?_⟩
      rw [UInt64.ofNat_add,add_comm (UInt64.ofNat bumps),← add_assoc]
      exact solves

end

/-- A block that can come out of mining a template: its timestamp may have been
    moved on while the nonces ran out. -/
structure Mined (P : Primitives) (template : BlockTemplate) (rewardAddress : Option Bytes) (block : Block) : Prop where
  parent : block.prevHash = template.prevHash
  difficulty : block.difficulty = template.difficulty
  transactions : block.transactions = withCoinbase rewardAddress template.transactions
  hash : block.hash = block.computeHash P
  target : meetsTarget block.hash block.difficulty = true
  notBefore : template.timestamp ≤ block.timestamp
  notAfter : block.timestamp.toNat ≤ template.timestamp.toNat + kMaxTimestampBumps.toNat

/-- What `mine_block` returns for a template is mined from it, unless the
    timestamp wraps. -/
theorem mined_of_mineBlock {P : Primitives} {template : BlockTemplate} {rewardAddress : Option Bytes} {block : Block}
    {shouldStop : Nat → UInt32 → Bool}
    (room : template.timestamp.toNat + kMaxTimestampBumps.toNat < 2 ^ 64)
    (run : mineBlock P 1 template.prevHash template.timestamp template.difficulty
      (withCoinbase rewardAddress template.transactions) shouldStop = some block) :
    Mined P template rewardAddress block := by
  obtain ⟨bumps,few,⟨nonce,hash,own⟩,hash_eq,target⟩ := solves_of_tryTimestamps run
  have time : block.timestamp.toNat = template.timestamp.toNat + bumps := by
    have stamp : block.timestamp = template.timestamp + UInt64.ofNat bumps := by
      rw [own]
      rfl
    have small : bumps < UInt64.size := by
      rw [UInt64.size]
      omega
    rw [stamp,UInt64.toNat_add,UInt64.toNat_ofNat_of_lt' small,Nat.mod_eq_of_lt (by omega)]
  refine ⟨by rw [own]; rfl,by rw [own],by rw [own]; rfl,hash_eq,target,?_,?_⟩
  · rw [UInt64.le_iff_toNat_le]
    omega
  · omega

/-- What the pending transactions can move or burn. -/
def pendingValue (pool : Mempool) : Nat := (pool.pending.map fun tx => tx.amount.toNat + tx.fee.toNat).sum

/-! ### Ledgers with more funds -/

/-- Every address has at least what it has in another ledger, and the same
    counter. -/
structure Richer (ledger poorer : Ledger) : Prop where
  balance : ∀ address, poorer.balance address ≤ ledger.balance address
  known : ∀ address, (poorer.getBalance address).isSome → (ledger.getBalance address).isSome
  nonce : ∀ address, poorer.nextNonce address = ledger.nextNonce address

section
variable {ledger poorer : Ledger} {tx : Transaction} {txs : List Transaction}

theorem Richer.affords (richer : Richer ledger poorer) (affords : poorer.Affords tx) : ledger.Affords tx := by
  obtain ⟨held,known,enough,next⟩ := affords
  obtain ⟨more,entry⟩ := Option.isSome_iff_exists.mp (richer.known tx.sender (by rw [known]; rfl))
  refine ⟨more,entry,?_,by rw [next,richer.nonce]⟩
  have covered := richer.balance tx.sender
  rw [balance_of_getBalance known,balance_of_getBalance entry] at covered
  exact UInt64.le_trans enough covered

/-- Both ledgers get a balance, the richer one no less. -/
theorem Richer.setBalance (richer : Richer ledger poorer) (address : Bytes) {less more : UInt64} (le : less ≤ more) :
    Richer (ledger.setBalance address more) (poorer.setBalance address less) where
  balance other := by
    rw [balance_setBalance,balance_setBalance]
    split
    · exact le
    · exact richer.balance other
  known other present := by
    rw [known_setBalance_iff] at present ⊢
    exact present.imp_right (richer.known other)
  nonce := richer.nonce

theorem Richer.setNonce (richer : Richer ledger poorer) (address : Bytes) (nonce : UInt64) :
    Richer (ledger.setNonce address nonce) (poorer.setNonce address nonce) where
  balance := richer.balance
  known := richer.known
  nonce other := by
    rw [nextNonce_setNonce,nextNonce_setNonce,richer.nonce]

theorem Richer.credit (richer : Richer ledger poorer)
    (room : (ledger.balance tx.recipient).toNat + tx.amount.toNat < 2 ^ 64) :
    Richer (ledger.credit tx) (poorer.credit tx) := by
  refine richer.setBalance _ ?_
  have less := UInt64.le_iff_toNat_le.mp (richer.balance tx.recipient)
  rw [UInt64.le_iff_toNat_le,UInt64.toNat_add,UInt64.toNat_add,Nat.mod_eq_of_lt (by omega),Nat.mod_eq_of_lt room]
  omega

theorem Richer.debit (richer : Richer ledger poorer) (affords : poorer.Affords tx) :
    Richer (ledger.debit tx) (poorer.debit tx) := by
  obtain ⟨held,known,enough,-⟩ := affords
  rw [← balance_of_getBalance known] at enough
  have less := richer.balance tx.sender
  refine (richer.setBalance _ ?_).setNonce _ _
  rw [UInt64.le_iff_toNat_le,UInt64.toNat_sub_of_le _ _ enough,
    UInt64.toNat_sub_of_le _ _ (UInt64.le_trans enough less)]
  exact Nat.sub_le_sub_right (UInt64.le_iff_toNat_le.mp less) _

/-- A coinbase makes a ledger richer, unless the balance of its recipient wraps. -/
theorem richer_credit (ledger : Ledger) (tx : Transaction)
    (room : (ledger.balance tx.recipient).toNat + tx.amount.toNat < 2 ^ 64) : Richer (ledger.credit tx) ledger where
  balance address := by
    rw [Ledger.credit,balance_setBalance]
    split
    · case isTrue same =>
      rw [same,UInt64.le_iff_toNat_le,UInt64.toNat_add,Nat.mod_eq_of_lt room]
      omega
    · exact UInt64.le_refl _
  known address present := (known_setBalance_iff _ _ _ _).mpr (.inr present)
  nonce _ := rfl

/-- A richer ledger accepts a transaction that a ledger accepts, and is richer
    afterwards. -/
theorem Richer.apply (richer : Richer ledger poorer) (plain : ¬ tx.isCoinbase)
    (payable : tx.amount.toNat + tx.fee.toNat < 2 ^ 64) (bounded : supply ledger < 2 ^ 64)
    (accepts : (poorer.applyTransaction tx).1 = true) :
    (ledger.applyTransaction tx).1 = true ∧ Richer (ledger.applyTransaction tx).2 (poorer.applyTransaction tx).2 ∧
      supply (ledger.applyTransaction tx).2 < 2 ^ 64 := by
  have short := ((apply_accepts_iff poorer tx).mp accepts).resolve_left plain
  have affords := richer.affords short
  have debited := supply_debit payable affords
  have credited := supply_credit (ledger.debit tx) tx
  have recipient := balance_le_supply (ledger.debit tx) tx.recipient
  rw [apply_affords plain short,apply_affords plain affords]
  exact ⟨rfl,(richer.debit short).credit (by omega),by show supply ((ledger.debit tx).credit tx) < _; omega⟩

theorem allAccepted_of_richer (richer : Richer ledger poorer) (plain : ∀ tx ∈ txs, ¬ tx.isCoinbase)
    (payable : ∀ tx ∈ txs, tx.amount.toNat + tx.fee.toNat < 2 ^ 64) (bounded : supply ledger < 2 ^ 64)
    (all : AllAccepted applyTransaction poorer txs) : AllAccepted applyTransaction ledger txs := by
  induction txs generalizing ledger poorer with
  | nil => trivial
  | cons tx rest ih =>
    obtain ⟨plain_tx,plain_rest⟩ := List.forall_mem_cons.mp plain
    obtain ⟨payable_tx,payable_rest⟩ := List.forall_mem_cons.mp payable
    obtain ⟨accepts,richer',bounded'⟩ := richer.apply plain_tx payable_tx bounded all.1
    exact ⟨accepts,ih richer' plain_rest payable_rest bounded' all.2⟩

/-! ### The coinbase rule -/

theorem findCoinbase_plain (plain : ∀ tx ∈ txs, ¬ tx.isCoinbase) (i : Nat) (found : Option Nat) :
    findCoinbase txs i found = some found := by
  induction txs generalizing i with
  | nil => rfl
  | cons tx rest ih =>
    obtain ⟨first,later⟩ := List.forall_mem_cons.mp plain
    rw [findCoinbase,if_neg first]
    exact ih later (i + 1)

/-- Behind the coinbase every fee counts. -/
theorem feesTotal_behind {index i : Nat} (behind : index < i) (total : UInt64) :
    feesTotal index txs i total = txs.foldl (fun total tx => total + tx.fee) total := by
  induction txs generalizing i total with
  | nil => rfl
  | cons tx rest ih =>
    rw [feesTotal,if_neg (by omega),List.foldl_cons]
    exact ih (by omega) _

/-- The loop and the rule compute the same amount. -/
theorem validateCoinbaseAmount_withCoinbase (plain : ∀ tx ∈ txs, ¬ tx.isCoinbase) (rewardAddress : Option Bytes) :
    validateCoinbaseAmount (withCoinbase rewardAddress txs) = true := by
  unfold validateCoinbaseAmount
  cases rewardAddress with
  | none => rw [withCoinbase,findCoinbase_plain plain]
  | some rewardAddress =>
    have first : (coinbase rewardAddress txs).isCoinbase := rfl
    rw [withCoinbase,findCoinbase,if_pos first,Option.isSome_none,if_neg Bool.false_ne_true,findCoinbase_plain plain]
    simp only [List.getElem?_cons_zero,feesTotal,if_true,feesTotal_behind (Nat.zero_lt_one),coinbase,totalFees,
      UInt64.le_refl,decide_true]

theorem totalFees_le (txs : List Transaction) : (totalFees txs).toNat ≤ (txs.map fun tx => tx.fee.toNat).sum := by
  suffices loop : ∀ total : UInt64, (txs.foldl (fun total tx => total + tx.fee) total).toNat ≤
      total.toNat + (txs.map fun tx => tx.fee.toNat).sum by
    simpa [totalFees] using loop 0
  induction txs with
  | nil => simp
  | cons tx rest ih =>
    intro total
    have added : (total + tx.fee).toNat ≤ total.toNat + tx.fee.toNat := by
      rw [UInt64.toNat_add]
      exact Nat.mod_le _ _
    have later := ih (total + tx.fee)
    rw [List.foldl_cons,List.map_cons,List.sum_cons]
    omega

/-- Only the first transaction may be a coinbase. -/
theorem plain_behind (plain : ∀ tx ∈ txs, ¬ tx.isCoinbase) (rewardAddress : Option Bytes) :
    ∀ tx ∈ (withCoinbase rewardAddress txs).drop 1, ¬ tx.isCoinbase := by
  cases rewardAddress with
  | none => exact fun tx member => plain tx (List.mem_of_mem_drop member)
  | some rewardAddress => exact plain

theorem authentic_withCoinbase {P : Primitives} (valid : ∀ tx ∈ txs, tx.hasValidSignature P = .ok true)
    (rewardAddress : Option Bytes) : ∀ tx ∈ withCoinbase rewardAddress txs, tx.Authentic P := by
  have others : ∀ tx ∈ txs, tx.Authentic P := fun tx member => .inr (valid tx member)
  cases rewardAddress with
  | none => exact others
  | some rewardAddress => exact List.forall_mem_cons.mpr ⟨.inl rfl,others⟩

/-- A block of pending transactions that the ledger accepts in order applies with
    the coinbase in front, as long as the money there is then fits 64 bits. -/
theorem allAccepted_withCoinbase (plain : ∀ tx ∈ txs, ¬ tx.isCoinbase)
    (bounded : supply ledger + miningReward.toNat + (txs.map fun tx => tx.amount.toNat + tx.fee.toNat).sum < 2 ^ 64)
    (all : AllAccepted applyTransaction ledger txs) (rewardAddress : Option Bytes) :
    AllAccepted applyTransaction ledger (withCoinbase rewardAddress txs) := by
  cases rewardAddress with
  | none => exact all
  | some rewardAddress =>
    have first : (coinbase rewardAddress txs).isCoinbase := rfl
    have fees : (txs.map fun tx => tx.fee.toNat).sum ≤ (txs.map fun tx => tx.amount.toNat + tx.fee.toNat).sum :=
      List.sum_le_sum fun _ _ => Nat.le_add_left _ _
    have amount : (coinbase rewardAddress txs).amount.toNat ≤
        miningReward.toNat + (txs.map fun tx => tx.fee.toNat).sum := by
      have wrapped : (miningReward + totalFees txs).toNat ≤ miningReward.toNat + (totalFees txs).toNat := by
        rw [UInt64.toNat_add]
        exact Nat.mod_le _ _
      exact wrapped.trans (Nat.add_le_add_left (totalFees_le txs) _)
    have payable : ∀ tx ∈ txs, tx.amount.toNat + tx.fee.toNat < 2 ^ 64 := by
      intro tx member
      have part := List.single_le_sum (fun _ _ => Nat.zero_le _) _
        (List.mem_map_of_mem (f := fun tx : Transaction => tx.amount.toNat + tx.fee.toNat) member)
      omega
    have recipient := balance_le_supply ledger (coinbase rewardAddress txs).recipient
    have credited := supply_credit ledger (coinbase rewardAddress txs)
    have richer := richer_credit ledger (coinbase rewardAddress txs) (by omega)
    refine ⟨(apply_accepts_iff _ _).mpr (.inl first),?_⟩
    rw [apply_coinbase first]
    exact allAccepted_of_richer richer plain payable (by show supply (ledger.credit _) < _; omega) all

end

/-! ### The template -/

section
variable {P : Primitives} {m : ChainManager}

theorem mem_selectTransactions {limit : Nat} {tx : Transaction} (member : tx ∈ m.selectTransactions limit) :
    tx ∈ m.mempool.pending :=
  List.mem_of_mem_take ((accepted_sublist _ _).subset member)

theorem selectTransactions_applies (m : ChainManager) (limit : Nat) :
    AllAccepted applyTransaction m.ledger (m.selectTransactions limit) :=
  allAccepted_accepted apply_measured.refused _ _

theorem selectTransactions_value (m : ChainManager) (limit : Nat) :
    ((m.selectTransactions limit).map fun tx => tx.amount.toNat + tx.fee.toNat).sum ≤ pendingValue m.mempool :=
  (((accepted_sublist _ _).trans (List.take_sublist _ _)).map _).sum_le_sum fun _ _ => Nat.zero_le _

theorem blockTemplate_eq (P : Primitives) (m : ChainManager) (now : UInt64) (maxTxs : Nat) :
    ∃ difficulty median, nextDifficulty P m.params m.blockchain.blockAt m.blockchain.size = .ok difficulty ∧
      medianTimePast m.params.mtpWindow m.blockchain.blockAt m.blockchain.size = .ok median ∧
      m.blockTemplate P now maxTxs =
        .ok ⟨m.blockchain.latest.hash,m.blockchain.size,max now (median + 1),difficulty,m.tipVersion,
          m.selectTransactions maxTxs⟩ := by
  have there : ∀ i < m.blockchain.size, ∃ block, m.blockchain.blockAt i = .ok block :=
    fun _ below => Blockchain.blockAt_below below
  obtain ⟨difficulty,bits⟩ := nextDifficulty_total P m.params there
  obtain ⟨median,read⟩ := medianTimePast_total m.params.mtpWindow there
  refine ⟨difficulty,median,bits,read,?_⟩
  rw [ChainManager.blockTemplate,bits,read]
  rfl

/-- One above the median is later than it unless the median is the last time
    there is. -/
theorem median_lt_iff {now median timestamp : UInt64} (notBefore : max now (median + 1) ≤ timestamp) :
    median < timestamp ↔ median < 0xFFFFFFFFFFFFFFFF := by
  rw [UInt64.lt_iff_toNat_lt,UInt64.lt_iff_toNat_lt,show (0xFFFFFFFFFFFFFFFF : UInt64).toNat = 2 ^ 64 - 1 from rfl]
  have last := timestamp.toNat_lt
  refine ⟨fun later => by omega,fun early => ?_⟩
  have next : (median + 1).toNat = median.toNat + 1 := by
    rw [UInt64.toNat_add,show (1 : UInt64).toNat = 1 from rfl,Nat.mod_eq_of_lt (by omega)]
  have right : median + 1 ≤ max now (median + 1) := by
    show median + 1 ≤ if now ≤ median + 1 then median + 1 else now
    split
    · exact UInt64.le_refl _
    · case isFalse later => exact UInt64.le_of_lt (UInt64.not_le.mp later)
  have above := UInt64.le_iff_toNat_le.mp (UInt64.le_trans right notBefore)
  omega

/-- The timestamp rule for a block that is not too far ahead of the clock. -/
theorem timestampIsValid_iff {params : ConsensusParams} {view : Nat → Except Exn Block} {now median : UInt64}
    {block : Block} {height : Nat} (near : block.timestamp.toNat ≤ now.toNat + params.maxFutureDrift.toNat)
    (read : medianTimePast params.mtpWindow view height = .ok median) :
    timestampIsValid params view now block height = .ok true ↔ median < block.timestamp := by
  have inside : ¬ (block.timestamp > now ∧ block.timestamp - now > params.maxFutureDrift) := by
    rintro ⟨ahead,far⟩
    rw [gt_iff_lt,UInt64.lt_iff_toNat_lt,UInt64.toNat_sub_of_le _ _ (UInt64.le_of_lt ahead)] at far
    omega
  rw [timestampIsValid,if_neg inside,read]
  simp [bind,Except.bind]

/-- In every reachable state in which all the money there is and can come fits 64
    bits, a block that is mined from a template, submitted to a chain manager
    with the chain and the ledger of that state and not too far ahead of its
    clock, is accepted exactly if the median time past is not the last time
    there is. -/
theorem template_accepted_iff (P : Primitives) (mempoolMaxSize : Nat) (params : ConsensusParams)
    (storage : Option Storage) (calls : List Call) (now : UInt64) (maxTxs : Nat) (rewardAddress : Option Bytes) :
    let m := run (ChainManager.after P) (.new P mempoolMaxSize params storage) calls
    supply m.ledger + miningReward.toNat + pendingValue m.mempool < 2 ^ 64 →
    ∃ template median, m.blockTemplate P now maxTxs = .ok template ∧
      medianTimePast m.params.mtpWindow m.blockchain.blockAt m.blockchain.size = .ok median ∧
      ∀ (m' : ChainManager) (reading : Reading) (block : Block),
        m'.blockchain = m.blockchain → m'.ledger = m.ledger → m'.params = m.params →
        Mined P template rewardAddress block →
        block.timestamp.toNat ≤ reading.now.toNat + m.params.maxFutureDrift.toNat →
        ((m'.submitBlock P reading block).1 = .ok (.accepted block) ↔ median < 0xFFFFFFFFFFFFFFFF) := by
  intro m bounded
  obtain ⟨difficulty,median,bits,read,run_eq⟩ := blockTemplate_eq P m now maxTxs
  refine ⟨_,median,run_eq,read,?_⟩
  intro m' reading block blockchain ledger params_eq mined near
  have value := selectTransactions_value m maxTxs
  have valid : ∀ tx ∈ m.selectTransactions maxTxs, tx.hasValidSignature P = .ok true := fun tx member =>
    mempool_valid P mempoolMaxSize params storage calls tx (mem_selectTransactions member)
  have plain : ∀ tx ∈ m.selectTransactions maxTxs, ¬ tx.isCoinbase := fun tx member =>
    Transaction.not_coinbase_of_valid (valid tx member)
  have parent : block.prevHash = m'.blockchain.latest.hash := by rw [mined.parent,blockchain]
  rw [← blockchain,← params_eq] at read bits
  rw [← params_eq] at near
  rw [← median_lt_iff mined.notBefore,← timestampIsValid_iff near read]
  constructor
  · intro accepted
    by_contra early
    have notOn : ¬ OnTip P m' reading.now block := fun tip => early tip.fits.1
    have notOff : ¬ OffTip P m' block := fun off => off.parent parent
    rw [submitBlock_neither notOn notOff] at accepted
    cases accepted
  · intro later
    have proper : Proper P block := by
      refine ⟨mined.target,?_,mined.hash,?_⟩
      · rw [mined.transactions]
        exact validateCoinbaseAmount_withCoinbase plain rewardAddress
      · rw [mined.transactions]
        exact plain_behind plain rewardAddress
    have tip : OnTip P m' reading.now block := ⟨proper,parent,later,by rw [bits,mined.difficulty]⟩
    have signed : ∀ tx ∈ block.transactions, tx.Authentic P := by
      rw [mined.transactions]
      exact authentic_withCoinbase valid rewardAddress
    have applied : AllAccepted applyTransaction m'.ledger block.transactions := by
      rw [mined.transactions,ledger]
      exact allAccepted_withCoinbase plain (by omega) (selectTransactions_applies m maxTxs) rewardAddress
    rw [submitBlock_extends tip signed applied]

end

open Samples

/-- Alice has 50 and pays them while she mines. -/
theorem template_accepted_pay :
    let m := run (ChainManager.after sample) (.new sample 1000 testParams none)
      [.setBalance aliceAddress 50,.submitTransaction pay]
    supply m.ledger + miningReward.toNat + pendingValue m.mempool < 2 ^ 64 ∧
      (m.submitBlock sample reading paidA).1 = .ok (.accepted paidA) := by
  have bounded : supply (run (ChainManager.after sample) (.new sample 1000 testParams none)
      [.setBalance aliceAddress 50,.submitTransaction pay]).ledger + miningReward.toNat +
      pendingValue (run (ChainManager.after sample) (.new sample 1000 testParams none)
        [.setBalance aliceAddress 50,.submitTransaction pay]).mempool < 2 ^ 64 := by decide +kernel
  obtain ⟨template,median,made,read,accepted⟩ := template_accepted_iff sample 1000 testParams none
    [.setBalance aliceAddress 50,.submitTransaction pay] 1000 kMaxTxsPerBlock (some aliceAddress) bounded
  obtain rfl : ⟨genesisHash,1,1000,4,0,[pay]⟩ = template := Except.ok.inj (Eq.trans (by decide +kernel) made)
  obtain rfl : 0 = median := Except.ok.inj (Eq.trans (by decide +kernel) read)
  refine ⟨bounded,(accepted _ reading paidA rfl rfl rfl ⟨?_,?_,?_,?_,?_,?_,?_⟩ ?_).mpr (by decide)⟩
  all_goals decide +kernel

/-- The digests of two blocks at the last time there is. -/
def lateDigests : List (Nat × Nat) := [
  (0x0e83c12cee29dd99,0x70f09a3bdccaff266d39135ba2aa72eed19a95ad5365ab44e65a2de0e488e7b3),
  (0x010c49ab933d5512,0x03e181adf59f4601f42a55e4d6769d83084f94048ecb53af64b56ef99aa917c7),
  (0x17b9044b3047b5f4,0x12c0ff4a114a0564c0e456d1a63dcd979ab84db080bc1b5e5f94d009c226de4f),
  (0x0c6215c0443fb6f7,0x07c3acd31550dbf2a4b6d2dc0f6bfe4bef7b280ccf98b294dc8d9318defe3a4b)]

/-- `sample` with these digests. -/
def lateSample : Primitives :=
  { sample with sha256 := fun data => ofNat (((digests ++ lateDigests).lookup (fingerprint data)).getD 0) }

def late : Block :=
  mined genesisHash 0xFFFFFFFFFFFFFFFF 3 []
    0x03e181adf59f4601f42a55e4d6769d83084f94048ecb53af64b56ef99aa917c7

def tooLate : Block :=
  mined late.hash 0xFFFFFFFFFFFFFFFF 0 []
    0x07c3acd31550dbf2a4b6d2dc0f6bfe4bef7b280ccf98b294dc8d9318defe3a4b

/-- The clock at the last time there is. -/
def lastReading : Reading := ⟨0xFFFFFFFFFFFFFFFF,reading.walk⟩

/-- Over a block at the last time there is, the timestamp of the template falls
    back to the clock, and what is mined from it is rejected. -/
theorem template_rejected_late :
    let m := run (ChainManager.after lateSample) (.new lateSample 1000 testParams none) [.submitBlock lastReading late]
    supply m.ledger + miningReward.toNat + pendingValue m.mempool < 2 ^ 64 ∧
    ∃ template, m.blockTemplate lateSample lastReading.now kMaxTxsPerBlock = .ok template ∧
      Mined lateSample template none tooLate ∧
      tooLate.timestamp.toNat ≤ lastReading.now.toNat + m.params.maxFutureDrift.toNat ∧
      (m.submitBlock lateSample lastReading tooLate).1 = .ok .rejected := by
  refine ⟨by decide +kernel,⟨late.hash,2,0xFFFFFFFFFFFFFFFF,4,1,[]⟩,by decide +kernel,⟨?_,?_,?_,?_,?_,?_,?_⟩,?_,?_⟩
  all_goals decide +kernel

end ForgeChain.Mining
