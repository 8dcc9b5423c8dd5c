import ForgeChain.ChainManager

/-!
What the loops over signatures and transactions and `try_reorg` can do, said
once, each with the state left behind. Later modules case on these and do not
unfold the operations.
-/
namespace ForgeChain
open Tally

section
variable {P : Primitives}

/-! ### Signatures -/

theorem checkSignature_true {tx : Transaction} : checkSignature P tx = .ok true ↔ tx.Authentic P := by
  unfold checkSignature Transaction.Authentic
  by_cases coinbase : tx.isCoinbase <;> simp [coinbase]

/-- The signature test raises exactly on a bad key. -/
theorem checkSignature_error {tx : Transaction} : (∃ e, checkSignature P tx = .error e) ↔ tx.BadKey P := by
  have returns := Transaction.hasValidSignature_returns P tx
  unfold checkSignature
  by_cases coinbase : tx.isCoinbase
  · simp [coinbase,Transaction.BadKey]
  · simp only [coinbase,if_false]
    cases verdict : tx.hasValidSignature P with
    | ok v => simpa [verdict] using returns
    | error e => simpa [verdict] using returns

theorem checkSignatures_true {txs : List Transaction} :
    checkSignatures P txs = .ok true ↔ ∀ tx ∈ txs, tx.Authentic P := by
  induction txs with
  | nil => simp [checkSignatures]
  | cons tx rest ih =>
    rw [checkSignatures,List.forall_mem_cons,← ih,← checkSignature_true]
    rcases checkSignature P tx with e | _ | _ <;> simp [bind,Except.bind]

/-- The loop over the signatures raises at a bad key that only authentic
    transactions come before. -/
theorem checkSignatures_error {txs : List Transaction} :
    (∃ e, checkSignatures P txs = .error e) ↔
      ∃ before tx after, txs = before ++ tx :: after ∧ (∀ t ∈ before, t.Authentic P) ∧ tx.BadKey P := by
  induction txs with
  | nil => simp [checkSignatures]
  | cons tx rest ih =>
    rw [checkSignatures]
    constructor
    · rintro ⟨e,raised⟩
      rcases verdict : checkSignature P tx with e' | _ | _
      · exact ⟨[],tx,rest,rfl,by simp,checkSignature_error.mp ⟨e',verdict⟩⟩
      · simp [verdict,bind,Except.bind] at raised
      · obtain ⟨before,bad,after,rfl,authentic,key⟩ := ih.mp ⟨e,by simpa [verdict,bind,Except.bind] using raised⟩
        refine ⟨tx :: before,bad,after,rfl,?_,key⟩
        exact List.forall_mem_cons.mpr ⟨checkSignature_true.mp verdict,authentic⟩
    · rintro ⟨before,bad,after,split,authentic,key⟩
      cases before with
      | nil =>
        obtain ⟨rfl,rfl⟩ := List.cons.inj split
        obtain ⟨e,raised⟩ := checkSignature_error.mpr key
        exact ⟨e,by simp [raised,bind,Except.bind]⟩
      | cons first before =>
        obtain ⟨rfl,rest_eq⟩ := List.cons.inj split
        obtain ⟨e,raised⟩ := ih.mpr ⟨before,bad,after,rest_eq,fun t member => authentic t (by simp [member]),key⟩
        have verdict := checkSignature_true.mpr (authentic tx (by simp))
        exact ⟨e,by simp [verdict,raised,bind,Except.bind]⟩

/-! ### Applying a block -/

/-- Why the loop over the transactions of a block stops at one of them. -/
inductive Stops (P : Primitives) (ledger : Ledger) (tx : Transaction) : Prop
  | unsigned (verdict : checkSignature P tx = .ok false)
  | refused (verdict : checkSignature P tx = .ok true) (refusal : (ledger.applyTransaction tx).1 = false)

/-- The loop over the transactions of a block ends after all of them, raises at
    one, or stops at one and undoes those before it. -/
theorem applyTransactions_cases (ledger : Ledger) (applied txs : List Transaction) :
    ((∀ tx ∈ txs, tx.Authentic P) ∧ AllAccepted Ledger.applyTransaction ledger txs ∧
      applyTransactions P ledger applied txs = (.ok true,play Ledger.applyTransaction ledger txs)) ∨
    ∃ before tx after, txs = before ++ tx :: after ∧ (∀ t ∈ before, t.Authentic P) ∧
      AllAccepted Ledger.applyTransaction ledger before ∧
      ((∃ e, checkSignature P tx = .error e ∧
          applyTransactions P ledger applied txs = (.error e,play Ledger.applyTransaction ledger before)) ∨
        Stops P (play Ledger.applyTransaction ledger before) tx ∧
          applyTransactions P ledger applied txs =
            (.ok false,play Ledger.reverseTransaction (play Ledger.applyTransaction ledger before)
              (before.reverse ++ applied))) := by
  induction txs generalizing ledger applied with
  | nil => exact .inl ⟨by simp,trivial,rfl⟩
  | cons tx rest ih =>
    rw [applyTransactions]
    rcases verdict : checkSignature P tx with e | _ | _
    · exact .inr ⟨[],tx,rest,rfl,by simp,trivial,.inl ⟨e,verdict,rfl⟩⟩
    · exact .inr ⟨[],tx,rest,rfl,by simp,trivial,.inr ⟨.unsigned verdict,rfl⟩⟩
    · have authentic := checkSignature_true.mp verdict
      rcases result : ledger.applyTransaction tx with ⟨_ | _,next⟩
      · have same : next = ledger := by
          have := Ledger.apply_measured.refused ledger tx (by rw [result])
          rwa [result] at this
        subst same
        exact .inr ⟨[],tx,rest,rfl,by simp,trivial,.inr ⟨.refused verdict (by simp [play,result]),rfl⟩⟩
      · rcases ih next (tx :: applied) with ⟨signed,all,ends⟩ | ⟨before,bad,after,rfl,signed,all,ends⟩
        · refine .inl ⟨List.forall_mem_cons.mpr ⟨authentic,signed⟩,?_,?_⟩
          · simpa [AllAccepted,result] using all
          · simpa [play,result] using ends
        · refine .inr ⟨tx :: before,bad,after,rfl,List.forall_mem_cons.mpr ⟨authentic,signed⟩,?_,?_⟩
          · simpa [AllAccepted,result] using all
          · simpa [play,result,List.append_assoc] using ends

/-- Authentic transactions that the ledger accepts in order are all applied. -/
theorem applyTransactions_all {ledger : Ledger} {txs : List Transaction} (signed : ∀ tx ∈ txs, tx.Authentic P)
    (all : AllAccepted Ledger.applyTransaction ledger txs) (applied : List Transaction) :
    applyTransactions P ledger applied txs = (.ok true,play Ledger.applyTransaction ledger txs) := by
  induction txs generalizing ledger applied with
  | nil => rfl
  | cons tx rest ih =>
    obtain ⟨first,later⟩ := List.forall_mem_cons.mp signed
    rw [applyTransactions,checkSignature_true.mpr first]
    rcases result : ledger.applyTransaction tx with ⟨accepts,next⟩
    obtain ⟨accepted,rest_accepted⟩ := all
    rw [result] at accepted rest_accepted
    subst accepted
    simpa [play,result] using ih later rest_accepted (tx :: applied)

/-- The loop raises at a bad key behind authentic transactions that the ledger
    accepts in order. -/
theorem applyTransactions_raises {ledger : Ledger} {before : List Transaction} {tx : Transaction} {e : Exn}
    (after : List Transaction) (signed : ∀ t ∈ before, t.Authentic P)
    (all : AllAccepted Ledger.applyTransaction ledger before)
    (bad : checkSignature P tx = .error e) (applied : List Transaction) :
    (applyTransactions P ledger applied (before ++ tx :: after)).1 = .error e := by
  induction before generalizing ledger applied with
  | nil => simp [applyTransactions,bad]
  | cons first rest ih =>
    obtain ⟨authentic,later⟩ := List.forall_mem_cons.mp signed
    rw [List.cons_append,applyTransactions,checkSignature_true.mpr authentic]
    rcases result : ledger.applyTransaction first with ⟨accepts,next⟩
    obtain ⟨accepted,rest_accepted⟩ := all
    rw [result] at accepted rest_accepted
    subst accepted
    exact ih later rest_accepted (first :: applied)

/-! ### A reorganization -/

/-- The ledger after a reorganization: what only the discarded blocks have is
    undone, last one first, then what only the branch has is applied. -/
def settledLedger (P : Primitives) (ledger : Ledger) (discardedTxs branchTxs : List Transaction) : Ledger :=
  applyBranch P (plainHashes P discardedTxs)
    (play Ledger.reverseTransaction ledger
      (discardedTxs.reverse.filter (·.computeHash P ∉ plainHashes P branchTxs))) branchTxs

theorem undoDiscarded_ledger {branchHashes : List HashBytes} {ledger ledger' : Ledger} {mempool mempool' : Mempool}
    {txs : List Transaction} (done : undoDiscarded P branchHashes ledger mempool txs = (.ok (),ledger',mempool')) :
    ledger' = play Ledger.reverseTransaction ledger (txs.filter (·.computeHash P ∉ branchHashes)) := by
  induction txs generalizing ledger mempool with
  | nil => simpa [undoDiscarded,play,eq_comm] using (congrArg (fun r => r.2.1) done)
  | cons tx rest ih =>
    rw [undoDiscarded] at done
    by_cases shared : tx.computeHash P ∈ branchHashes
    · simp only [shared,if_true] at done
      simpa [shared] using ih done
    · simp only [shared,if_false] at done
      rw [List.filter_cons_of_pos (by simpa using shared),play]
      split at done
      · exact ih done
      · split at done
        · simp at done
        · exact ih done

/-- Putting authentic transactions back into the mempool does not raise. -/
theorem undoDiscarded_returns (branchHashes : List HashBytes) {txs : List Transaction}
    (authentic : ∀ tx ∈ txs, tx.Authentic P) (ledger : Ledger) (mempool : Mempool) :
    ∃ ledger' mempool', undoDiscarded P branchHashes ledger mempool txs = (.ok (),ledger',mempool') := by
  induction txs generalizing ledger mempool with
  | nil => exact ⟨ledger,mempool,rfl⟩
  | cons tx rest ih =>
    have later := ih (fun t member => authentic t (by simp [member]))
    rw [undoDiscarded]
    split
    · exact later ledger mempool
    · split
      · exact later _ mempool
      · rename_i plain
        have signed := (authentic tx (by simp)).resolve_left plain
        rcases added : mempool.addTransaction P tx with ⟨e | flag,pool⟩
        · -- With a valid signature `add_transaction` does not raise.
          obtain ⟨flag,returned⟩ := Mempool.addTransaction_returns mempool signed
          rw [added] at returned
          cases returned
        · exact later _ pool

theorem undoDiscarded_keeps {holds : Mempool → Prop} (kept : Mempool.Kept P holds) (branchHashes : List HashBytes)
    (ledger : Ledger) {mempool : Mempool} (txs : List Transaction) (before : holds mempool) :
    holds (undoDiscarded P branchHashes ledger mempool txs).2.2 := by
  induction txs generalizing ledger mempool with
  | nil => exact before
  | cons tx rest ih =>
    have added := kept.added mempool tx before
    rw [undoDiscarded]
    split
    · exact ih ledger before
    · split
      · exact ih _ before
      · rcases run : mempool.addTransaction P tx with ⟨e | flag,pool⟩
        · rw [run] at added
          exact added
        · rw [run] at added
          exact ih _ added

/-- What a reorganization onto a branch found at a height leaves of a state,
    whether or not it finishes. -/
structure Reorganized (P : Primitives) (m m' : ChainManager) (fork : ForkChain) (height : Nat) : Prop where
  heavier : isForkHeavier m.blockchain fork = true
  signed : ∀ tx ∈ transactionsOf fork.blocks, tx.Authentic P
  found : m.blockchain.findHeight fork.commonAncestor.hash = some height
  blockchain : m'.blockchain = fork.blocks.foldl .addBlock (m.blockchain.cut height)
  orphanPool : m'.orphanPool = m.orphanPool
  params : m'.params = m.params
  tipVersion : m'.tipVersion = m.tipVersion + 1

/-- The branch is heavier than the chain, signed and grows from the chain. -/
def Adoptable (P : Primitives) (m : ChainManager) (fork : ForkChain) (height : Nat) : Prop :=
  isForkHeavier m.blockchain fork = true ∧ (∀ tx ∈ transactionsOf fork.blocks, tx.Authentic P) ∧
    m.blockchain.findHeight fork.commonAncestor.hash = some height

theorem Reorganized.adoptable {m m' : ChainManager} {fork : ForkChain} {height : Nat}
    (reorg : Reorganized P m m' fork height) : Adoptable P m fork height :=
  ⟨reorg.heavier,reorg.signed,reorg.found⟩

/-- What `try_reorg` can do. It raises on a bad key in the branch before it
    changes anything, and while it puts transactions back into the mempool. -/
inductive Tried (P : Primitives) (m : ChainManager) (fork : ForkChain) : Prop
  | kept (weak : ∀ height, ¬ Adoptable P m fork height) (run : m.tryReorg P fork = (.ok none,m))
  | raised (e : Exn) (heavier : isForkHeavier m.blockchain fork = true)
      (bad : checkSignatures P (transactionsOf fork.blocks) = .error e) (run : m.tryReorg P fork = (.error e,m))
  | interrupted (height : Nat) (m' : ChainManager) (e : Exn) (reorg : Reorganized P m m' fork height)
      (bad : ∃ ledger mempool, undoDiscarded P (plainHashes P (transactionsOf fork.blocks)) m.ledger m.mempool
        (transactionsOf (m.blockchain.blocks.drop (height + 1))).reverse = (.error e,ledger,mempool))
      (run : m.tryReorg P fork = (.error e,m'))
  | adopted (height : Nat) (m' : ChainManager) (reorg : Reorganized P m m' fork height)
      (ledger : m'.ledger = settledLedger P m.ledger (transactionsOf (m.blockchain.blocks.drop (height + 1)))
        (transactionsOf fork.blocks))
      (run : m.tryReorg P fork = (.ok (some (fork.blocks.map Block.hash)),m'))

variable {m m' : ChainManager} {fork : ForkChain}

theorem tryReorg_cases (P : Primitives) (m : ChainManager) (fork : ForkChain) : Tried P m fork := by
  by_cases heavier : isForkHeavier m.blockchain fork = true
  · rcases signatures : checkSignatures P (transactionsOf fork.blocks) with e | _ | _
    · exact .raised e heavier signatures (by simp [ChainManager.tryReorg,heavier,signatures])
    · refine .kept (fun height able => ?_) (by simp [ChainManager.tryReorg,heavier,signatures])
      rw [checkSignatures_true.mpr able.2.1] at signatures
      cases signatures
    · have signed := checkSignatures_true.mp signatures
      rcases found : m.blockchain.findHeight fork.commonAncestor.hash with _ | height
      · refine .kept (fun height able => ?_) ?_
        · have := able.2.2
          rw [found] at this
          cases this
        · simp [ChainManager.tryReorg,heavier,signatures,Blockchain.reorganizeTo,found]
      · rcases undone : undoDiscarded P (plainHashes P (transactionsOf fork.blocks)) m.ledger m.mempool
          (transactionsOf (m.blockchain.blocks.drop (height + 1))).reverse with ⟨e | ⟨⟩,ledger,mempool⟩
        · refine .interrupted height _ e ?_ ⟨ledger,mempool,undone⟩ (by
            simp only [ChainManager.tryReorg,heavier,signatures,Blockchain.reorganizeTo,found,undone,
              not_true_eq_false,if_false]; rfl)
          exact ⟨heavier,signed,found,rfl,rfl,rfl,rfl⟩
        · refine .adopted height _ ?_ ?_ (by
            simp only [ChainManager.tryReorg,heavier,signatures,Blockchain.reorganizeTo,found,undone,
              not_true_eq_false,if_false]; rfl)
          · exact ⟨heavier,signed,found,rfl,rfl,rfl,rfl⟩
          · rw [undoDiscarded_ledger undone]
            rfl
  · exact .kept (fun height able => heavier able.1) (by simp [ChainManager.tryReorg,heavier])

/-- What `try_reorg` does once the branch has passed and its ancestor was found. -/
def ChainManager.reorganize (P : Primitives) (m : ChainManager) (fork : ForkChain) (height : Nat) :
    Except Exn (Option (List HashBytes)) × ChainManager :=
  let blockchain := fork.blocks.foldl .addBlock (m.blockchain.cut height)
  let discardedTxs := transactionsOf (m.blockchain.blocks.drop (height + 1))
  let m := { m with blockchain, tipVersion := m.tipVersion + 1 }
  match undoDiscarded P (plainHashes P (transactionsOf fork.blocks)) m.ledger m.mempool discardedTxs.reverse with
  | (.error e,ledger,mempool) => (.error e,{ m with ledger, mempool })
  | (.ok (),ledger,mempool) =>
    let forkPoint := blockchain.size - fork.blocks.length
    (.ok (some (fork.blocks.map Block.hash)),{ m with
      ledger := applyBranch P (plainHashes P discardedTxs) ledger (transactionsOf fork.blocks)
      mempool
      storage := m.storage.map (·.replaceBlocksFrom forkPoint (blockchain.blocks.drop forkPoint)) })

theorem tryReorg_eq (P : Primitives) (m : ChainManager) (fork : ForkChain) :
    (∃ result, m.tryReorg P fork = (result,m) ∧ ∀ hashes, result ≠ .ok (some hashes)) ∨
      ∃ height, m.blockchain.findHeight fork.commonAncestor.hash = some height ∧
        m.tryReorg P fork = m.reorganize P fork height := by
  by_cases heavier : isForkHeavier m.blockchain fork = true
  swap
  · exact .inl ⟨.ok none,by simp [ChainManager.tryReorg,heavier],by simp⟩
  rcases signatures : checkSignatures P (transactionsOf fork.blocks) with e | _ | _
  · exact .inl ⟨.error e,by simp [ChainManager.tryReorg,heavier,signatures],by simp⟩
  · exact .inl ⟨.ok none,by simp [ChainManager.tryReorg,heavier,signatures],by simp⟩
  rcases found : m.blockchain.findHeight fork.commonAncestor.hash with _ | height
  · exact .inl ⟨.ok none,by simp [ChainManager.tryReorg,heavier,signatures,Blockchain.reorganizeTo,found],by simp⟩
  · refine .inr ⟨height,rfl,?_⟩
    simp only [ChainManager.tryReorg,heavier,signatures,Blockchain.reorganizeTo,found,not_true_eq_false,if_false,
      List.length_map]
    rfl

theorem tryReorg_keeps {holds : Mempool → Prop} (kept : Mempool.Kept P holds) (fork : ForkChain)
    (before : holds m.mempool) : holds (m.tryReorg P fork).2.mempool := by
  rcases tryReorg_eq P m fork with ⟨result,run,-⟩ | ⟨height,-,run⟩
  · rw [run]
    exact before
  · have undone := undoDiscarded_keeps kept (plainHashes P (transactionsOf fork.blocks)) m.ledger
      (transactionsOf (m.blockchain.blocks.drop (height + 1))).reverse before
    rw [run,ChainManager.reorganize]
    split
    · case h_1 ends =>
      rw [ends] at undone
      exact undone
    · case h_2 ends =>
      rw [ends] at undone
      exact undone

/-- The first height of the branch, as `try_reorg` computes it. -/
theorem forkPoint_eq {chain : Blockchain} {height : Nat} (inside : height < chain.size) (blocks : List Block) :
    (blocks.foldl Blockchain.addBlock (chain.cut height)).size - blocks.length = height + 1 := by
  rw [Blockchain.size,Blockchain.blocks_foldl_addBlock,List.length_append,Blockchain.stamp_length,Nat.add_sub_cancel]
  exact Blockchain.size_cut inside

/-- An adopted branch is written over what the storage has from its first height on. -/
theorem tryReorg_storage {hashes : List HashBytes} {height : Nat} (sound : m.blockchain.Sound)
    (run : m.tryReorg P fork = (.ok (some hashes),m'))
    (found : m.blockchain.findHeight fork.commonAncestor.hash = some height) :
    m'.storage = m.storage.map (·.replaceBlocksFrom (height + 1)
      ((fork.blocks.foldl Blockchain.addBlock (m.blockchain.cut height)).blocks.drop (height + 1))) := by
  rcases tryReorg_eq P m fork with ⟨result,same,nothing⟩ | ⟨other,there,same⟩
  · rw [run,Prod.mk.injEq] at same
    exact absurd same.1.symm (nothing hashes)
  · obtain rfl : height = other := Option.some.inj (found.symm.trans there)
    rw [run,ChainManager.reorganize] at same
    split at same
    · cases same
    · cases same
      rw [← forkPoint_eq (sound.below found) fork.blocks]

/-- An adoptable branch is adopted where the discarded transactions are
    authentic. -/
theorem Tried.adopts {height : Nat} (able : Adoptable P m fork height)
    (authentic : ∀ tx ∈ transactionsOf m.blockchain.blocks, tx.Authentic P) :
    ∃ m', Reorganized P m m' fork height ∧
      m'.ledger = settledLedger P m.ledger (transactionsOf (m.blockchain.blocks.drop (height + 1)))
        (transactionsOf fork.blocks) ∧
      m.tryReorg P fork = (.ok (some (fork.blocks.map Block.hash)),m') := by
  cases tryReorg_cases P m fork with
  | kept weak run => exact absurd able (weak height)
  | raised e heavier bad run =>
    rw [checkSignatures_true.mpr able.2.1] at bad
    cases bad
  | interrupted other m' e reorg bad run =>
    obtain ⟨ledger,mempool,raised⟩ := bad
    have discarded : ∀ tx ∈ (transactionsOf (m.blockchain.blocks.drop (other + 1))).reverse, tx.Authentic P := by
      intro tx member
      obtain ⟨block,above,inside⟩ := List.mem_flatMap.mp (List.mem_reverse.mp member)
      exact authentic tx (List.mem_flatMap.mpr ⟨block,List.mem_of_mem_drop above,inside⟩)
    obtain ⟨ledger',mempool',returned⟩ :=
      undoDiscarded_returns (plainHashes P (transactionsOf fork.blocks)) discarded m.ledger m.mempool
    rw [returned] at raised
    cases raised
  | adopted other m' reorg ledger run =>
    obtain rfl : other = height := Option.some.inj (reorg.found.symm.trans able.2.2)
    exact ⟨m',reorg,ledger,run⟩

end
end ForgeChain
