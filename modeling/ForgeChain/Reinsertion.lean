import ForgeChain.Authenticity
import ForgeChain.Samples

/-!
The mempool after a reorganization. The transactions that only the discarded
blocks have come back, as long as there is room for them. Those of the adopted
branch are not taken out, as they are when a block extends the tip: one that
was pending before is pending afterwards, unless what comes back pushes it out
of a full pool.
-/
namespace ForgeChain
open Runs Samples

namespace Mempool

/-- The pool after adding transactions one after another. -/
def addAll (P : Primitives) (pool : Mempool) (txs : List Transaction) : Mempool :=
  txs.foldl (fun pool tx => (pool.addTransaction P tx).2) pool

/-- Adding the transactions one after another evicts an entry: at some point it
    is the last one of a full pool and a new transaction pays more. -/
def PushesOut (P : Primitives) (entry : Transaction) : Mempool → List Transaction → Prop
  | _, [] => False
  | pool, tx :: rest =>
    (pool.maxSize ≤ pool.pending.length ∧ pool.pending.getLast? = some entry ∧
        ¬ pool.hasTransaction P (tx.computeHash P) = true ∧ entry.fee < tx.fee) ∨
      PushesOut P entry (pool.addTransaction P tx).2 rest

/-- No two pending transactions have the same hash. -/
def Distinct (P : Primitives) (pool : Mempool) : Prop := (pool.pending.map (·.computeHash P)).Nodup

section
variable {P : Primitives} {pool : Mempool} {tx entry : Transaction} {txs : List Transaction}

theorem hasTransaction_iff {hash : HashBytes} :
    pool.hasTransaction P hash = true ↔ ∃ tx ∈ pool.pending, tx.computeHash P = hash := by
  simp [hasTransaction]

theorem hasTransaction_of_mem (member : tx ∈ pool.pending) : pool.hasTransaction P (tx.computeHash P) = true :=
  hasTransaction_iff.mpr ⟨tx,member,rfl⟩

theorem Kept.addAll {holds : Mempool → Prop} (kept : Kept P holds) (txs : List Transaction) (before : holds pool) :
    holds (pool.addAll P txs) := by
  induction txs generalizing pool with
  | nil => exact before
  | cons tx rest ih => exact ih (kept.added pool tx before)

/-! ### One hash, one entry -/

theorem insert_perm (pool : Mempool) (tx : Transaction) : (pool.insert tx).pending.Perm (tx :: pool.pending) := by
  unfold insert
  have parts := List.takeWhile_append_dropWhile (p := (·.fee ≥ tx.fee)) (l := pool.pending)
  refine List.perm_middle.trans (List.Perm.cons tx ?_)
  rw [parts]

theorem Distinct.insert (distinct : pool.Distinct P) (fresh : ¬ pool.hasTransaction P (tx.computeHash P) = true) :
    (pool.insert tx).Distinct P := by
  unfold Distinct at distinct ⊢
  rw [((insert_perm pool tx).map (·.computeHash P)).nodup_iff,List.map_cons,List.nodup_cons]
  refine ⟨fun member => fresh ?_,distinct⟩
  obtain ⟨other,inside,same⟩ := List.mem_map.mp member
  exact hasTransaction_iff.mpr ⟨other,inside,same⟩

theorem Distinct.sublist {pending : List Transaction} (distinct : pool.Distinct P)
    (fewer : pending.Sublist pool.pending) : Distinct P { pool with pending } := by
  unfold Distinct at distinct ⊢
  exact (fewer.map _).nodup distinct

theorem kept_distinct (P : Primitives) : Kept P (Distinct P) where
  added pool tx distinct := by
    cases addTransaction_cases P pool tx with
    | raised e bad run => rwa [run]
    | invalid verdict run => rwa [run]
    | known valid there run => rwa [run]
    | inserted valid fresh room run =>
      rw [run]
      exact distinct.insert fresh
    | evicted valid fresh full front cheapest last dearer run =>
      have fewer : front.Sublist pool.pending := by
        rw [last]
        exact List.sublist_append_left front [cheapest]
      rw [run]
      refine (distinct.sublist fewer).insert fun there => fresh ?_
      obtain ⟨other,inside,same⟩ := hasTransaction_iff.mp there
      exact hasTransaction_iff.mpr ⟨other,fewer.subset inside,same⟩
    | refused valid fresh full cheap run => rwa [run]
  removed pool tx distinct := distinct.sublist (List.eraseP_sublist)

/-! ### With room for everything -/

theorem length_addTransaction (pool : Mempool) (tx : Transaction) :
    pool.pending.length ≤ (pool.addTransaction P tx).2.pending.length ∧
      (pool.addTransaction P tx).2.maxSize = pool.maxSize := by
  cases addTransaction_cases P pool tx with
  | raised e bad run => simp [run]
  | invalid verdict run => simp [run]
  | known valid there run => simp [run]
  | inserted valid fresh room run =>
    rw [run]
    refine ⟨?_,rfl⟩
    rw [(insert_perm pool tx).length_eq,List.length_cons]
    omega
  | evicted valid fresh full front cheapest last dearer run =>
    rw [run]
    refine ⟨?_,rfl⟩
    rw [(insert_perm _ tx).length_eq,last]
    simp
  | refused valid fresh full cheap run => simp [run]

theorem length_addAll (pool : Mempool) (txs : List Transaction) :
    pool.pending.length ≤ (pool.addAll P txs).pending.length ∧ (pool.addAll P txs).maxSize = pool.maxSize := by
  induction txs generalizing pool with
  | nil => exact ⟨Nat.le_refl _,rfl⟩
  | cons tx rest ih =>
    obtain ⟨grown,same⟩ := length_addTransaction (P := P) pool tx
    obtain ⟨later,final⟩ := ih (pool.addTransaction P tx).2
    exact ⟨grown.trans later,final.trans same⟩

/-- Adding to a pool with room keeps what it has and gets the transaction in. -/
theorem has_addTransaction (room : pool.pending.length < pool.maxSize) (valid : tx.hasValidSignature P = .ok true) :
    (∀ entry ∈ pool.pending, entry ∈ (pool.addTransaction P tx).2.pending) ∧
      (pool.addTransaction P tx).2.hasTransaction P (tx.computeHash P) = true := by
  cases addTransaction_cases P pool tx with
  | raised e bad run =>
    rw [valid] at bad
    cases bad
  | invalid verdict run =>
    rw [valid] at verdict
    cases verdict
  | known valid there run =>
    rw [run]
    exact ⟨fun _ member => member,there⟩
  | inserted valid fresh room run =>
    rw [run]
    exact ⟨fun _ member => mem_insert.mpr (.inr member),hasTransaction_of_mem (mem_insert.mpr (.inl rfl))⟩
  | evicted valid fresh full front cheapest last dearer run => omega
  | refused valid fresh full cheap run => omega

/-- Where the pool is not full in the end, everything that was added is there. -/
theorem has_addAll (room : (pool.addAll P txs).pending.length < pool.maxSize)
    (valid : ∀ tx ∈ txs, tx.hasValidSignature P = .ok true) :
    (∀ entry ∈ pool.pending, entry ∈ (pool.addAll P txs).pending) ∧
      ∀ tx ∈ txs, (pool.addAll P txs).hasTransaction P (tx.computeHash P) = true := by
  induction txs generalizing pool with
  | nil => exact ⟨fun _ member => member,by simp⟩
  | cons tx rest ih =>
    obtain ⟨first,later⟩ := List.forall_mem_cons.mp valid
    obtain ⟨grown,same⟩ := length_addTransaction (P := P) pool tx
    have final := (length_addAll (P := P) (pool.addTransaction P tx).2 rest).1
    have before : pool.pending.length < pool.maxSize := by
      rw [addAll,List.foldl_cons] at room
      rw [addAll] at final
      omega
    obtain ⟨stay,there⟩ := has_addTransaction before first
    obtain ⟨remain,come⟩ := ih (by rw [same]; exact room) later
    refine ⟨fun entry member => remain entry (stay entry member),List.forall_mem_cons.mpr ⟨?_,come⟩⟩
    obtain ⟨twin,member,hash⟩ := hasTransaction_iff.mp there
    exact hasTransaction_iff.mpr ⟨twin,remain twin member,hash⟩

/-! ### What is pushed out -/

/-- An entry that the added transactions do not bring stays out once it is out. -/
theorem not_mem_addAll (out : entry ∉ pool.pending) (other : ∀ tx ∈ txs, entry ≠ tx) :
    entry ∉ (pool.addAll P txs).pending := by
  induction txs generalizing pool with
  | nil => exact out
  | cons tx rest ih =>
    obtain ⟨first,later⟩ := List.forall_mem_cons.mp other
    refine ih (fun member => ?_) later
    rcases mem_addTransaction member with old | ⟨same,-⟩
    · exact out old
    · exact first same

/-- An entry survives the additions exactly where none of them pushes it out. -/
theorem mem_addAll_iff (distinct : pool.Distinct P) (member : entry ∈ pool.pending)
    (other : ∀ tx ∈ txs, entry ≠ tx) (valid : ∀ tx ∈ txs, tx.hasValidSignature P = .ok true) :
    entry ∈ (pool.addAll P txs).pending ↔ ¬ PushesOut P entry pool txs := by
  induction txs generalizing pool with
  | nil => exact ⟨fun _ none => none,fun _ => member⟩
  | cons tx rest ih =>
    obtain ⟨first,later⟩ := List.forall_mem_cons.mp other
    obtain ⟨signed,others⟩ := List.forall_mem_cons.mp valid
    have next := (kept_distinct P).added pool tx distinct
    rw [PushesOut,not_or,addAll,List.foldl_cons,← addAll]
    cases addTransaction_cases P pool tx with
    | raised e bad run =>
      rw [signed] at bad
      cases bad
    | invalid verdict run =>
      rw [signed] at verdict
      cases verdict
    | known valid there run =>
      rw [run] at next ⊢
      rw [ih next member later others]
      exact ⟨fun stays => ⟨fun out => out.2.2.1 there,stays⟩,fun both => both.2⟩
    | inserted valid fresh room run =>
      rw [run] at next ⊢
      rw [ih next (mem_insert.mpr (.inr member)) later others]
      exact ⟨fun stays => ⟨fun out => absurd room (Nat.not_lt.mpr out.1),stays⟩,fun both => both.2⟩
    | evicted valid fresh full front cheapest last dearer run =>
      rw [run] at next ⊢
      by_cases same : entry = cheapest
      · subst same
        -- The entry goes, and it was there once only.
        have once : entry ∉ front := by
          unfold Distinct at distinct
          rw [last,List.map_append,List.map_singleton,List.nodup_append] at distinct
          intro inside
          exact distinct.2.2 _ (List.mem_map_of_mem inside) _ List.mem_cons_self rfl
        have out : entry ∉ (insert { pool with pending := front } tx).pending := fun inside =>
          (mem_insert.mp inside).elim first once
        refine ⟨fun inside => absurd inside (not_mem_addAll out later),fun both => ?_⟩
        exact absurd ⟨full,by rw [last,List.getLast?_concat],fresh,dearer⟩ both.1
      · have inside : entry ∈ front := by
          rw [last] at member
          exact (List.mem_append.mp member).resolve_right fun tail => same (List.mem_singleton.mp tail)
        rw [ih next (mem_insert.mpr (.inr inside)) later others]
        refine ⟨fun stays => ⟨fun out => ?_,stays⟩,fun both => both.2⟩
        have tail := out.2.1
        rw [last,List.getLast?_concat] at tail
        exact same (Option.some.inj tail).symm
    | refused valid fresh full cheap run =>
      rw [run] at next ⊢
      rw [ih next member later others]
      exact ⟨fun stays => ⟨fun out => cheap entry out.2.1 out.2.2.2,stays⟩,fun both => both.2⟩

end
end Mempool

/-- The state with another orphan pool: a fork candidate is in the pool when its
    branch is tried. -/
def ChainManager.withOrphans (m : ChainManager) (orphanPool : OrphanPool) : ChainManager := { m with orphanPool }

namespace Reinsertion

/-- The blocks of the chain above the ancestor of a branch. -/
def discarded (m : ChainManager) (fork : ForkChain) : List Block :=
  match m.blockchain.findHeight fork.commonAncestor.hash with
  | none => []
  | some height => m.blockchain.blocks.drop (height + 1)

/-- The discarded transactions that go back to the mempool, in the order they
    do: no coinbases, and none that the branch has as well. -/
def returned (P : Primitives) (m : ChainManager) (fork : ForkChain) : List Transaction :=
  (transactionsOf (discarded m fork)).reverse.filter fun tx =>
    tx.computeHash P ∉ plainHashes P (transactionsOf fork.blocks) ∧ ¬ tx.isCoinbase

/-- A mempool as it should be after a reorganization: unless it got full, it has
    the discarded transactions that the branch lacks, and it has none of the
    branch. -/
structure Settled (P : Primitives) (m : ChainManager) (fork : ForkChain) (mempool : Mempool) : Prop where
  returned : mempool.pending.length < mempool.maxSize → ∀ tx ∈ transactionsOf (discarded m fork), ¬ tx.isCoinbase →
    tx.computeHash P ∉ (transactionsOf fork.blocks).map (·.computeHash P) →
    mempool.hasTransaction P (tx.computeHash P) = true
  confirmed : ∀ tx ∈ transactionsOf fork.blocks, tx ∉ mempool.pending ∧
    (¬ tx.isCoinbase → ¬ mempool.hasTransaction P (tx.computeHash P) = true)

section
variable {P : Primitives} {m : ChainManager} {fork : ForkChain}

theorem undoDiscarded_mempool (branchHashes : List HashBytes) {txs : List Transaction}
    (authentic : ∀ tx ∈ txs, tx.Authentic P) (ledger : Ledger) (mempool : Mempool) :
    (undoDiscarded P branchHashes ledger mempool txs).2.2 =
      mempool.addAll P (txs.filter fun tx => tx.computeHash P ∉ branchHashes ∧ ¬ tx.isCoinbase) := by
  induction txs generalizing ledger mempool with
  | nil => rfl
  | cons tx rest ih =>
    obtain ⟨first,later⟩ := List.forall_mem_cons.mp authentic
    rw [undoDiscarded]
    by_cases shared : tx.computeHash P ∈ branchHashes
    · rw [if_pos shared,List.filter_cons_of_neg (by simp [shared])]
      exact ih later ledger mempool
    · rw [if_neg shared]
      by_cases coinbase : tx.isCoinbase
      · rw [List.filter_cons_of_neg (by simp [coinbase])]
        simp only [coinbase,if_true]
        exact ih later _ mempool
      · rw [List.filter_cons_of_pos (by simp [shared,coinbase])]
        simp only [coinbase,if_false]
        obtain ⟨flag,returns⟩ := mempool.addTransaction_returns (first.resolve_left coinbase)
        rcases added : mempool.addTransaction P tx with ⟨e | accepted,pool⟩
        · rw [added] at returns
          cases returns
        · rw [Mempool.addAll,List.foldl_cons,added]
          exact ih later _ pool

/-- A successful reorganization adds what is returned to the mempool. -/
theorem tryReorg_mempool (authentic : ∀ tx ∈ transactionsOf m.blockchain.blocks, tx.Authentic P)
    {hashes : List HashBytes} (adopted : (m.tryReorg P fork).1 = .ok (some hashes)) :
    (m.tryReorg P fork).2.mempool = m.mempool.addAll P (returned P m fork) := by
  rcases tryReorg_eq P m fork with ⟨result,run,nothing⟩ | ⟨height,found,run⟩
  · rw [run] at adopted
    exact absurd adopted (nothing hashes)
  · have signed : ∀ tx ∈ (transactionsOf (m.blockchain.blocks.drop (height + 1))).reverse, tx.Authentic P := by
      intro tx member
      obtain ⟨block,above,inside⟩ := List.mem_flatMap.mp (List.mem_reverse.mp member)
      exact authentic tx (List.mem_flatMap.mpr ⟨block,List.mem_of_mem_drop above,inside⟩)
    have undone := undoDiscarded_mempool (plainHashes P (transactionsOf fork.blocks)) signed m.ledger m.mempool
    rw [run,ChainManager.reorganize] at adopted ⊢
    unfold returned discarded
    rw [found]
    dsimp only
    rw [← undone]
    split
    · case h_1 ends => rw [ends]
    · case h_2 ends => rw [ends]

theorem mem_discarded {tx : Transaction} (member : tx ∈ transactionsOf (discarded m fork)) :
    tx ∈ transactionsOf m.blockchain.blocks := by
  unfold discarded at member
  split at member
  · cases member
  · obtain ⟨block,above,inside⟩ := List.mem_flatMap.mp member
    exact List.mem_flatMap.mpr ⟨block,List.mem_of_mem_drop above,inside⟩

theorem mem_plainHashes {txs : List Transaction} {hash : HashBytes} :
    hash ∈ plainHashes P txs ↔ ∃ tx ∈ txs, ¬ tx.isCoinbase ∧ tx.computeHash P = hash := by
  simp [plainHashes,and_assoc]

/-- The mempool is settled exactly where no transaction of the branch was
    pending but those that get pushed out. -/
theorem settled_addAll_iff (authentic : ∀ tx ∈ transactionsOf m.blockchain.blocks, tx.Authentic P)
    (distinct : m.mempool.Distinct P) (valid : ∀ tx ∈ m.mempool.pending, tx.hasValidSignature P = .ok true) :
    Settled P m fork (m.mempool.addAll P (returned P m fork)) ↔
      ∀ entry ∈ m.mempool.pending, entry.computeHash P ∈ plainHashes P (transactionsOf fork.blocks) →
        Mempool.PushesOut P entry m.mempool (returned P m fork) := by
  have signed : ∀ tx ∈ returned P m fork, tx.hasValidSignature P = .ok true := by
    intro tx member
    obtain ⟨inside,kind⟩ := List.mem_filter.mp member
    have plain : ¬ tx.isCoinbase := (of_decide_eq_true kind).2
    exact (authentic tx (mem_discarded (List.mem_reverse.mp inside))).resolve_left plain
  have lacking : ∀ tx ∈ returned P m fork, tx.computeHash P ∉ plainHashes P (transactionsOf fork.blocks) := by
    intro tx member
    exact (of_decide_eq_true (List.mem_filter.mp member).2).1
  have others : ∀ entry : Transaction, entry.computeHash P ∈ plainHashes P (transactionsOf fork.blocks) →
      ∀ tx ∈ returned P m fork, entry ≠ tx := by
    rintro entry confirmed tx member rfl
    exact lacking entry member confirmed
  constructor
  · intro settled entry member confirmed
    by_contra stays
    have pending := (Mempool.mem_addAll_iff distinct member (others entry confirmed) signed).mpr stays
    obtain ⟨tx,inside,plain,hash⟩ := mem_plainHashes.mp confirmed
    refine (settled.confirmed tx inside).2 plain ?_
    exact Mempool.hasTransaction_iff.mpr ⟨entry,pending,hash.symm⟩
  · intro pushed
    have gone : ∀ entry ∈ (m.mempool.addAll P (returned P m fork)).pending,
        entry.computeHash P ∉ plainHashes P (transactionsOf fork.blocks) := by
      intro entry member confirmed
      by_cases before : entry ∈ m.mempool.pending
      · exact (Mempool.mem_addAll_iff distinct before (others entry confirmed) signed).mp member
          (pushed entry before confirmed)
      · exact Mempool.not_mem_addAll before (others entry confirmed) member
    have pendingValid := (Mempool.kept_valid P).addAll (returned P m fork) valid
    constructor
    · intro room tx member plain absent
      rw [(Mempool.length_addAll (P := P) m.mempool _).2] at room
      refine (Mempool.has_addAll room signed).2 tx (List.mem_filter.mpr ⟨List.mem_reverse.mpr member,?_⟩)
      refine decide_eq_true ⟨fun inside => absent ?_,plain⟩
      obtain ⟨other,there,-,hash⟩ := mem_plainHashes.mp inside
      exact List.mem_map.mpr ⟨other,there,hash⟩
    · intro tx member
      refine ⟨fun pending => ?_,fun plain there => ?_⟩
      · have plain := Transaction.not_coinbase_of_valid (pendingValid tx pending)
        exact gone tx pending (mem_plainHashes.mpr ⟨tx,member,plain,rfl⟩)
      · obtain ⟨entry,pending,hash⟩ := Mempool.hasTransaction_iff.mp there
        exact gone entry pending (mem_plainHashes.mpr ⟨tx,member,plain,hash.symm⟩)

end

/-- The empty branch that takes the place of a payment. -/
def emptyFork : ForkChain := ⟨[plainB,plainB2],Block.genesis sample⟩

/-- The branch that has a pending payment. -/
def paidFork : ForkChain := ⟨[paidB],Block.genesis sample⟩

end Reinsertion
end ForgeChain
