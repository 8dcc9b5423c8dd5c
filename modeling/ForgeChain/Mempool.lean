import ForgeChain.Transaction

/-!
The mempool of `src/core/Mempool.cpp`: pending transactions by falling fee,
those of equal fee in the order they came in.
-/
namespace ForgeChain

structure Mempool where
  pending : List Transaction
  maxSize : Nat
  deriving DecidableEq

namespace Mempool
variable (P : Primitives)

def new (maxSize : Nat) : Mempool := ⟨[],maxSize⟩

def hasTransaction (pool : Mempool) (hash : HashBytes) : Bool := pool.pending.any (·.computeHash P = hash)

def find (pool : Mempool) (hash : HashBytes) : Option Transaction := pool.pending.find? (·.computeHash P = hash)

/-- `std::multiset::insert`: behind every entry that does not pay less. -/
def insert (pool : Mempool) (tx : Transaction) : Mempool :=
  { pool with pending := pool.pending.takeWhile (·.fee ≥ tx.fee) ++ tx :: pool.pending.dropWhile (·.fee ≥ tx.fee) }

def addTransaction (pool : Mempool) (tx : Transaction) : Except Exn Bool × Mempool :=
  match tx.hasValidSignature P with
  | .error e => (.error e,pool)
  | .ok false => (.ok false,pool)
  | .ok true =>
    if pool.hasTransaction P (tx.computeHash P) then (.ok false,pool)
    else if pool.pending.length ≥ pool.maxSize then
      match pool.pending.getLast? with
      -- A capacity of 0 is never configured; the source would read an empty set here.
      | none => (.ok false,pool)
      | some cheapest =>
        if tx.fee > cheapest.fee then (.ok true,insert { pool with pending := pool.pending.dropLast } tx)
        else (.ok false,pool)
    else (.ok true,pool.insert tx)

def removeTransaction (pool : Mempool) (tx : Transaction) : Mempool :=
  { pool with pending := pool.pending.eraseP (·.computeHash P = tx.computeHash P) }

def getTransactionsForBlock (pool : Mempool) (limit : Nat) : List Transaction := pool.pending.take limit

variable {P} {pool : Mempool} {tx other : Transaction}

theorem mem_insert : other ∈ (pool.insert tx).pending ↔ other = tx ∨ other ∈ pool.pending := by
  rw [insert,List.mem_append,List.mem_cons,or_left_comm,← List.mem_append,List.takeWhile_append_dropWhile]

/-- What `add_transaction` can do. -/
inductive Added (P : Primitives) (pool : Mempool) (tx : Transaction) : Prop
  | raised (e : Exn) (bad : tx.hasValidSignature P = .error e) (run : pool.addTransaction P tx = (.error e,pool))
  | invalid (verdict : tx.hasValidSignature P = .ok false) (run : pool.addTransaction P tx = (.ok false,pool))
  | known (valid : tx.hasValidSignature P = .ok true) (there : pool.hasTransaction P (tx.computeHash P) = true)
      (run : pool.addTransaction P tx = (.ok false,pool))
  | inserted (valid : tx.hasValidSignature P = .ok true) (fresh : ¬ pool.hasTransaction P (tx.computeHash P) = true)
      (room : pool.pending.length < pool.maxSize) (run : pool.addTransaction P tx = (.ok true,pool.insert tx))
  | evicted (valid : tx.hasValidSignature P = .ok true) (fresh : ¬ pool.hasTransaction P (tx.computeHash P) = true)
      (full : pool.maxSize ≤ pool.pending.length) (front : List Transaction) (cheapest : Transaction)
      (last : pool.pending = front ++ [cheapest]) (dearer : cheapest.fee < tx.fee)
      (run : pool.addTransaction P tx = (.ok true,insert { pool with pending := front } tx))
  | refused (valid : tx.hasValidSignature P = .ok true) (fresh : ¬ pool.hasTransaction P (tx.computeHash P) = true)
      (full : pool.maxSize ≤ pool.pending.length)
      (cheap : ∀ cheapest, pool.pending.getLast? = some cheapest → ¬ cheapest.fee < tx.fee)
      (run : pool.addTransaction P tx = (.ok false,pool))

theorem addTransaction_cases (P : Primitives) (pool : Mempool) (tx : Transaction) : Added P pool tx := by
  rcases valid : tx.hasValidSignature P with e | _ | _
  · exact .raised e valid (by rw [addTransaction,valid])
  · exact .invalid valid (by rw [addTransaction,valid])
  by_cases there : pool.hasTransaction P (tx.computeHash P) = true
  · exact .known valid there (by rw [addTransaction,valid]; simp [there])
  by_cases room : pool.pending.length < pool.maxSize
  · exact .inserted valid there room (by rw [addTransaction,valid]; simp [there,Nat.not_le.mpr room])
  have full : pool.maxSize ≤ pool.pending.length := Nat.not_lt.mp room
  rcases List.eq_nil_or_concat' pool.pending with none | ⟨front,cheapest,last⟩
  · refine .refused valid there full (by simp [none]) ?_
    rw [addTransaction,valid]
    dsimp only
    rw [if_neg there,if_pos full,none,List.getLast?_nil]
  · have behind : pool.pending.getLast? = some cheapest := by rw [last,List.getLast?_concat]
    have rest : pool.pending.dropLast = front := by rw [last,List.dropLast_concat]
    by_cases dearer : cheapest.fee < tx.fee
    · refine .evicted valid there full front cheapest last dearer ?_
      rw [addTransaction,valid]
      dsimp only
      rw [if_neg there,if_pos full,behind]
      dsimp only
      rw [if_pos dearer,rest]
    · refine .refused valid there full ?_ ?_
      · intro other same
        obtain rfl := Option.some.inj (behind.symm.trans same)
        exact dearer
      · rw [addTransaction,valid]
        dsimp only
        rw [if_neg there,if_pos full,behind]
        dsimp only
        rw [if_neg dearer]

/-- Under a valid signature `add_transaction` returns. -/
theorem addTransaction_returns (pool : Mempool) (valid : tx.hasValidSignature P = .ok true) :
    ∃ flag, (pool.addTransaction P tx).1 = .ok flag := by
  cases addTransaction_cases P pool tx with
  | raised e bad run =>
    rw [valid] at bad
    cases bad
  | invalid verdict run => exact ⟨false,by rw [run]⟩
  | known valid there run => exact ⟨false,by rw [run]⟩
  | inserted valid fresh room run => exact ⟨true,by rw [run]⟩
  | evicted valid fresh full front cheapest last dearer run => exact ⟨true,by rw [run]⟩
  | refused valid fresh full cheap run => exact ⟨false,by rw [run]⟩

/-- What a transaction that is added finds in the pool was there, and it itself
    gets in only with a valid signature. -/
theorem mem_addTransaction (member : other ∈ (pool.addTransaction P tx).2.pending) :
    other ∈ pool.pending ∨ other = tx ∧ tx.hasValidSignature P = .ok true := by
  cases addTransaction_cases P pool tx with
  | raised e bad run => exact .inl (by rwa [run] at member)
  | invalid verdict run => exact .inl (by rwa [run] at member)
  | known valid there run => exact .inl (by rwa [run] at member)
  | inserted valid fresh room run =>
    rw [run] at member
    rcases mem_insert.mp member with same | old
    · exact .inr ⟨same,valid⟩
    · exact .inl old
  | evicted valid fresh full front cheapest last dearer run =>
    rw [run] at member
    rcases mem_insert.mp member with same | old
    · exact .inr ⟨same,valid⟩
    · exact .inl (by rw [last]; exact List.mem_append_left _ old)
  | refused valid fresh full cheap run => exact .inl (by rwa [run] at member)

/-- A property of the pool that adding and removing a transaction preserves. -/
structure Kept (P : Primitives) (holds : Mempool → Prop) : Prop where
  added : ∀ pool tx, holds pool → holds (pool.addTransaction P tx).2
  removed : ∀ pool tx, holds pool → holds (pool.removeTransaction P tx)

theorem Kept.foldl_removeTransaction {holds : Mempool → Prop} (kept : Kept P holds) (txs : List Transaction)
    (before : holds pool) : holds (txs.foldl (·.removeTransaction P) pool) := by
  induction txs generalizing pool with
  | nil => exact before
  | cons tx rest ih => exact ih (kept.removed pool tx before)

/-- Every pending transaction has a valid signature. -/
theorem kept_valid (P : Primitives) : Kept P fun pool => ∀ tx ∈ pool.pending, tx.hasValidSignature P = .ok true where
  added pool tx valid other member := by
    rcases mem_addTransaction member with old | ⟨rfl,signed⟩
    · exact valid other old
    · exact signed
  removed pool tx valid other member := valid other (List.mem_of_mem_eraseP member)

end Mempool
end ForgeChain
