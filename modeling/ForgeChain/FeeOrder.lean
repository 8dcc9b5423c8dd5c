import ForgeChain.Mining
import ForgeChain.Reinsertion
import ForgeChain.TopK

/-!
The order of the mempool and what a block template takes of it. A mempool that
only gains transactions holds the best of all that came with a valid signature,
by fee and then by age (`mempool_keeps_best`). A template looks at the first
transactions of this order and no further, whether the ledger accepts them or
not (`template_takes_iff`).
-/
namespace ForgeChain.FeeOrder
open Runs Tally Samples TopK Mining

/-- What a pending transaction is ranked by. -/
def fee (tx : Transaction) : Nat := tx.fee.toNat

/-- All of a transaction but its signature, which the hash does not cover. -/
def unsigned (tx : Transaction) : Transaction := { tx with signature := [] }

/-- Transactions with the same hash differ in the signature, if at all. -/
def CollisionFree (P : Primitives) (txs : List Transaction) : Prop :=
  ∀ one ∈ txs, ∀ other ∈ txs, one.computeHash P = other.computeHash P → unsigned one = unsigned other

instance (P : Primitives) (txs : List Transaction) : Decidable (CollisionFree P txs) :=
  inferInstanceAs (Decidable (∀ one ∈ txs, _))

/-- A transaction is one of some, by its hash. -/
def Among (P : Primitives) (tx : Transaction) (txs : List Transaction) : Prop :=
  ∃ other ∈ txs, other.computeHash P = tx.computeHash P

instance (P : Primitives) (tx : Transaction) (txs : List Transaction) : Decidable (Among P tx txs) :=
  inferInstanceAs (Decidable (∃ other ∈ txs, _))

/-- The distinct transactions with a valid signature, in the order in which each
    came first. -/
def firsts (P : Primitives) (txs : List Transaction) : List Transaction :=
  txs.foldl (fun seen tx => if tx.hasValidSignature P = .ok true ∧ ¬ Among P tx seen then seen ++ [tx] else seen) []

section
variable {P : Primitives} {pool : Mempool} {tx : Transaction} {txs ranking : List Transaction}

/-! ### The mempool as a ranked list -/

theorem pending_insert (pool : Mempool) (tx : Transaction) : (pool.insert tx).pending = place fee tx pool.pending := by
  have same : (fun other : Transaction => decide (other.fee ≥ tx.fee)) = fun other => decide (fee tx ≤ fee other) :=
    funext fun other => decide_eq_decide.mpr UInt64.le_iff_toNat_le
  rw [Mempool.insert,place,same]

/-- A new transaction is offered to the list of pending ones. -/
theorem pending_addTransaction (valid : tx.hasValidSignature P = .ok true) (fresh : ¬ Among P tx pool.pending) :
    (pool.addTransaction P tx).2.pending = offer fee pool.maxSize tx pool.pending := by
  cases Mempool.addTransaction_cases P pool tx with
  | raised e bad run =>
    rw [valid] at bad
    cases bad
  | invalid verdict run =>
    rw [valid] at verdict
    cases verdict
  | known valid there run => exact absurd (Mempool.hasTransaction_iff.mp there) fresh
  | inserted valid fresh room run => rw [run,pending_insert,offer_of_room room]
  | evicted valid fresh full front cheapest last dearer run =>
    have better : fee cheapest < fee tx := UInt64.lt_iff_toNat_lt.mp dearer
    rw [last] at full
    rw [run,pending_insert,last,offer_of_better full better]
  | refused valid fresh full cheap run =>
    rw [run]
    rcases List.eq_nil_or_concat' pool.pending with none | ⟨front,cheapest,last⟩
    · rw [none] at full ⊢
      simp [offer,Nat.le_zero.mp full]
    · have worse : fee tx ≤ fee cheapest :=
        UInt64.le_iff_toNat_le.mp (UInt64.not_lt.mp (cheap cheapest (by rw [last,List.getLast?_concat])))
      rw [last] at full
      rw [last,offer_of_worse full worse]

theorem addTransaction_invalid (invalid : ¬ tx.hasValidSignature P = .ok true) :
    (pool.addTransaction P tx).2 = pool := by
  cases Mempool.addTransaction_cases P pool tx with
  | raised e bad run => rw [run]
  | invalid verdict run => rw [run]
  | known valid there run => rw [run]
  | inserted valid fresh room run => exact absurd valid invalid
  | evicted valid fresh full front cheapest last dearer run => exact absurd valid invalid
  | refused valid fresh full cheap run => rw [run]

theorem addTransaction_known (known : Among P tx pool.pending) : (pool.addTransaction P tx).2 = pool := by
  have there := Mempool.hasTransaction_iff.mpr known
  cases Mempool.addTransaction_cases P pool tx with
  | raised e bad run => rw [run]
  | invalid verdict run => rw [run]
  | known valid there run => rw [run]
  | inserted valid fresh room run => exact absurd there fresh
  | evicted valid fresh full front cheapest last dearer run => exact absurd there fresh
  | refused valid fresh full cheap run => rw [run]

/-! ### Only additions -/

theorem firsts_concat (P : Primitives) (txs : List Transaction) (tx : Transaction) :
    firsts P (txs ++ [tx]) =
      if tx.hasValidSignature P = .ok true ∧ ¬ Among P tx (firsts P txs) then firsts P txs ++ [tx]
      else firsts P txs := by
  rw [firsts,List.foldl_append]
  rfl

theorem firsts_sublist (P : Primitives) (txs : List Transaction) : (firsts P txs).Sublist txs := by
  induction txs using List.reverseRecOn with
  | nil => exact .slnil
  | append_singleton txs tx ih =>
    rw [firsts_concat]
    split
    · exact ih.append (List.Sublist.refl [tx])
    · exact ih.trans (List.sublist_append_left txs [tx])

theorem fee_of_unsigned {one other : Transaction} (same : unsigned one = unsigned other) : fee one = fee other := by
  have := congrArg Transaction.fee same
  exact congrArg UInt64.toNat this

/-- The mempool holds the beginning of the ranking of all that came. -/
structure HoldsBest (P : Primitives) (txs ranking : List Transaction) (pool : Mempool) : Prop where
  ranks : Ranking fee (firsts P txs) ranking
  pending : pool.pending = ranking.take pool.maxSize

theorem HoldsBest.among (best : HoldsBest P txs ranking pool) (there : Among P tx pool.pending) :
    Among P tx (firsts P txs) := by
  obtain ⟨other,member,same⟩ := there
  rw [best.pending] at member
  exact ⟨other,best.ranks.perm.subset (List.mem_of_mem_take member),same⟩

/-- A transaction that came before changes nothing, whether it is still pending
    or was let go. -/
theorem HoldsBest.repeated (positive : 0 < pool.maxSize) (best : HoldsBest P txs ranking pool)
    (free : CollisionFree P (txs ++ [tx])) (repeated : Among P tx (firsts P txs)) :
    (pool.addTransaction P tx).2.pending = pool.pending := by
  by_cases valid : tx.hasValidSignature P = .ok true
  swap
  · rw [addTransaction_invalid valid]
  by_cases known : Among P tx pool.pending
  · rw [addTransaction_known known]
  obtain ⟨other,member,same⟩ := repeated
  have came : other ∈ txs ++ [tx] := List.mem_append_left _ ((firsts_sublist P txs).subset member)
  have fees := fee_of_unsigned (free other came tx (by simp) same)
  have gone : other ∈ ranking.drop pool.maxSize := by
    have ranked := best.ranks.perm.symm.subset member
    rw [← List.take_append_drop pool.maxSize ranking,List.mem_append] at ranked
    rcases ranked with pending | gone
    · exact absurd ⟨other,by rwa [best.pending],same⟩ known
    · exact gone
  rw [pending_addTransaction valid known,best.pending,offer_gone positive best.ranks.falling gone fees.ge]

theorem HoldsBest.step (positive : 0 < pool.maxSize) (best : HoldsBest P txs ranking pool)
    (free : CollisionFree P (txs ++ [tx])) :
    ∃ ranking', HoldsBest P (txs ++ [tx]) ranking' (pool.addTransaction P tx).2 := by
  have size := (Mempool.length_addTransaction (P := P) pool tx).2
  by_cases counts : tx.hasValidSignature P = .ok true ∧ ¬ Among P tx (firsts P txs)
  · obtain ⟨valid,fresh⟩ := counts
    refine ⟨place fee tx ranking,?_,?_⟩
    · rw [firsts_concat,if_pos ⟨valid,fresh⟩]
      exact best.ranks.place tx
    · rw [pending_addTransaction valid (fun there => fresh (best.among there)),size,best.pending,
        offer_take positive best.ranks.falling]
  · refine ⟨ranking,?_,?_⟩
    · rw [firsts_concat,if_neg counts]
      exact best.ranks
    · rw [size,← best.pending]
      by_cases valid : tx.hasValidSignature P = .ok true
      · exact best.repeated positive free (not_not.mp fun fresh => counts ⟨valid,fresh⟩)
      · rw [addTransaction_invalid valid]

theorem CollisionFree.of_append {before after : List Transaction} (free : CollisionFree P (before ++ after)) :
    CollisionFree P before :=
  fun one first other second => free one (List.mem_append_left _ first) other (List.mem_append_left _ second)

theorem holdsBest_addAll (P : Primitives) {capacity : Nat} (positive : 0 < capacity) (free : CollisionFree P txs) :
    ∃ ranking, HoldsBest P txs ranking ((Mempool.new capacity).addAll P txs) := by
  induction txs using List.reverseRecOn with
  | nil => exact ⟨[],.nil,by simp [Mempool.addAll,Mempool.new]⟩
  | append_singleton txs tx ih =>
    obtain ⟨ranking,best⟩ := ih free.of_append
    have size : ((Mempool.new capacity).addAll P txs).maxSize = capacity := (Mempool.length_addAll _ txs).2
    have last : (Mempool.new capacity).addAll P (txs ++ [tx]) =
        (((Mempool.new capacity).addAll P txs).addTransaction P tx).2 := by
      rw [Mempool.addAll,List.foldl_append]
      rfl
    rw [last]
    exact best.step (by rwa [size]) free

/-! ### Additions and removals -/

/-- The pending transactions stand by falling fee. -/
def Falling (pool : Mempool) : Prop := pool.pending.Pairwise fun left right => right.fee ≤ left.fee

theorem falling_iff : Falling pool ↔ pool.pending.Pairwise fun left right => fee right ≤ fee left := by
  simp only [Falling,fee,UInt64.le_iff_toNat_le]

theorem kept_falling (P : Primitives) : Mempool.Kept P Falling where
  added pool tx falling := by
    cases Mempool.addTransaction_cases P pool tx with
    | raised e bad run => rwa [run]
    | invalid verdict run => rwa [run]
    | known valid there run => rwa [run]
    | inserted valid fresh room run =>
      rw [run,falling_iff,pending_insert]
      exact place_falling tx (falling_iff.mp falling)
    | evicted valid fresh full front cheapest last dearer run =>
      rw [falling_iff,last] at falling
      rw [run,falling_iff,pending_insert]
      exact place_falling tx (List.pairwise_append.mp falling).1
    | refused valid fresh full cheap run => rwa [run]
  removed pool tx falling := falling.sublist List.eraseP_sublist

/-- The capacity is what it was, and no more is pending. -/
theorem kept_bounded (P : Primitives) (capacity : Nat) :
    Mempool.Kept P fun pool => pool.maxSize = capacity ∧ pool.pending.length ≤ capacity where
  added pool tx bounded := by
    obtain ⟨rfl,short⟩ := bounded
    cases Mempool.addTransaction_cases P pool tx with
    | raised e bad run => rw [run]; exact ⟨rfl,short⟩
    | invalid verdict run => rw [run]; exact ⟨rfl,short⟩
    | known valid there run => rw [run]; exact ⟨rfl,short⟩
    | inserted valid fresh room run =>
      rw [run]
      refine ⟨rfl,?_⟩
      rw [pending_insert,length_place]
      exact room
    | evicted valid fresh full front cheapest last dearer run =>
      rw [run]
      refine ⟨rfl,?_⟩
      rw [last,List.length_append] at short
      rw [pending_insert,length_place]
      exact short
    | refused valid fresh full cheap run => rw [run]; exact ⟨rfl,short⟩
  removed pool tx bounded := ⟨bounded.1,List.length_eraseP_le.trans bounded.2⟩

/-- Removing takes out every transaction of the hash, as there is at most one. -/
theorem pending_removeTransaction (distinct : pool.Distinct P) (tx : Transaction) :
    (pool.removeTransaction P tx).pending = pool.pending.filter (·.computeHash P ≠ tx.computeHash P) := by
  obtain ⟨pending,maxSize⟩ := pool
  unfold Mempool.Distinct at distinct
  show pending.eraseP _ = _
  dsimp only at distinct ⊢
  induction pending with
  | nil => rfl
  | cons first rest ih =>
    rw [List.map_cons,List.nodup_cons] at distinct
    by_cases same : first.computeHash P = tx.computeHash P
    · have others : ∀ other ∈ rest, other.computeHash P ≠ tx.computeHash P := by
        intro other member equal
        exact distinct.1 (List.mem_map.mpr ⟨other,member,equal.trans same.symm⟩)
      simpa [same] using (List.filter_eq_self.mpr (by simpa using others)).symm
    · simpa [same] using ih distinct.2

/-- A call that changes a mempool. -/
inductive PoolCall where
  | addTransaction (tx : Transaction)
  | removeTransaction (tx : Transaction)

def after (P : Primitives) (pool : Mempool) : PoolCall → Mempool
  | .addTransaction tx => (pool.addTransaction P tx).2
  | .removeTransaction tx => pool.removeTransaction P tx

theorem kept_run {holds : Mempool → Prop} (kept : Mempool.Kept P holds) (calls : List PoolCall) (before : holds pool) :
    holds (run (after P) pool calls) := by
  refine run_keeps (fun pool call before => ?_) calls before
  cases call with
  | addTransaction tx => exact kept.added pool tx before
  | removeTransaction tx => exact kept.removed pool tx before

end

/-- A mempool to which transactions are only added holds the best of them, by
    fee and then by age. After removals too it is short, by falling fee and
    without two of one hash, and a removal takes exactly its hash out. -/
theorem mempool_keeps_best (P : Primitives) {capacity : Nat} (positive : 1 ≤ capacity) :
    (∀ txs, CollisionFree P txs → ∃ ranking, ranking.Perm (firsts P txs) ∧ Ranking fee (firsts P txs) ranking ∧
      ((Mempool.new capacity).addAll P txs).pending = ranking.take capacity) ∧
    ∀ calls, (run (after P) (Mempool.new capacity) calls).pending.length ≤ capacity ∧
      ((run (after P) (Mempool.new capacity) calls).pending.map (·.computeHash P)).Nodup ∧
      (run (after P) (Mempool.new capacity) calls).pending.Pairwise (fun left right => right.fee ≤ left.fee) ∧
      ∀ tx, ((run (after P) (Mempool.new capacity) calls).removeTransaction P tx).pending =
        (run (after P) (Mempool.new capacity) calls).pending.filter (·.computeHash P ≠ tx.computeHash P) := by
  refine ⟨fun txs free => ?_,fun calls => ?_⟩
  · obtain ⟨ranking,best⟩ := holdsBest_addAll P positive free
    refine ⟨ranking,best.ranks.perm,best.ranks,?_⟩
    rw [best.pending,show ((Mempool.new capacity).addAll P txs).maxSize = capacity from (Mempool.length_addAll _ txs).2]
  · have distinct : (run (after P) (Mempool.new capacity) calls).Distinct P :=
      kept_run (Mempool.kept_distinct P) calls List.nodup_nil
    have falling : Falling (run (after P) (Mempool.new capacity) calls) := kept_run (kept_falling P) calls .nil
    have bounded : _ ∧ (run (after P) (Mempool.new capacity) calls).pending.length ≤ capacity :=
      kept_run (kept_bounded P capacity) calls ⟨rfl,Nat.zero_le _⟩
    exact ⟨bounded.2,distinct,falling,pending_removeTransaction distinct⟩

/-- `sample`, where Alice has signed every message and the digests that are not
    in the table are fingerprints. -/
def generous : Primitives :=
  { sample with
    sha256 := fun data => ofNat ((digests.lookup (fingerprint data)).getD (fingerprint data))
    digestVerify := fun _ _ _ => true }

/-- A payment of Alice to Bob that Alice has signed. -/
def offering (fee nonce : UInt64) : Transaction := { pay with fee, nonce }

/-- A forged and a repeated transaction do not count, of two with the same fee
    the later one is let go, and it does not come back. -/
theorem mempool_keeps_best_two :
    CollisionFree generous [offering 1 0,offering 2 0,forged,offering 1 0,offering 2 1,offering 3 0,offering 2 1] ∧
      (∃ ranking, Ranking fee [offering 1 0,offering 2 0,offering 2 1,offering 3 0] ranking ∧
        ((Mempool.new 2).addAll generous
          [offering 1 0,offering 2 0,forged,offering 1 0,offering 2 1,offering 3 0,offering 2 1]).pending =
            ranking.take 2) ∧
      ((Mempool.new 2).addAll generous
        [offering 1 0,offering 2 0,forged,offering 1 0,offering 2 1,offering 3 0,offering 2 1]).pending =
          [offering 3 0,offering 2 0] := by
  have free : CollisionFree generous
      [offering 1 0,offering 2 0,forged,offering 1 0,offering 2 1,offering 3 0,offering 2 1] := by decide +kernel
  obtain ⟨ranking,-,ranks,pending⟩ := (mempool_keeps_best generous (by decide : 1 ≤ 2)).1 _ free
  have counted :
      firsts generous [offering 1 0,offering 2 0,forged,offering 1 0,offering 2 1,offering 3 0,offering 2 1] =
      [offering 1 0,offering 2 0,offering 2 1,offering 3 0] := by decide +kernel
  rw [counted] at ranks
  exact ⟨free,⟨ranking,ranks,pending⟩,by decide +kernel⟩

/-! ### Templates -/

/-- A template has transactions exactly where the ledger accepts one of the
    first pending ones, as many as the template has room for. -/
theorem template_takes_iff (P : Primitives) (m : ChainManager) (now : UInt64) (limit : Nat) :
    ∃ template, m.blockTemplate P now limit = .ok template ∧
      (template.transactions ≠ [] ↔ ∃ tx ∈ m.mempool.pending.take limit, (m.ledger.applyTransaction tx).1 = true) := by
  obtain ⟨difficulty,median,-,-,made⟩ := blockTemplate_eq P m now limit
  exact ⟨_,made,accepted_ne_nil_iff Ledger.apply_measured.refused m.ledger (m.mempool.pending.take limit)⟩

/-- Once Alice's reward is spent, a payment with the nonce of the spent one pays
    the higher fee, and a template of one transaction is empty, though the ledger
    would accept the payment behind it. -/
theorem template_starved :
    let m := run (ChainManager.after generous) (.new generous 1000 testParams none)
      [.submitBlock reading paidA,.submitTransaction (offering 1 0),.submitTransaction { nothing with nonce := 1 }]
    (∃ tx ∈ m.mempool.pending, (m.ledger.applyTransaction tx).1 = true) ∧
      (m.blockTemplate generous 2000 1).map BlockTemplate.transactions = .ok [] := by
  decide +kernel

end ForgeChain.FeeOrder
