import ForgeChain.Ledger
import ForgeChain.Runs

/-!
Sequences of transactions on the ledger. A ledger that gives every address what
another one gives it accepts the same transactions, but for those that cost
nothing: their senders must be known, and a ledger may know an address that
another one with the same holdings does not (`Knows`). Applied transactions can
be taken back in reverse unless a recipient's balance has wrapped (`HasRoom`);
the holdings are then the old ones, but the addresses stay known.
-/
namespace ForgeChain.Ledger
open Tally Runs

/-- The ledger after trying a transaction. -/
def tryTransaction (ledger : Ledger) (tx : Transaction) : Ledger := (ledger.applyTransaction tx).2

/-- The transaction has a price, or the ledger has an entry for its sender. -/
def Knows (ledger : Ledger) (tx : Transaction) : Prop :=
  tx.isCoinbase ∨ tx.amount + tx.fee ≠ 0 ∨ (ledger.getBalance tx.sender).isSome

/-- Paying the recipient does not take its balance past 64 bits. -/
def HasRoom (ledger : Ledger) (tx : Transaction) : Prop :=
  ((if tx.isCoinbase then ledger else ledger.debit tx).balance tx.recipient).toNat + tx.amount.toNat < 2 ^ 64

instance (ledger : Ledger) (tx : Transaction) : Decidable (ledger.Knows tx) := inferInstanceAs (Decidable (_ ∨ _))
instance (ledger : Ledger) (tx : Transaction) : Decidable (ledger.HasRoom tx) := inferInstanceAs (Decidable (_ < _))

section
variable {ledger left right : Ledger} {tx : Transaction} {txs : List Transaction}

theorem Agrees.refl (ledger : Ledger) : ledger.Agrees ledger := ⟨fun _ => rfl,fun _ => rfl⟩

theorem Agrees.symm (agrees : left.Agrees right) : right.Agrees left :=
  ⟨fun address => (agrees.1 address).symm,fun address => (agrees.2 address).symm⟩

theorem Agrees.trans {middle : Ledger} (first : left.Agrees middle) (second : middle.Agrees right) : left.Agrees right :=
  ⟨fun address => (first.1 address).trans (second.1 address),fun address => (first.2 address).trans (second.2 address)⟩

theorem balance_of_getBalance {held : UInt64} {address : Bytes} (known : ledger.getBalance address = some held) :
    ledger.balance address = held := by
  rw [balance,known,Option.getD_some]

/-! ### Ledgers that agree -/

theorem Affords.of_agrees (agrees : left.Agrees right) (plain : ¬ tx.isCoinbase) (knows : right.Knows tx)
    (affords : left.Affords tx) : right.Affords tx := by
  obtain ⟨held,known,enough,next⟩ := affords
  have same : right.balance tx.sender = held := by rw [← agrees.1,balance_of_getBalance known]
  cases entry : right.getBalance tx.sender with
  | some other =>
    rw [balance_of_getBalance entry] at same
    exact ⟨other,entry,by rwa [same],by rw [next,agrees.2]⟩
  | none =>
    -- An unknown sender holds 0, so the transaction costs nothing and its sender must be known.
    have zero : held = 0 := by rw [← same,balance,entry,Option.getD_none]
    subst zero
    have free : tx.amount + tx.fee = 0 := UInt64.le_antisymm enough (UInt64.zero_le)
    rcases knows with coinbase | price | present
    · exact absurd coinbase plain
    · exact absurd free price
    · simp [entry] at present

/-- Ledgers that agree still do after a transaction that both accept. -/
theorem Agrees.apply (agrees : left.Agrees right) (onLeft : (left.applyTransaction tx).1 = true)
    (onRight : (right.applyTransaction tx).1 = true) : (left.tryTransaction tx).Agrees (right.tryTransaction tx) := by
  rw [agrees_iff] at agrees ⊢
  rw [tryTransaction,tryTransaction,apply_measured.accepted _ _ onLeft,apply_measured.accepted _ _ onRight,agrees]

theorem accepts_of_agrees (agrees : left.Agrees right) (knows : right.Knows tx)
    (accepts : (left.applyTransaction tx).1 = true) : (right.applyTransaction tx).1 = true := by
  rw [apply_accepts_iff] at accepts ⊢
  by_cases coinbase : tx.isCoinbase
  · exact .inl coinbase
  · exact .inr ((accepts.resolve_left coinbase).of_agrees agrees coinbase knows)

/-- What one ledger accepts in order, a ledger that agrees with it accepts
    where it knows the senders of the transactions without a price. -/
theorem allAccepted_of_agrees (agrees : left.Agrees right) (knows : Along tryTransaction Knows right txs)
    (all : AllAccepted applyTransaction left txs) :
    AllAccepted applyTransaction right txs ∧
      (play applyTransaction left txs).Agrees (play applyTransaction right txs) := by
  induction txs generalizing left right with
  | nil => exact ⟨trivial,agrees⟩
  | cons tx rest ih =>
    have accepts := accepts_of_agrees agrees knows.1 all.1
    obtain ⟨later,final⟩ := ih (agrees.apply all.1 accepts) knows.2 all.2
    exact ⟨⟨accepts,later⟩,final⟩

/-! ### Taking transactions back -/

/-- One ledger agrees with another and knows every address that the other does. -/
structure Covers (ledger smaller : Ledger) : Prop where
  agrees : ledger.Agrees smaller
  known : ∀ address, (smaller.getBalance address).isSome → (ledger.getBalance address).isSome

theorem known_setBalance_iff (ledger : Ledger) (address other : Bytes) (amount : UInt64) :
    ((ledger.setBalance address amount).getBalance other).isSome ↔
      other = address ∨ (ledger.getBalance other).isSome := by
  unfold getBalance setBalance
  by_cases same : other = address
  · subst same
    simp
  · rw [Finmap.lookup_insert_of_ne _ same]
    exact ⟨.inr,fun known => known.resolve_left same⟩

theorem known_credit (ledger : Ledger) (tx : Transaction) {address : Bytes}
    (known : address = tx.recipient ∨ (ledger.getBalance address).isSome) :
    ((ledger.credit tx).getBalance address).isSome :=
  (known_setBalance_iff ledger _ _ _).mpr known

theorem known_debit (ledger : Ledger) (tx : Transaction) {address : Bytes}
    (known : (ledger.getBalance address).isSome) : ((ledger.debit tx).getBalance address).isSome :=
  (known_setBalance_iff ledger _ _ _).mpr (.inr known)

/-- An accepted transaction leaves its recipient and all known addresses known. -/
theorem known_apply (accepts : (ledger.applyTransaction tx).1 = true) {address : Bytes}
    (known : address = tx.recipient ∨ (ledger.getBalance address).isSome) :
    ((ledger.tryTransaction tx).getBalance address).isSome := by
  unfold tryTransaction
  by_cases coinbase : tx.isCoinbase
  · rw [apply_coinbase coinbase]
    exact known_credit ledger tx known
  · rw [apply_affords coinbase (((apply_accepts_iff ledger tx).mp accepts).resolve_left coinbase)]
    exact known_credit _ tx (known.imp_right (known_debit ledger tx))

theorem known_reverse (undoable : ledger.Undoable tx) {address : Bytes} (known : (ledger.getBalance address).isSome) :
    ((ledger.reverseTransaction tx).2.getBalance address).isSome := by
  rw [reverse_undoable undoable]
  refine (known_setBalance_iff _ _ _ _).mpr (.inr ?_)
  split
  · exact known
  · exact (known_setBalance_iff _ _ _ _).mpr (.inr known)

/-- There was room for a transaction exactly if it leaves the recipient no less
    than its amount. -/
theorem hasRoom_iff (accepts : (ledger.applyTransaction tx).1 = true) :
    ledger.HasRoom tx ↔ tx.amount ≤ (ledger.tryTransaction tx).balance tx.recipient := by
  have paid : (ledger.tryTransaction tx).balance tx.recipient =
      (if tx.isCoinbase then ledger else ledger.debit tx).balance tx.recipient + tx.amount := by
    by_cases coinbase : tx.isCoinbase
    · rw [tryTransaction,apply_coinbase coinbase,credit,balance_setBalance,if_pos rfl,if_pos coinbase]
    · rw [tryTransaction,apply_affords coinbase (((apply_accepts_iff ledger tx).mp accepts).resolve_left coinbase),credit,
        balance_setBalance,if_pos rfl,if_neg coinbase]
  rw [paid,HasRoom,UInt64.le_iff_toNat_le,UInt64.toNat_add]
  have before := ((if tx.isCoinbase then ledger else ledger.debit tx).balance tx.recipient).toNat_lt
  have amount := tx.amount.toNat_lt
  omega

/-- A transaction that was applied with room can be taken back. -/
theorem undoable_apply (accepts : (ledger.applyTransaction tx).1 = true) (room : ledger.HasRoom tx) :
    (ledger.tryTransaction tx).Undoable tx := by
  obtain ⟨held,known⟩ := Option.isSome_iff_exists.mp (known_apply accepts (.inl rfl))
  refine ⟨⟨held,known,?_⟩,?_⟩
  · rw [← balance_of_getBalance known]
    exact (hasRoom_iff accepts).mp room
  · by_cases coinbase : tx.isCoinbase
    · exact .inl coinbase
    · right
      rw [tryTransaction,apply_affords coinbase (((apply_accepts_iff ledger tx).mp accepts).resolve_left coinbase),
        credit,nextNonce_setBalance,debit,nextNonce_setNonce,if_pos rfl]

theorem Undoable.of_covers {smaller : Ledger} (covers : ledger.Covers smaller) (undoable : smaller.Undoable tx) :
    ledger.Undoable tx := by
  obtain ⟨⟨held,known,enough⟩,next⟩ := undoable
  obtain ⟨other,entry⟩ := Option.isSome_iff_exists.mp (covers.known tx.recipient (by simp [known]))
  refine ⟨⟨other,entry,?_⟩,?_⟩
  · rwa [← balance_of_getBalance entry,covers.agrees.1,balance_of_getBalance known]
  · rwa [covers.agrees.2]

/-- Taking back a transaction that was applied with room gives the old holdings. -/
theorem Covers.reverse {applied : Ledger} (accepts : (ledger.applyTransaction tx).1 = true) (room : ledger.HasRoom tx)
    (covers : applied.Covers (ledger.tryTransaction tx)) : (applied.reverseTransaction tx).2.Covers ledger := by
  have undoable := (undoable_apply accepts room).of_covers covers
  refine ⟨?_,fun address known => known_reverse undoable (covers.known address (known_apply accepts (.inr known)))⟩
  have before := agrees_iff.mp covers.agrees
  rw [tryTransaction,apply_measured.accepted _ _ accepts] at before
  rw [agrees_iff,reverse_measured.accepted _ _ ((reverse_accepts_iff applied tx).mpr undoable),before,
    add_neg_cancel_right]

/-- Taking back applied transactions, last one first, gives the old holdings. -/
theorem covers_rollback (all : AllAccepted applyTransaction ledger txs) (room : Along tryTransaction HasRoom ledger txs) :
    (play reverseTransaction (play applyTransaction ledger txs) txs.reverse).Covers ledger := by
  induction txs generalizing ledger with
  | nil => exact ⟨.refl ledger,fun _ known => known⟩
  | cons tx rest ih =>
    rw [List.reverse_cons,play_append]
    exact Covers.reverse all.1 room.1 (ih all.2 room.2)

end
end ForgeChain.Ledger
