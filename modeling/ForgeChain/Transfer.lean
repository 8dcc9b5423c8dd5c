import ForgeChain.Supply

/-!
One transaction on the ledger, counted in integers. `apply_transaction` adds
amount and fee in 64 bits before it looks at the balance: below 2^64 the two
together are what the sender has to hold, and the transfer is exact; from 2^64
on they wrap, and a sender who can pay the small remainder is let through.
-/
namespace ForgeChain.Ledger
open Supply Samples

/-- The sender is known and holds amount and fee, and the nonce is next. -/
def CanPay (ledger : Ledger) (tx : Transaction) : Prop :=
  ∃ held, ledger.getBalance tx.sender = some held ∧ tx.amount.toNat + tx.fee.toNat ≤ held.toNat ∧
    tx.nonce = ledger.nextNonce tx.sender

/-- The transfer between two ledgers. A sender that pays itself is left without
    the fee only. -/
structure Moves (tx : Transaction) (before after : Ledger) : Prop where
  supply : supply after + tx.fee.toNat = supply before
  sender : tx.sender ≠ tx.recipient →
    (after.balance tx.sender).toNat + (tx.amount.toNat + tx.fee.toNat) = (before.balance tx.sender).toNat
  recipient : tx.sender ≠ tx.recipient →
    (after.balance tx.recipient).toNat = (before.balance tx.recipient).toNat + tx.amount.toNat
  itself : tx.sender = tx.recipient →
    (after.balance tx.recipient).toNat + tx.fee.toNat = (before.balance tx.recipient).toNat
  others : ∀ address, address ≠ tx.sender → address ≠ tx.recipient → after.getBalance address = before.getBalance address
  nonces : ∀ address, address ≠ tx.sender → after.nextNonce address = before.nextNonce address

/-- The transaction is accepted exactly where its sender can pay; it is then
    carried out where the balances fit 64 bits, and changes nothing if not. -/
structure Exact (ledger : Ledger) (tx : Transaction) : Prop where
  accepts : (ledger.applyTransaction tx).1 = true ↔ ledger.CanPay tx
  moves : (ledger.applyTransaction tx).1 = true → supply ledger < 2 ^ 64 → Moves tx ledger (ledger.applyTransaction tx).2
  refuses : (ledger.applyTransaction tx).1 = false → (ledger.applyTransaction tx).2 = ledger

section
variable {ledger : Ledger} {tx : Transaction}

/-- Amount and fee that wrap leave the part above 2^64. -/
theorem price_toNat_wrapped (wraps : 2 ^ 64 ≤ tx.amount.toNat + tx.fee.toNat) :
    (tx.amount + tx.fee).toNat + 2 ^ 64 = tx.amount.toNat + tx.fee.toNat := by
  have amount := tx.amount.toNat_lt
  have fee := tx.fee.toNat_lt
  rw [UInt64.toNat_add]
  omega

theorem canPay_iff_affords (fits : tx.amount.toNat + tx.fee.toNat < 2 ^ 64) : ledger.CanPay tx ↔ ledger.Affords tx := by
  unfold CanPay Affords
  simp only [UInt64.le_iff_toNat_le,price_toNat fits]

/-- No balance holds an amount and a fee that wrap. -/
theorem not_canPay (wraps : 2 ^ 64 ≤ tx.amount.toNat + tx.fee.toNat) : ¬ ledger.CanPay tx := by
  rintro ⟨held,-,enough,-⟩
  have bound := held.toNat_lt
  omega

theorem getBalance_setBalance_of_ne {address other : Bytes} (different : other ≠ address) (amount : UInt64) :
    (ledger.setBalance address amount).getBalance other = ledger.getBalance other := by
  unfold getBalance setBalance
  rw [Finmap.lookup_insert_of_ne _ different]

/-- Crediting adds the amount where the balances leave room for it. -/
theorem supply_credit_of_room (room : (ledger.balance tx.recipient).toNat + tx.amount.toNat < 2 ^ 64) :
    supply (ledger.credit tx) = supply ledger + tx.amount.toNat := by
  have exchanged := supply_setBalance ledger tx.recipient (ledger.balance tx.recipient + tx.amount)
  rw [UInt64.toNat_add,Nat.mod_eq_of_lt room] at exchanged
  unfold credit
  omega

theorem balance_debit_sender (fits : tx.amount.toNat + tx.fee.toNat < 2 ^ 64) (affords : ledger.Affords tx) :
    ((ledger.debit tx).balance tx.sender).toNat + (tx.amount.toNat + tx.fee.toNat) =
      (ledger.balance tx.sender).toNat := by
  obtain ⟨held,known,enough,-⟩ := affords
  have covered := UInt64.le_iff_toNat_le.mp enough
  rw [price_toNat fits] at covered
  rw [debit,balance_setNonce,balance_setBalance,if_pos rfl,balance_of_getBalance known,
    UInt64.toNat_sub_of_le _ _ enough,price_toNat fits]
  omega

theorem balance_debit_of_ne {address : Bytes} (different : address ≠ tx.sender) :
    (ledger.debit tx).balance address = ledger.balance address := by
  rw [debit,balance_setNonce,balance_setBalance,if_neg different]

/-- An accepted transaction whose amount and fee fit is carried out exactly. -/
theorem moves_of_affords (fits : tx.amount.toNat + tx.fee.toNat < 2 ^ 64) (affords : ledger.Affords tx)
    (bounded : supply ledger < 2 ^ 64) : Moves tx ledger ((ledger.debit tx).credit tx) := by
  have debited := supply_debit fits affords
  have paid := balance_debit_sender fits affords
  -- The recipient's balance is part of what is left after the debit.
  have room : ((ledger.debit tx).balance tx.recipient).toNat + tx.amount.toNat < 2 ^ 64 := by
    have part := balance_le_supply (ledger.debit tx) tx.recipient
    omega
  have credited : (((ledger.debit tx).credit tx).balance tx.recipient).toNat =
      ((ledger.debit tx).balance tx.recipient).toNat + tx.amount.toNat := by
    rw [credit,balance_setBalance,if_pos rfl,UInt64.toNat_add,Nat.mod_eq_of_lt room]
  have elsewhere : ∀ address, address ≠ tx.recipient →
      ((ledger.debit tx).credit tx).balance address = (ledger.debit tx).balance address := by
    intro address different
    rw [credit,balance_setBalance,if_neg different]
  constructor
  case supply =>
    have added := supply_credit_of_room room
    omega
  case sender =>
    intro different
    rw [elsewhere _ different]
    exact paid
  case recipient =>
    intro different
    rw [credited,balance_debit_of_ne (Ne.symm different)]
  case itself =>
    intro same
    rw [same] at paid
    omega
  case others =>
    intro address notSender notRecipient
    rw [credit,getBalance_setBalance_of_ne notRecipient]
    exact getBalance_setBalance_of_ne notSender _
  case nonces =>
    intro address notSender
    rw [credit,nextNonce_setBalance,debit,nextNonce_setNonce,if_neg notSender,nextNonce_setBalance]

/-- `apply_transaction` is exact unless amount and fee wrap and the sender, with
    the right nonce, can pay what is left of them above 2^64. -/
theorem exact_iff (plain : ¬ tx.isCoinbase) :
    Exact ledger tx ↔
      tx.amount.toNat + tx.fee.toNat < 2 ^ 64 ∨
        ∀ held, ledger.getBalance tx.sender = some held →
          held.toNat + 2 ^ 64 < tx.amount.toNat + tx.fee.toNat ∨ tx.nonce ≠ ledger.nextNonce tx.sender := by
  have accepts : (ledger.applyTransaction tx).1 = true ↔ ledger.Affords tx := by
    rw [apply_accepts_iff,or_iff_right plain]
  rcases Nat.lt_or_ge (tx.amount.toNat + tx.fee.toNat) (2 ^ 64) with fits | wraps
  · refine ⟨fun _ => .inl fits,fun _ => ⟨?_,?_,?_⟩⟩
    · rw [accepts,canPay_iff_affords fits]
    · intro accepted bounded
      have affords := accepts.mp accepted
      rw [apply_affords plain affords]
      exact moves_of_affords fits affords bounded
    · exact apply_measured.refused ledger tx
  · have left := price_toNat_wrapped wraps
    constructor
    · intro exactly
      refine .inr fun held known => ?_
      by_contra short
      obtain ⟨enough,next⟩ := not_or.mp short
      have affords : ledger.Affords tx := by
        refine ⟨held,known,?_,not_not.mp next⟩
        rw [UInt64.le_iff_toNat_le]
        omega
      exact not_canPay wraps (exactly.accepts.mp (accepts.mpr affords))
    · rintro (fits | short)
      · omega
      · have refused : ¬ ledger.Affords tx := by
          rintro ⟨held,known,enough,next⟩
          rw [UInt64.le_iff_toNat_le] at enough
          rcases short held known with poor | other
          · omega
          · exact other next
        refine ⟨?_,?_,?_⟩
        · rw [accepts]
          exact ⟨fun affords => absurd affords refused,fun pays => absurd pays (not_canPay wraps)⟩
        · intro accepted
          exact absurd (accepts.mp accepted) refused
        · exact apply_measured.refused ledger tx

end

theorem exact_pay : ¬ pay.isCoinbase ∧ Exact (empty.setBalance aliceAddress 50) pay :=
  ⟨by decide,(exact_iff (by decide)).mpr (.inl (by decide))⟩

/-- Bob, who has nothing, pays almost 2^64 with a fee of 1. -/
def windfall : Transaction := ⟨bob,aliceAddress,[],0xFFFFFFFFFFFFFFFF,[],1,0⟩

theorem windfall_inexact :
    ¬ windfall.isCoinbase ∧ ((empty.setBalance bob 0).applyTransaction windfall).1 = true ∧
      ¬ Exact (empty.setBalance bob 0) windfall := by
  have accepted : ((empty.setBalance bob 0).applyTransaction windfall).1 = true := by decide +kernel
  refine ⟨by decide,accepted,fun exactly => ?_⟩
  exact not_canPay (by decide) (exactly.accepts.mp accepted)

end ForgeChain.Ledger
