import ForgeChain.Transaction
import ForgeChain.Tally
import Mathlib.Data.Finmap
import Mathlib.Data.UInt

/-!
The ledger of `src/core/Ledger.cpp`: balances and nonce counters, both 64-bit.
Every transaction has one effect on them, a function of the address, that
`applyTransaction` adds when it accepts and `reverseTransaction` subtracts when
it accepts; a refusal changes nothing (`apply_measured`, `reverse_measured`).
-/
namespace ForgeChain
open Tally

structure Ledger where
  balances : Finmap fun _ : Bytes => UInt64
  nonces : Finmap fun _ : Bytes => UInt64
  deriving DecidableEq

namespace Ledger

def empty : Ledger := ⟨∅,∅⟩

def setBalance (ledger : Ledger) (address : Bytes) (amount : UInt64) : Ledger :=
  { ledger with balances := ledger.balances.insert address amount }

def setNonce (ledger : Ledger) (address : Bytes) (nonce : UInt64) : Ledger :=
  { ledger with nonces := ledger.nonces.insert address nonce }

def getBalance (ledger : Ledger) (address : Bytes) : Option UInt64 := ledger.balances.lookup address

def nextNonce (ledger : Ledger) (address : Bytes) : UInt64 := (ledger.nonces.lookup address).getD 0

/-- The balance, where an absent address has 0: `balances_[address]` as a value. -/
def balance (ledger : Ledger) (address : Bytes) : UInt64 := (ledger.getBalance address).getD 0

/-- The sender of a transaction pays and its counter moves past the transaction. -/
def debit (ledger : Ledger) (tx : Transaction) : Ledger :=
  (ledger.setBalance tx.sender (ledger.balance tx.sender - (tx.amount + tx.fee))).setNonce tx.sender (tx.nonce + 1)

/-- The recipient of a transaction is paid. -/
def credit (ledger : Ledger) (tx : Transaction) : Ledger :=
  ledger.setBalance tx.recipient (ledger.balance tx.recipient + tx.amount)

def applyTransaction (ledger : Ledger) (tx : Transaction) : Bool × Ledger :=
  if ¬ tx.isCoinbase then
    match ledger.getBalance tx.sender with
    | none => (false,ledger)
    | some held =>
      if tx.amount + tx.fee > held then (false,ledger)
      else if tx.nonce ≠ ledger.nextNonce tx.sender then (false,ledger)
      else (true,(ledger.debit tx).credit tx)
  else (true,ledger.credit tx)

/-- The sender of a transaction is paid back and its counter moves back to the
    transaction. -/
def undebit (ledger : Ledger) (tx : Transaction) : Ledger :=
  (ledger.setBalance tx.sender (ledger.balance tx.sender + (tx.amount + tx.fee))).setNonce tx.sender tx.nonce

/-- The recipient of a transaction gives back what it was paid. -/
def uncredit (ledger : Ledger) (tx : Transaction) : Ledger :=
  ledger.setBalance tx.recipient (ledger.balance tx.recipient - tx.amount)

def reverseTransaction (ledger : Ledger) (tx : Transaction) : Bool × Ledger :=
  match ledger.getBalance tx.recipient with
  | none => (false,ledger)
  | some held =>
    if tx.amount > held then (false,ledger)
    else if ¬ tx.isCoinbase then
      if ledger.nextNonce tx.sender ≠ tx.nonce + 1 then (false,ledger)
      else (true,(ledger.undebit tx).uncredit tx)
    else (true,ledger.uncredit tx)

/-! ### What the two operations do -/

/-- The sender is known, has the amount and the fee, and the nonce is next. -/
def Affords (ledger : Ledger) (tx : Transaction) : Prop :=
  ∃ held, ledger.getBalance tx.sender = some held ∧ tx.amount + tx.fee ≤ held ∧ tx.nonce = ledger.nextNonce tx.sender

theorem apply_coinbase {tx : Transaction} (coinbase : tx.isCoinbase) (ledger : Ledger) :
    ledger.applyTransaction tx = (true,ledger.credit tx) := by
  simp [applyTransaction,coinbase]

theorem apply_affords {tx : Transaction} (plain : ¬ tx.isCoinbase) {ledger : Ledger} (affords : ledger.Affords tx) :
    ledger.applyTransaction tx = (true,(ledger.debit tx).credit tx) := by
  obtain ⟨held,known,enough,next⟩ := affords
  simp [applyTransaction,plain,known,UInt64.not_lt.mpr enough,next]

theorem apply_refused {tx : Transaction} (plain : ¬ tx.isCoinbase) {ledger : Ledger} (short : ¬ ledger.Affords tx) :
    ledger.applyTransaction tx = (false,ledger) := by
  unfold applyTransaction
  simp only [plain,not_false_eq_true,if_true]
  rcases known : ledger.getBalance tx.sender with _ | held
  · rfl
  · by_cases enough : tx.amount + tx.fee > held
    · simp [enough]
    · by_cases next : tx.nonce = ledger.nextNonce tx.sender
      · exact absurd ⟨held,known,UInt64.not_lt.mp enough,next⟩ short
      · simp [enough,next]

theorem apply_accepts_iff (ledger : Ledger) (tx : Transaction) :
    (ledger.applyTransaction tx).1 = true ↔ tx.isCoinbase ∨ ledger.Affords tx := by
  by_cases coinbase : tx.isCoinbase
  · simp [apply_coinbase coinbase,coinbase]
  · by_cases affords : ledger.Affords tx
    · simp [apply_affords coinbase affords,affords]
    · simp [apply_refused coinbase affords,coinbase,affords]

/-- The recipient still has the amount and, unless the transaction is a
    coinbase, the sender's counter stands right behind the transaction. -/
def Undoable (ledger : Ledger) (tx : Transaction) : Prop :=
  (∃ held, ledger.getBalance tx.recipient = some held ∧ tx.amount ≤ held) ∧
    (tx.isCoinbase ∨ ledger.nextNonce tx.sender = tx.nonce + 1)

theorem reverse_undoable {tx : Transaction} {ledger : Ledger} (undoable : ledger.Undoable tx) :
    ledger.reverseTransaction tx =
      (true,(if tx.isCoinbase then ledger else ledger.undebit tx).uncredit tx) := by
  obtain ⟨⟨held,known,enough⟩,next⟩ := undoable
  unfold reverseTransaction
  by_cases coinbase : tx.isCoinbase
  · simp [known,UInt64.not_lt.mpr enough,coinbase]
  · simp [known,UInt64.not_lt.mpr enough,coinbase,next.resolve_left coinbase]

theorem reverse_refused {tx : Transaction} {ledger : Ledger} (stuck : ¬ ledger.Undoable tx) :
    ledger.reverseTransaction tx = (false,ledger) := by
  unfold reverseTransaction
  rcases known : ledger.getBalance tx.recipient with _ | held
  · rfl
  · by_cases enough : tx.amount > held
    · simp [enough]
    · by_cases next : tx.isCoinbase ∨ ledger.nextNonce tx.sender = tx.nonce + 1
      · exact absurd ⟨⟨held,known,UInt64.not_lt.mp enough⟩,next⟩ stuck
      · obtain ⟨plain,other⟩ := not_or.mp next
        simp [enough,plain,other]

theorem reverse_accepts_iff (ledger : Ledger) (tx : Transaction) :
    (ledger.reverseTransaction tx).1 = true ↔ ledger.Undoable tx := by
  by_cases undoable : ledger.Undoable tx
  · simp [reverse_undoable undoable,undoable]
  · simp [reverse_refused undoable,undoable]

/-! ### What an address has -/

theorem balance_setBalance (ledger : Ledger) (address other : Bytes) (amount : UInt64) :
    (ledger.setBalance address amount).balance other = if other = address then amount else ledger.balance other := by
  unfold balance getBalance setBalance
  by_cases same : other = address
  · subst same
    simp
  · simp [same,Finmap.lookup_insert_of_ne _ same]

theorem nextNonce_setNonce (ledger : Ledger) (address other : Bytes) (nonce : UInt64) :
    (ledger.setNonce address nonce).nextNonce other = if other = address then nonce else ledger.nextNonce other := by
  unfold nextNonce setNonce
  by_cases same : other = address
  · subst same
    simp
  · simp [same,Finmap.lookup_insert_of_ne _ same]

@[simp] theorem nextNonce_setBalance (ledger : Ledger) (address other : Bytes) (amount : UInt64) :
    (ledger.setBalance address amount).nextNonce other = ledger.nextNonce other := rfl

@[simp] theorem balance_setNonce (ledger : Ledger) (address other : Bytes) (nonce : UInt64) :
    (ledger.setNonce address nonce).balance other = ledger.balance other := rfl

/-- The balance and the counter of every address; an absent address has 0. -/
def holdings (ledger : Ledger) : Bytes → UInt64 × UInt64 :=
  fun address => (ledger.balance address,ledger.nextNonce address)

/-- Two ledgers that give every address the same balance and counter. -/
def Agrees (left right : Ledger) : Prop :=
  (∀ address, left.balance address = right.balance address) ∧ ∀ address, left.nextNonce address = right.nextNonce address

theorem agrees_iff {left right : Ledger} : Agrees left right ↔ left.holdings = right.holdings := by
  simp only [Agrees,holdings,funext_iff,Prod.mk.injEq,forall_and]

/-- What a transaction adds for its recipient. -/
def gain (tx : Transaction) : Bytes → UInt64 × UInt64 :=
  fun address => if address = tx.recipient then (tx.amount,0) else 0

/-- What a transaction adds for its sender. -/
def cost (tx : Transaction) : Bytes → UInt64 × UInt64 :=
  fun address => if address = tx.sender then (-(tx.amount + tx.fee),1) else 0

/-- What a transaction adds to the balance and to the counter of every address. -/
def effect (tx : Transaction) : Bytes → UInt64 × UInt64 := (if tx.isCoinbase then 0 else cost tx) + gain tx

theorem holdings_credit (ledger : Ledger) (tx : Transaction) :
    (ledger.credit tx).holdings = ledger.holdings + gain tx := by
  funext address
  by_cases same : address = tx.recipient
  · simp [holdings,credit,balance_setBalance,gain,same]
  · simp [holdings,credit,balance_setBalance,gain,same]

theorem holdings_uncredit (ledger : Ledger) (tx : Transaction) :
    (ledger.uncredit tx).holdings = ledger.holdings - gain tx := by
  funext address
  by_cases same : address = tx.recipient
  · simp [holdings,uncredit,balance_setBalance,gain,same]
  · simp [holdings,uncredit,balance_setBalance,gain,same]

theorem holdings_debit {ledger : Ledger} {tx : Transaction} (next : tx.nonce = ledger.nextNonce tx.sender) :
    (ledger.debit tx).holdings = ledger.holdings + cost tx := by
  funext address
  by_cases same : address = tx.sender
  · simp [holdings,debit,balance_setBalance,nextNonce_setNonce,cost,same,next,sub_eq_add_neg]
  · simp [holdings,debit,balance_setBalance,nextNonce_setNonce,cost,same]

theorem holdings_undebit {ledger : Ledger} {tx : Transaction} (next : ledger.nextNonce tx.sender = tx.nonce + 1) :
    (ledger.undebit tx).holdings = ledger.holdings - cost tx := by
  funext address
  by_cases same : address = tx.sender
  · simp [holdings,undebit,balance_setBalance,nextNonce_setNonce,cost,same,next,-neg_add_rev]
  · simp [holdings,undebit,balance_setBalance,nextNonce_setNonce,cost,same]

theorem apply_measured : Measured applyTransaction holdings effect where
  refused ledger tx refused := by
    have not := mt (apply_accepts_iff ledger tx).mpr (by simp [refused])
    obtain ⟨plain,short⟩ := not_or.mp not
    rw [apply_refused plain short]
  accepted ledger tx accepts := by
    by_cases coinbase : tx.isCoinbase
    · rw [apply_coinbase coinbase,holdings_credit,effect,if_pos coinbase,zero_add]
    · have affords := ((apply_accepts_iff ledger tx).mp accepts).resolve_left coinbase
      rw [apply_affords coinbase affords,holdings_credit,effect,if_neg coinbase]
      obtain ⟨held,known,enough,next⟩ := affords
      rw [holdings_debit next,add_assoc]

theorem reverse_measured : Measured reverseTransaction holdings (fun tx => -effect tx) where
  refused ledger tx refused := by
    have stuck := mt (reverse_accepts_iff ledger tx).mpr (by simp [refused])
    rw [reverse_refused stuck]
  accepted ledger tx accepts := by
    have undoable := (reverse_accepts_iff ledger tx).mp accepts
    rw [reverse_undoable undoable,holdings_uncredit,effect]
    by_cases coinbase : tx.isCoinbase
    · simp only [coinbase,if_true,zero_add,sub_eq_add_neg]
    · simp only [coinbase,if_false,holdings_undebit (undoable.2.resolve_left coinbase)]
      rw [neg_add,sub_eq_add_neg,sub_eq_add_neg,add_assoc]

end Ledger
end ForgeChain
