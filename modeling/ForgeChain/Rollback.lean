import ForgeChain.Calls
import ForgeChain.LedgerPlay
import ForgeChain.Samples

/-!
Taking transactions back. Transactions that were applied without a recipient's
balance wrapping can all be taken back, last one first, and every address has
its old balance and counter then. A rejected block is rolled back this way, but
two things stay behind: an entry for a recipient the ledger did not know, and
what a refused reversal leaves where a balance did wrap. A refused reversal
always shows, for the counters of the senders do not come out even.
-/
namespace ForgeChain.Ledger
open Tally Runs Samples

section
variable {ledger : Ledger} {tx : Transaction} {txs : List Transaction}

/-! ### Reversals that are accepted -/

theorem allAccepted_rollback (all : AllAccepted applyTransaction ledger txs)
    (room : Along tryTransaction HasRoom ledger txs) :
    AllAccepted reverseTransaction (play applyTransaction ledger txs) txs.reverse := by
  induction txs generalizing ledger with
  | nil => trivial
  | cons tx rest ih =>
    have covers := covers_rollback all.2 room.2
    rw [List.reverse_cons,allAccepted_append]
    refine ⟨ih all.2 room.2,?_,trivial⟩
    rw [reverse_accepts_iff]
    exact (undoable_apply all.1 room.1).of_covers covers

/-- Transactions that were applied in order without a recipient's balance
    wrapping are all taken back in reverse order, and every address has its old
    balance and counter. -/
theorem reverse_restores (all : AllAccepted applyTransaction ledger txs)
    (room : Along tryTransaction HasRoom ledger txs) :
    AllAccepted reverseTransaction (play applyTransaction ledger txs) txs.reverse ∧
      (∀ address, (play reverseTransaction (play applyTransaction ledger txs) txs.reverse).balance address =
        ledger.balance address) ∧
      ∀ address, (play reverseTransaction (play applyTransaction ledger txs) txs.reverse).nextNonce address =
        ledger.nextNonce address := by
  have agrees := (covers_rollback all room).agrees
  exact ⟨allAccepted_rollback all room,agrees.1,agrees.2⟩

theorem reverse_restores_pay :
    AllAccepted reverseTransaction (play applyTransaction empty [reward,pay]) [reward,pay].reverse ∧
      (∀ address, (play reverseTransaction (play applyTransaction empty [reward,pay]) [reward,pay].reverse).balance
        address = empty.balance address) ∧
      ∀ address, (play reverseTransaction (play applyTransaction empty [reward,pay]) [reward,pay].reverse).nextNonce
        address = empty.nextNonce address :=
  reverse_restores (by decide +kernel) (by decide +kernel)

/-- Where the reversals are accepted, no balance had wrapped. -/
theorem hasRoom_of_reversed (all : AllAccepted applyTransaction ledger txs)
    (reversed : AllAccepted reverseTransaction (play applyTransaction ledger txs) txs.reverse) :
    Along tryTransaction HasRoom ledger txs := by
  induction txs generalizing ledger with
  | nil => trivial
  | cons tx rest ih =>
    rw [List.reverse_cons,allAccepted_append] at reversed
    obtain ⟨later,last,-⟩ := reversed
    have room := ih all.2 later
    refine ⟨?_,room⟩
    -- Behind the later reversals the recipient has what the transaction left it.
    have covers := covers_rollback all.2 room
    obtain ⟨⟨held,known,enough⟩,-⟩ := (reverse_accepts_iff _ tx).mp last
    have left : held = (ledger.tryTransaction tx).balance tx.recipient := by
      rw [← balance_of_getBalance known]
      exact covers.agrees.1 tx.recipient
    rw [left] at enough
    exact (hasRoom_iff all.1).mpr enough

/-! ### Reversals that are refused -/

/-- What is left of the holdings after a rollback is what was not taken back. -/
theorem holdings_rollback (all : AllAccepted applyTransaction ledger txs) :
    (play reverseTransaction (play applyTransaction ledger txs) txs.reverse).holdings =
      ledger.holdings + total effect (refused reverseTransaction (play applyTransaction ledger txs) txs.reverse) := by
  have parts := total_accepted_add_refused reverseTransaction effect (play applyTransaction ledger txs) txs.reverse
  rw [total_reverse] at parts
  rw [reverse_measured.play,apply_measured.play,accepted_eq all,total_neg,← parts,add_assoc,add_neg_cancel_comm]

/-- The counter of an address moves by the number of transactions it sent. -/
theorem total_effect_nonce (txs : List Transaction) (address : Bytes) :
    (total effect txs address).2 =
      UInt64.ofNat (txs.countP fun tx => ¬ tx.isCoinbase ∧ tx.sender = address) := by
  induction txs with
  | nil => rfl
  | cons tx rest ih =>
    rw [total_cons,Pi.add_apply,Prod.snd_add,ih,List.countP_cons]
    by_cases coinbase : tx.isCoinbase
    · simp [effect,coinbase,gain,apply_ite Prod.snd]
    · by_cases same : tx.sender = address
      · simp [effect,coinbase,gain,cost,same,apply_ite Prod.snd,add_comm]
      · simp [effect,coinbase,gain,cost,same,Ne.symm same,apply_ite Prod.snd]

/-- Transactions without an effect together are coinbases, unless there are
    2^64 of them. -/
theorem coinbase_of_total_eq_zero (short : txs.length < 2 ^ 64) (nothing : total effect txs = 0)
    (member : tx ∈ txs) : tx.isCoinbase := by
  by_contra plain
  have count := total_effect_nonce txs tx.sender
  rw [nothing] at count
  have some_sent : 0 < txs.countP fun other => ¬ other.isCoinbase ∧ other.sender = tx.sender :=
    List.countP_pos_iff.mpr ⟨tx,member,by simpa using plain⟩
  have bound := List.countP_le_length (l := txs) (p := fun other => ¬ other.isCoinbase ∧ other.sender = tx.sender)
  have zero := congrArg UInt64.toNat count
  rw [UInt64.toNat_ofNat_of_lt' (by rw [UInt64.size]; omega)] at zero
  simp only [Pi.zero_apply,Prod.snd_zero,UInt64.toNat_zero] at zero
  omega

theorem known_play_reverse {address : Bytes} (known : (ledger.getBalance address).isSome) :
    ((play reverseTransaction ledger txs).getBalance address).isSome := by
  induction txs generalizing ledger with
  | nil => exact known
  | cons tx rest ih =>
    apply ih
    by_cases undoable : ledger.Undoable tx
    · exact known_reverse undoable known
    · rw [reverse_refused undoable]
      exact known

/-- After applied transactions their recipients are known as well. -/
theorem known_play_apply (all : AllAccepted applyTransaction ledger txs) {address : Bytes}
    (known : (∃ tx ∈ txs, address = tx.recipient) ∨ (ledger.getBalance address).isSome) :
    ((play applyTransaction ledger txs).getBalance address).isSome := by
  induction txs generalizing ledger with
  | nil => simpa [play] using known
  | cons tx rest ih =>
    apply ih all.2
    rcases known with ⟨other,member,rfl⟩ | known
    · rcases List.mem_cons.mp member with rfl | later
      · exact .inr (known_apply all.1 (.inl rfl))
      · exact .inl ⟨other,later,rfl⟩
    · exact .inr (known_apply all.1 (.inr known))

/-- A rollback that changes nothing takes everything back: where only the first
    transaction may be a coinbase, no refused reversal goes unnoticed. -/
theorem refused_eq_nil (all : AllAccepted applyTransaction ledger txs) (short : txs.length < 2 ^ 64)
    (first : ∀ tx ∈ txs.drop 1, ¬ tx.isCoinbase)
    (same : (play reverseTransaction (play applyTransaction ledger txs) txs.reverse).holdings = ledger.holdings) :
    refused reverseTransaction (play applyTransaction ledger txs) txs.reverse = [] := by
  have sublist : (refused reverseTransaction (play applyTransaction ledger txs) txs.reverse).Sublist txs.reverse :=
    refused_sublist (play applyTransaction ledger txs) txs.reverse
  have nothing : total effect (refused reverseTransaction (play applyTransaction ledger txs) txs.reverse) = 0 := by
    rw [holdings_rollback all] at same
    exact add_eq_left.mp same
  have coinbases : ∀ tx ∈ refused reverseTransaction (play applyTransaction ledger txs) txs.reverse, tx.isCoinbase := by
    intro tx member
    refine coinbase_of_total_eq_zero ?_ nothing member
    have length := sublist.length_le
    rw [List.length_reverse] at length
    omega
  cases txs with
  | nil => rfl
  | cons coinbase rest =>
    -- Of the transactions only the first one can be left over, and it moved something.
    have only : (refused reverseTransaction (play applyTransaction ledger (coinbase :: rest))
        (coinbase :: rest).reverse).Sublist [coinbase] := by
      rw [List.reverse_cons] at sublist
      obtain ⟨later,last,split,fromRest,fromFirst⟩ := List.sublist_append_iff.mp sublist
      have none : later = [] := by
        refine List.eq_nil_iff_forall_not_mem.mpr fun tx member => ?_
        refine first tx (List.mem_reverse.mp (fromRest.subset member)) (coinbases tx ?_)
        rw [List.reverse_cons,split]
        exact List.mem_append_left _ member
      rw [List.reverse_cons,split,none,List.nil_append]
      exact fromFirst
    rcases List.sublist_singleton.mp only with none | one
    · exact none
    · have member : coinbase ∈ refused reverseTransaction (play applyTransaction ledger (coinbase :: rest))
          (coinbase :: rest).reverse := by
        rw [one]
        exact List.mem_singleton_self coinbase
      obtain ⟨before,after,split,verdict⟩ := exists_of_mem_refused member
      have stuck := mt (reverse_accepts_iff _ coinbase).mpr (Bool.eq_false_iff.mp verdict)
      have still : ((play reverseTransaction (play applyTransaction ledger (coinbase :: rest)) before).getBalance
          coinbase.recipient).isSome := known_play_reverse (known_play_apply all (.inl ⟨coinbase,List.mem_cons_self,rfl⟩))
      obtain ⟨held,known⟩ := Option.isSome_iff_exists.mp still
      have free : coinbase.amount = 0 := by
        rw [one,total_cons,total_nil,add_zero,effect,if_pos (coinbases coinbase member),zero_add] at nothing
        have here := congrFun nothing coinbase.recipient
        simpa [gain] using here
      refine absurd ⟨⟨held,known,?_⟩,.inl (coinbases coinbase member)⟩ stuck
      rw [free]
      exact UInt64.zero_le

/-! ### The addresses that are known -/

/-- Every address that one ledger knows is known to another. -/
def KnownTo (ledger other : Ledger) : Prop :=
  ∀ address, (ledger.getBalance address).isSome → (other.getBalance address).isSome

theorem knownTo_setBalance {other : Ledger} {address : Bytes} (known : (other.getBalance address).isSome)
    (within : ledger.KnownTo other) (amount : UInt64) : (ledger.setBalance address amount).KnownTo other := by
  intro any there
  rcases (known_setBalance_iff ledger _ _ _).mp there with rfl | before
  · exact known
  · exact within any before

/-- Transactions to known recipients bring no new address, and their senders
    are known. -/
theorem knownTo_play_apply {other : Ledger} (within : ledger.KnownTo other)
    (all : AllAccepted applyTransaction ledger txs) (paid : ∀ tx ∈ txs, (other.getBalance tx.recipient).isSome) :
    (play applyTransaction ledger txs).KnownTo other ∧
      ∀ tx ∈ txs, ¬ tx.isCoinbase → (other.getBalance tx.sender).isSome := by
  induction txs generalizing ledger with
  | nil => exact ⟨within,by simp⟩
  | cons tx rest ih =>
    obtain ⟨first,later⟩ := List.forall_mem_cons.mp paid
    have sender : ¬ tx.isCoinbase → (other.getBalance tx.sender).isSome := by
      intro plain
      obtain ⟨held,known,-⟩ := ((apply_accepts_iff ledger tx).mp all.1).resolve_left plain
      exact within tx.sender (by simp [known])
    have next : (ledger.applyTransaction tx).2.KnownTo other := by
      by_cases coinbase : tx.isCoinbase
      · rw [apply_coinbase coinbase]
        exact knownTo_setBalance first within _
      · rw [apply_affords coinbase (((apply_accepts_iff ledger tx).mp all.1).resolve_left coinbase)]
        exact knownTo_setBalance first (knownTo_setBalance (sender coinbase) within _) _
    obtain ⟨final,senders⟩ := ih next all.2 later
    exact ⟨final,List.forall_mem_cons.mpr ⟨sender,senders⟩⟩

theorem knownTo_play_reverse {other : Ledger} (within : ledger.KnownTo other)
    (paid : ∀ tx ∈ txs, (other.getBalance tx.recipient).isSome)
    (senders : ∀ tx ∈ txs, ¬ tx.isCoinbase → (other.getBalance tx.sender).isSome) :
    (play reverseTransaction ledger txs).KnownTo other := by
  induction txs generalizing ledger with
  | nil => exact within
  | cons tx rest ih =>
    obtain ⟨first,later⟩ := List.forall_mem_cons.mp paid
    obtain ⟨sender,others⟩ := List.forall_mem_cons.mp senders
    refine ih ?_ later others
    by_cases undoable : ledger.Undoable tx
    swap
    · rw [reverse_refused undoable]
      exact within
    rw [reverse_undoable undoable]
    refine knownTo_setBalance first ?_ _
    by_cases coinbase : tx.isCoinbase
    · rw [if_pos coinbase]
      exact within
    · rw [if_neg coinbase]
      exact knownTo_setBalance (sender coinbase) within _

theorem getBalance_eq {other : Ledger} {address : Bytes}
    (known : (ledger.getBalance address).isSome ↔ (other.getBalance address).isSome)
    (same : ledger.balance address = other.balance address) : ledger.getBalance address = other.getBalance address := by
  unfold balance at same
  cases left : ledger.getBalance address with
  | none =>
    cases right : other.getBalance address with
    | none => rfl
    | some held => simp [left,right] at known
  | some held =>
    cases right : other.getBalance address with
    | none => simp [left,right] at known
    | some other => simpa [left,right] using same

/-- Two ledgers that no look at an address tells apart. -/
def Looks (ledger other : Ledger) : Prop :=
  ∀ address, ledger.getBalance address = other.getBalance address ∧ ledger.nextNonce address = other.nextNonce address

/-- A rollback leaves the ledger as it was exactly where every recipient was
    known before and no recipient's balance wrapped. -/
theorem looks_rollback_iff (all : AllAccepted applyTransaction ledger txs) (short : txs.length < 2 ^ 64)
    (first : ∀ tx ∈ txs.drop 1, ¬ tx.isCoinbase) :
    (play reverseTransaction (play applyTransaction ledger txs) txs.reverse).Looks ledger ↔
      (∀ tx ∈ txs, (ledger.getBalance tx.recipient).isSome) ∧ Along tryTransaction HasRoom ledger txs := by
  constructor
  · intro looks
    have agrees : (play reverseTransaction (play applyTransaction ledger txs) txs.reverse).Agrees ledger := by
      refine ⟨fun address => ?_,fun address => (looks address).2⟩
      rw [balance,(looks address).1,balance]
    refine ⟨fun tx member => ?_,?_⟩
    · rw [← (looks tx.recipient).1]
      exact known_play_reverse (known_play_apply all (.inl ⟨tx,member,rfl⟩))
    · have nothing := refused_eq_nil all short first (agrees_iff.mp agrees)
      exact hasRoom_of_reversed all (allAccepted_of_refused nothing)
  · rintro ⟨paid,room⟩ address
    have covers := covers_rollback all room
    obtain ⟨applied,senders⟩ := knownTo_play_apply (fun _ known => known) all paid
    have within : (play reverseTransaction (play applyTransaction ledger txs) txs.reverse).KnownTo ledger :=
      knownTo_play_reverse applied (fun tx member => paid tx (List.mem_reverse.mp member))
        (fun tx member => senders tx (List.mem_reverse.mp member))
    exact ⟨getBalance_eq ⟨within address,covers.known address⟩ (covers.agrees.1 address),covers.agrees.2 address⟩

end
end ForgeChain.Ledger

namespace ForgeChain.Rollback
open Tally Runs Ledger Samples

/-- The transactions in front of the first one that is not signed or does not
    apply. -/
def appliedPart (P : Primitives) : Ledger → List Transaction → List Transaction
  | _, [] => []
  | ledger, tx :: rest =>
    if tx.Authentic P ∧ (ledger.applyTransaction tx).1 = true then tx :: appliedPart P (ledger.tryTransaction tx) rest
    else []

/-- The transactions in front of the first one that fails pay addresses that the
    ledger knew before the block, and take no balance past 64 bits. -/
def Traceless (P : Primitives) (ledger : Ledger) (txs : List Transaction) : Prop :=
  (∀ tx ∈ appliedPart P ledger txs, (ledger.getBalance tx.recipient).isSome) ∧
    Along tryTransaction HasRoom ledger (appliedPart P ledger txs)

instance (P : Primitives) (ledger : Ledger) (txs : List Transaction) : Decidable (Traceless P ledger txs) :=
  inferInstanceAs (Decidable (_ ∧ _))

section
variable {P : Primitives} {ledger : Ledger} {before after : List Transaction} {tx : Transaction}

theorem appliedPart_eq (signed : ∀ t ∈ before, t.Authentic P) (all : AllAccepted applyTransaction ledger before)
    (stops : Stops P (play applyTransaction ledger before) tx) :
    appliedPart P ledger (before ++ tx :: after) = before := by
  induction before generalizing ledger with
  | nil =>
    have fails : ¬ (tx.Authentic P ∧ (ledger.applyTransaction tx).1 = true) := by
      rintro ⟨authentic,accepts⟩
      cases stops with
      | unsigned verdict =>
        rw [checkSignature_true.mpr authentic] at verdict
        cases verdict
      | refused verdict refusal => exact Bool.false_ne_true (refusal.symm.trans accepts)
    rw [List.nil_append,appliedPart,if_neg fails]
  | cons first rest ih =>
    obtain ⟨authentic,later⟩ := List.forall_mem_cons.mp signed
    rw [List.cons_append,appliedPart,if_pos ⟨authentic,all.1⟩,tryTransaction,ih later all.2 stops]

end

/-- In every reachable state a rejected block on the tip leaves every balance
    and counter as it was, and no address known that was not, if and only if its
    transactions are not tried at all or those before the first failing one pay
    known addresses and wrap no balance. -/
theorem rejected_looks_iff {P : Primitives} {mempoolMaxSize : Nat} {params : ConsensusParams}
    {storage : Option Storage} {calls : List Call} {reading : Reading} {block : Block} :
    let m := run (ChainManager.after P) (.new P mempoolMaxSize params storage) calls
    block.prevHash = m.blockchain.latest.hash → block.transactions.length < 2 ^ 64 →
    (m.submitBlock P reading block).1 = .ok .rejected →
    ((m.submitBlock P reading block).2.ledger.Looks m.ledger ↔
      (OnTip P m reading.now block → Traceless P m.ledger block.transactions)) := by
  intro m parent short rejected
  have regular : Regular P m := regular_run P mempoolMaxSize params storage calls
  cases submitBlock_cases regular reading block with
  | refused notOn notOff run =>
    rw [run]
    exact ⟨fun _ tip => absurd tip notOn,fun _ _ => ⟨rfl,rfl⟩⟩
  | accepted tip signed applied run =>
    rw [run] at rejected
    cases rejected
  | rolledBack tip before tx after split signed applied stops run =>
    have part : appliedPart P m.ledger block.transactions = before := by
      rw [split]
      exact appliedPart_eq signed applied stops
    have shorter : before.length < 2 ^ 64 := by
      rw [split,List.length_append] at short
      omega
    have first : ∀ t ∈ before.drop 1, ¬ t.isCoinbase := by
      intro t member
      refine tip.proper.coinbaseFirst t ?_
      rw [split]
      exact (((List.sublist_append_left before (tx :: after)).drop 1).subset member)
    have looks := looks_rollback_iff applied shorter first
    rw [run]
    unfold Traceless
    rw [part]
    exact ⟨fun same _ => looks.mp same,fun unmarked => looks.mpr (unmarked tip)⟩
  | raised tip before tx after e split signed applied bad run =>
    rw [run] at rejected
    cases rejected
  | waiting off untraced run => exact absurd parent off.parent
  | outweighed off traced weak run => exact absurd parent off.parent
  | unverifiable off fork chosen e heavier bad run => exact absurd parent off.parent
  | reorganized off fork chosen height m' reorg ledger run => exact absurd parent off.parent

theorem rejected_looks_forgedA :
    let m := run (ChainManager.after sample) (.new sample 1000 testParams none) [.setBalance aliceAddress 7]
    (m.submitBlock sample reading forgedA).1 = .ok .rejected ∧
      (m.submitBlock sample reading forgedA).2.ledger.Looks m.ledger := by
  have rejected : ((run (ChainManager.after sample) (.new sample 1000 testParams none)
      [.setBalance aliceAddress 7]).submitBlock sample reading forgedA).1 = .ok .rejected := by decide +kernel
  refine ⟨rejected,?_⟩
  refine (rejected_looks_iff (by decide +kernel) (by decide) rejected).mpr fun _ => ?_
  decide +kernel

/-- A rejected block leaves an entry for the address its coinbase pays. -/
theorem rejected_marks_forgedA :
    let m := run (ChainManager.after sample) (.new sample 1000 testParams none) []
    forgedA.prevHash = m.blockchain.latest.hash ∧ (m.submitBlock sample reading forgedA).1 = .ok .rejected ∧
      ¬ (m.submitBlock sample reading forgedA).2.ledger.Looks m.ledger := by
  refine ⟨by decide +kernel,by decide +kernel,fun looks => ?_⟩
  have same := (looks aliceAddress).1
  revert same
  decide +kernel

end ForgeChain.Rollback
