import ForgeChain.LedgerPlay
import ForgeChain.Samples

/-!
Replay protection. Along any run of balances set, transactions applied and the
latest one taken back, the transactions of a sender that are in effect carry
the nonces 0, 1, 2 and so on below the sender's counter, in the order they were
applied. So no two of them have the same signed bytes. The signed bytes name
the sender only where the sizes they write fit 32 bits, and coinbases carry no
counter: these two kinds may be in effect twice.
-/
namespace ForgeChain.Nonces
open Runs Ledger Codec Samples

/-- A call on a ledger; `undo` takes back the latest transaction in effect. -/
inductive Step where
  | setBalance (address : Bytes) (amount : UInt64)
  | apply (tx : Transaction)
  | undo
  deriving DecidableEq

/-- A ledger and the transactions that were applied to it and not taken back,
    in the order they were applied. -/
structure History where
  ledger : Ledger
  inEffect : List Transaction
  deriving DecidableEq

namespace History

def start : History := ⟨.empty,[]⟩

def step (history : History) : Step → History
  | .setBalance address amount => { history with ledger := history.ledger.setBalance address amount }
  | .apply tx =>
    match history.ledger.applyTransaction tx with
    | (true,ledger) => ⟨ledger,history.inEffect ++ [tx]⟩
    | (false,ledger) => { history with ledger }
  | .undo =>
    match history.inEffect.getLast? with
    | none => history
    | some tx =>
      match history.ledger.reverseTransaction tx with
      | (true,ledger) => ⟨ledger,history.inEffect.dropLast⟩
      | (false,ledger) => { history with ledger }

/-- The transactions in effect that an address sent. -/
def sentBy (history : History) (sender : Bytes) : List Transaction :=
  history.inEffect.filter fun tx => ¬ tx.isCoinbase ∧ tx.sender = sender

/-- The transactions of every sender carry the nonces below its counter. -/
def Numbered (history : History) : Prop :=
  ∀ sender, (history.sentBy sender).map (·.nonce.toNat) = List.range (history.ledger.nextNonce sender).toNat

end History

/-! ### The counters -/

section
variable {ledger : Ledger} {tx : Transaction} {address : Bytes}

/-- A counter moves with the transactions of its own address only. -/
def Counts (tx : Transaction) (address : Bytes) : Prop := ¬ tx.isCoinbase ∧ tx.sender = address

theorem nextNonce_apply_of_not (other : ¬ Counts tx address) :
    (ledger.applyTransaction tx).2.nextNonce address = ledger.nextNonce address := by
  by_cases coinbase : tx.isCoinbase
  · rw [apply_coinbase coinbase,credit,nextNonce_setBalance]
  · have different : address ≠ tx.sender := fun same => other ⟨coinbase,same.symm⟩
    by_cases affords : ledger.Affords tx
    · rw [apply_affords coinbase affords,credit,nextNonce_setBalance,debit,nextNonce_setNonce,if_neg different,
        nextNonce_setBalance]
    · rw [apply_refused coinbase affords]

theorem nextNonce_reverse_of_not (other : ¬ Counts tx address) :
    (ledger.reverseTransaction tx).2.nextNonce address = ledger.nextNonce address := by
  by_cases undoable : ledger.Undoable tx
  swap
  · rw [reverse_refused undoable]
  rw [reverse_undoable undoable,uncredit,nextNonce_setBalance]
  by_cases coinbase : tx.isCoinbase
  · rw [if_pos coinbase]
  · have different : address ≠ tx.sender := fun same => other ⟨coinbase,same.symm⟩
    rw [if_neg coinbase,undebit,nextNonce_setNonce,if_neg different,nextNonce_setBalance]

/-- An applied transaction carries its sender's counter and moves it on by one. -/
theorem nextNonce_apply (plain : ¬ tx.isCoinbase) (accepts : (ledger.applyTransaction tx).1 = true) :
    tx.nonce = ledger.nextNonce tx.sender ∧ (ledger.applyTransaction tx).2.nextNonce tx.sender = tx.nonce + 1 := by
  have affords := ((apply_accepts_iff ledger tx).mp accepts).resolve_left plain
  rw [apply_affords plain affords,credit,nextNonce_setBalance,debit,nextNonce_setNonce,if_pos rfl]
  obtain ⟨held,known,enough,next⟩ := affords
  exact ⟨next,rfl⟩

/-- A transaction that is taken back leaves its nonce as its sender's counter. -/
theorem nextNonce_reverse (plain : ¬ tx.isCoinbase) (accepts : (ledger.reverseTransaction tx).1 = true) :
    (ledger.reverseTransaction tx).2.nextNonce tx.sender = tx.nonce := by
  rw [reverse_undoable ((reverse_accepts_iff ledger tx).mp accepts),uncredit,nextNonce_setBalance,if_neg plain,undebit,
    nextNonce_setNonce,if_pos rfl]

end

/-! ### One step -/

namespace History
section
variable {history : History} {tx : Transaction} {sender : Bytes}

/-- What a step can do. -/
inductive Stepped (history : History) (action : Step) : Prop
  | balance (address : Bytes) (amount : UInt64) (call : action = .setBalance address amount)
      (run : history.step action = { history with ledger := history.ledger.setBalance address amount })
  | applied (tx : Transaction) (call : action = .apply tx) (accepts : (history.ledger.applyTransaction tx).1 = true)
      (run : history.step action = ⟨(history.ledger.applyTransaction tx).2,history.inEffect ++ [tx]⟩)
  | undone (earlier : List Transaction) (tx : Transaction) (call : action = .undo)
      (latest : history.inEffect = earlier ++ [tx]) (accepts : (history.ledger.reverseTransaction tx).1 = true)
      (run : history.step action = ⟨(history.ledger.reverseTransaction tx).2,earlier⟩)
  | refused (run : history.step action = history)

theorem step_cases (history : History) (action : Step) : Stepped history action := by
  cases action with
  | setBalance address amount => exact .balance address amount rfl rfl
  | apply tx =>
    rcases verdict : history.ledger.applyTransaction tx with ⟨_ | _,ledger⟩
    · obtain rfl : ledger = history.ledger := by
        have same := apply_measured.refused history.ledger tx (by rw [verdict])
        rwa [verdict] at same
      refine .refused ?_
      rw [step,verdict]
    · refine .applied tx rfl (by rw [verdict]) ?_
      rw [step,verdict]
  | undo =>
    rcases List.eq_nil_or_concat' history.inEffect with none | ⟨earlier,tx,latest⟩
    · refine .refused ?_
      rw [step,none,List.getLast?_nil]
    · rcases verdict : history.ledger.reverseTransaction tx with ⟨_ | _,ledger⟩
      · obtain rfl : ledger = history.ledger := by
          have same := reverse_measured.refused history.ledger tx (by rw [verdict])
          rwa [verdict] at same
        refine .refused ?_
        rw [step,latest,List.getLast?_concat]
        dsimp only
        rw [verdict,← latest]
      · refine .undone earlier tx rfl latest (by rw [verdict]) ?_
        rw [step,latest,List.getLast?_concat]
        dsimp only
        rw [verdict,List.dropLast_concat]

theorem sentBy_append_of_not {ledger : Ledger} {earlier : List Transaction} (other : ¬ Counts tx sender) :
    sentBy ⟨ledger,earlier ++ [tx]⟩ sender = sentBy ⟨ledger,earlier⟩ sender := by
  have dropped : [tx].filter (fun tx => ¬ tx.isCoinbase ∧ tx.sender = sender) = [] := by simpa [Counts] using other
  simp only [sentBy,List.filter_append,dropped,List.append_nil]

theorem sentBy_append {ledger : Ledger} {earlier : List Transaction} (own : Counts tx sender) :
    sentBy ⟨ledger,earlier ++ [tx]⟩ sender = sentBy ⟨ledger,earlier⟩ sender ++ [tx] := by
  have kept : [tx].filter (fun tx => ¬ tx.isCoinbase ∧ tx.sender = sender) = [tx] := by simpa [Counts] using own
  simp only [sentBy,List.filter_append,kept]

/-- The counter of a sender is the number of its transactions in effect. -/
theorem Numbered.length (numbered : history.Numbered) (sender : Bytes) :
    (history.ledger.nextNonce sender).toNat ≤ history.inEffect.length := by
  have same := congrArg List.length (numbered sender)
  rw [List.length_map,List.length_range] at same
  rw [← same]
  exact List.length_filter_le _ _

theorem numbered_step (numbered : history.Numbered) (short : history.inEffect.length + 1 < 2 ^ 64) (action : Step) :
    (history.step action).Numbered := by
  cases step_cases history action with
  | balance address amount call run =>
    rw [run]
    exact numbered
  | refused run =>
    rw [run]
    exact numbered
  | applied tx call accepts run =>
    rw [run]
    intro sender
    by_cases own : Counts tx sender
    · obtain ⟨plain,rfl⟩ := own
      obtain ⟨next,moved⟩ := nextNonce_apply plain accepts
      have bound := numbered.length tx.sender
      have succ : (tx.nonce + 1).toNat = (history.ledger.nextNonce tx.sender).toNat + 1 := by
        rw [next,UInt64.toNat_add,UInt64.toNat_one,Nat.mod_eq_of_lt (by omega)]
      rw [sentBy_append ⟨plain,rfl⟩,List.map_append,moved,succ,List.range_succ,List.map_singleton,next]
      exact congrArg (· ++ _) (numbered tx.sender)
    · rw [sentBy_append_of_not own,nextNonce_apply_of_not own]
      exact numbered sender
  | undone earlier tx call latest accepts run =>
    rw [run]
    intro sender
    have before := numbered sender
    rw [show history = ⟨history.ledger,earlier ++ [tx]⟩ from by rw [← latest]] at before
    by_cases own : Counts tx sender
    · obtain ⟨plain,rfl⟩ := own
      have undoable := (reverse_accepts_iff _ tx).mp accepts
      have counter := undoable.2.resolve_left plain
      rw [sentBy_append ⟨plain,rfl⟩,List.map_append,List.map_singleton] at before
      -- The last nonce of the sender is the one that is taken back.
      cases size : (history.ledger.nextNonce tx.sender).toNat with
      | zero => simp [size] at before
      | succ count =>
        rw [size,List.range_succ] at before
        obtain ⟨rest,last⟩ := List.append_inj' before rfl
        rw [nextNonce_reverse plain accepts]
        have nonce : tx.nonce.toNat = count := by simpa using last
        rw [nonce]
        exact rest
    · rw [sentBy_append_of_not own] at before
      rw [nextNonce_reverse_of_not own]
      exact before

theorem length_step (history : History) (action : Step) :
    (history.step action).inEffect.length ≤ history.inEffect.length + 1 := by
  cases step_cases history action with
  | balance address amount call run =>
    rw [run]
    exact Nat.le_succ _
  | refused run =>
    rw [run]
    exact Nat.le_succ _
  | applied tx call accepts run =>
    rw [run,List.length_append]
    exact Nat.le_refl _
  | undone earlier tx call latest accepts run =>
    rw [run,latest,List.length_append,List.length_singleton]
    show earlier.length ≤ earlier.length + 1 + 1
    omega

theorem numbered_run {steps : List Step} (numbered : history.Numbered)
    (short : history.inEffect.length + steps.length < 2 ^ 64) : (run step history steps).Numbered := by
  induction steps generalizing history with
  | nil => exact numbered
  | cons action rest ih =>
    rw [List.length_cons] at short
    have grown := length_step history action
    exact ih (numbered_step numbered (by omega) action) (by omega)

theorem numbered_start : start.Numbered := by
  intro sender
  rfl

end
end History

/-! ### Signed bytes -/

section
variable {tx other : Transaction}

/-- The sizes that the signed bytes write fit 32 bits. -/
structure Sized (tx : Transaction) : Prop where
  sender : tx.sender.length < 2 ^ 32
  recipient : tx.recipient.length < 2 ^ 32
  senderPublicKey : tx.senderPublicKey.length < 2 ^ 32

theorem sized_inj {field more rest rest' : Bytes} (short : field.length < 2 ^ 32) (short' : more.length < 2 ^ 32)
    (same : sized field ++ rest = sized more ++ rest') : field = more := by
  have read : readSized (sized field ++ rest) = some (field,rest) := (reads_sized _ _ _).mpr ⟨short,rfl⟩
  have read' : readSized (sized more ++ rest') = some (more,rest') := (reads_sized _ _ _).mpr ⟨short',rfl⟩
  rw [same,read',Option.some.injEq,Prod.mk.injEq] at read
  exact read.1.symm

/-- The signed bytes end with the nonce. -/
theorem nonce_of_signed (same : tx.serializeForSigning = other.serializeForSigning) : tx.nonce = other.nonce := by
  unfold Transaction.serializeForSigning at same
  exact le64_inj (List.append_inj' same (by simp)).2

/-- The signed bytes name the sender, behind the amount. -/
theorem sender_of_signed (fits : Sized tx) (otherFits : Sized other)
    (same : tx.serializeForSigning = other.serializeForSigning) : tx.sender = other.sender := by
  simp only [Transaction.serializeForSigning,List.append_assoc] at same
  exact sized_inj fits.sender otherFits.sender (List.append_inj same (by simp)).2

end

/-- In every run of fewer than 2^64 steps on an empty ledger: the transactions
    of a sender in effect carry the nonces below its counter in order; two in
    effect with the same signed bytes are coinbases or have a field of 2^32 bytes;
    and a counter does not move with a balance that is set, with a coinbase or
    with a transaction that somebody else sent. -/
theorem nonces_in_order {steps : List Step} (short : steps.length < 2 ^ 64) :
    let history := run History.step .start steps
    (∀ sender, (history.sentBy sender).map (·.nonce.toNat) = List.range (history.ledger.nextNonce sender).toNat) ∧
      history.inEffect.Pairwise (fun tx other =>
        tx.serializeForSigning = other.serializeForSigning →
          tx.isCoinbase ∧ other.isCoinbase ∨ ¬ (Sized tx ∧ Sized other)) ∧
      ∀ address, (∀ other amount, (history.ledger.setBalance other amount).nextNonce address =
          history.ledger.nextNonce address) ∧
        ∀ tx, tx.isCoinbase ∨ tx.sender ≠ address →
          (history.ledger.applyTransaction tx).2.nextNonce address = history.ledger.nextNonce address ∧
          (history.ledger.reverseTransaction tx).2.nextNonce address = history.ledger.nextNonce address := by
  intro history
  have numbered : history.Numbered := History.numbered_run History.numbered_start (by simpa [History.start] using short)
  refine ⟨numbered,?_,fun address => ⟨fun _ _ => rfl,fun tx other => ?_⟩⟩
  · rw [List.pairwise_iff_forall_sublist]
    intro tx other both same
    by_contra fails
    obtain ⟨notCoinbases,fit⟩ := not_or.mp fails
    obtain ⟨fits,otherFits⟩ := not_not.mp fit
    have sender := sender_of_signed fits otherFits same
    have plain : ¬ tx.isCoinbase := by
      intro coinbase
      refine notCoinbases ⟨coinbase,?_⟩
      rw [Transaction.isCoinbase,← sender]
      exact coinbase
    -- Both are among the transactions of one sender, whose nonces differ.
    have own : [tx,other].Sublist (history.sentBy tx.sender) := by
      have kept := both.filter fun t => ¬ t.isCoinbase ∧ t.sender = tx.sender
      have otherPlain : ¬ other.isCoinbase := by
        rw [Transaction.isCoinbase,← sender]
        exact plain
      simpa [History.sentBy,plain,otherPlain,sender] using kept
    have distinct : ((history.sentBy tx.sender).map (·.nonce.toNat)).Nodup := by
      rw [numbered tx.sender]
      exact List.nodup_range
    have apart := (own.map (·.nonce.toNat)).nodup distinct
    simp [nonce_of_signed same] at apart
  · have not : ¬ Counts tx address := by
      rintro ⟨plain,own⟩
      exact other.elim plain fun different => different own
    exact ⟨nextNonce_apply_of_not not,nextNonce_reverse_of_not not⟩

/-- Alice pays, takes it back and pays again. -/
def repaid : List Step := [.setBalance aliceAddress 50,.apply pay,.undo,.apply pay]

theorem nonces_in_order_repaid :
    (run History.step .start repaid).inEffect = [pay] ∧
      ((run History.step .start repaid).sentBy aliceAddress).map (·.nonce.toNat) =
        List.range ((run History.step .start repaid).ledger.nextNonce aliceAddress).toNat :=
  ⟨by decide +kernel,(nonces_in_order (by decide)).1 aliceAddress⟩

/-! ### In effect twice -/

/-- A payment of nothing from a sender of `n` zero bytes. -/
def wideSender (n : Nat) : Transaction := ⟨List.replicate n 0,[],[],0,[],0,0⟩

/-- A payment of nothing from an empty sender whose key has `n` zero bytes. -/
def wideKey (n : Nat) : Transaction := ⟨[],[],List.replicate n 0,0,[],0,0⟩

/-- A size that is a multiple of 2^32 is written as 0, so the sender of one and
    the key of the other come out as the same zeros. -/
theorem signed_wide {n : Nat} (wraps : n % 2 ^ 32 = 0) :
    (wideSender n).serializeForSigning = (wideKey n).serializeForSigning := by
  have size : UInt32.ofNat n = 0 := by
    rw [← UInt32.toNat_inj,UInt32.toNat_ofNat',wraps]
    rfl
  have zero : le32 0 = List.replicate 4 0 := by decide
  have zeros : le64 0 = List.replicate 8 0 := by decide
  have empty : sized [] = List.replicate 4 0 := by decide
  have wide : sized (List.replicate n 0) = List.replicate (4 + n) 0 := by
    rw [sized,List.length_replicate,size,zero,List.replicate_append_replicate]
  unfold wideSender wideKey Transaction.serializeForSigning
  simp only [empty,wide,zeros,List.replicate_append_replicate]
  congr 1
  omega

/-- Both senders get something and make their payments. -/
def widePayments (n : Nat) : List Step :=
  [.setBalance (List.replicate n 0) 1,.setBalance [] 1,.apply (wideSender n),.apply (wideKey n)]

theorem inEffect_wide {n : Nat} (positive : 0 < n) :
    (run History.step .start (widePayments n)).inEffect = [wideSender n,wideKey n] ∧
      ¬ (wideSender n).isCoinbase ∧ ¬ (wideKey n).isCoinbase := by
  have different : List.replicate n 0 ≠ ([] : Bytes) := by
    rw [Ne,List.replicate_eq_nil_iff]
    omega
  have plain : ¬ (wideSender n).isCoinbase := by
    obtain ⟨k,rfl⟩ : ∃ k, n = k + 1 := ⟨n - 1,by omega⟩
    simp [wideSender,Transaction.isCoinbase,kCoinbaseSender,List.replicate_succ]
  have otherPlain : ¬ (wideKey n).isCoinbase := by simp [wideKey,Transaction.isCoinbase,kCoinbaseSender]
  refine ⟨?_,plain,otherPlain⟩
  have first : ((Ledger.empty.setBalance (List.replicate n 0) 1).setBalance [] 1).Affords (wideSender n) := by
    refine ⟨1,?_,by simp [wideSender],rfl⟩
    simp [Ledger.getBalance,Ledger.setBalance,wideSender,Finmap.lookup_insert_of_ne _ different]
  have second : ((((Ledger.empty.setBalance (List.replicate n 0) 1).setBalance [] 1).debit (wideSender n)).credit
      (wideSender n)).Affords (wideKey n) := by
    refine ⟨1,?_,by simp [wideKey],?_⟩
    · simp [Ledger.getBalance,Ledger.setBalance,Ledger.setNonce,Ledger.balance,Ledger.debit,Ledger.credit,wideSender,
        wideKey,Finmap.lookup_insert_of_ne _ (Ne.symm different)]
    · simp [Ledger.credit,Ledger.debit,nextNonce_setNonce,wideSender,wideKey,Ne.symm different]
      rfl
  simp only [widePayments,run_cons,run_nil,History.step,History.start,apply_affords plain first,
    apply_affords otherPlain second,List.nil_append,List.singleton_append]

/-- Two equal coinbases are in effect at a time, and so are two payments with
    the same signed bytes whose sender, or key, is 4 GiB long. -/
theorem in_effect_twice :
    ¬ (run History.step .start [.apply reward,.apply reward]).inEffect.Pairwise
        (fun tx other => tx.serializeForSigning ≠ other.serializeForSigning) ∧
      ¬ ((run History.step .start (widePayments (2 ^ 32))).inEffect.filter (¬ ·.isCoinbase)).Pairwise
        (fun tx other => tx.serializeForSigning ≠ other.serializeForSigning) := by
  refine ⟨by decide +kernel,?_⟩
  obtain ⟨inEffect,plain,otherPlain⟩ := inEffect_wide (n := 2 ^ 32) (by norm_num)
  have both : [wideSender (2 ^ 32),wideKey (2 ^ 32)].filter (¬ ·.isCoinbase) =
      [wideSender (2 ^ 32),wideKey (2 ^ 32)] := by
    rw [List.filter_eq_self]
    intro tx member
    rcases List.mem_pair.mp member with rfl | rfl
    · exact decide_eq_true plain
    · exact decide_eq_true otherPlain
  rw [inEffect,both]
  intro apart
  exact List.rel_of_pairwise_cons apart List.mem_cons_self (signed_wide (by norm_num))

end ForgeChain.Nonces
