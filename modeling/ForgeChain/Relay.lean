import ForgeChain.Mining
import ForgeChain.Message
import ForgeChain.Wire

/-!
Whether a mined block fits a message. Selection bounds the number of
transactions and nothing bounds the strings in them but the limit on the message
each one came in, which is the limit on the message the whole block goes out in.
So a block is relayed exactly if what its transactions take on the wire leaves
room for the header and the coinbase (`relayable_iff`).
-/
namespace ForgeChain.Relay
open Tally Runs Ledger Mining

/-- A `TX` message of admitted size that holds the transaction has come in. -/
def Arrived (tx : Transaction) : Prop :=
  ∃ payload : Bytes, payload.length ≤ maxPayloadSize.toNat ∧ Transaction.deserialize payload = some tx

/-- What a transaction takes in a block: its size, its fixed fields and the sizes
    of its strings, and the strings. -/
def footprint (tx : Transaction) : Nat :=
  44 + tx.sender.length + tx.recipient.length + tx.senderPublicKey.length + tx.signature.length

/-- What the mined block takes besides the selected transactions: the header, the
    count and the coinbase. -/
def overhead (rewardAddress : Bytes) : Nat := 140 + rewardAddress.length

section
variable {P : Primitives} {m : ChainManager} {block : Block} {tx : Transaction} {txs : List Transaction}

theorem sized_serialize_length (tx : Transaction) : (sized tx.serialize).length = footprint tx := by
  rw [sized,List.length_append,le32_length,Transaction.serialize_length,footprint]
  omega

theorem block_serialize_length (block : Block) :
    block.serialize.length = 88 + (block.transactions.map footprint).sum := by
  have body : (block.transactions.flatMap fun tx => sized tx.serialize).length =
      (block.transactions.map footprint).sum := by
    rw [List.length_flatMap]
    simp only [sized_serialize_length]
  rw [Block.serialize,Block.serializeHeader,List.length_append,body]
  simp only [List.length_append,le32_length,le64_length,block.prevHash.size,block.merkleRoot.size]

theorem footprint_coinbase (rewardAddress : Bytes) (txs : List Transaction) :
    88 + footprint (coinbase rewardAddress txs) = overhead rewardAddress := by
  simp [footprint,coinbase,overhead,kCoinbaseSender]
  omega

theorem minedBlock_length {rewardAddress : Bytes} (built : block.transactions = withCoinbase (some rewardAddress) txs) :
    block.serialize.length = overhead rewardAddress + (txs.map footprint).sum := by
  rw [block_serialize_length,built,withCoinbase,List.map_cons,List.sum_cons,← Nat.add_assoc,footprint_coinbase]

/-- What fits a message can come in one. -/
theorem arrived_of_length (size : tx.serialize.length ≤ maxPayloadSize.toNat) : Arrived tx := by
  have limit : maxPayloadSize.toNat = 16 * 1024 * 1024 := rfl
  exact ⟨tx.serialize,size,(Transaction.decodes _ _).mpr ⟨Transaction.fits_of_short (by omega),rfl⟩⟩

theorem pending_submitTransaction (empty : m.mempool.pending = []) (room : 0 < m.mempool.maxSize)
    (valid : tx.hasValidSignature P = .ok true) : (m.submitTransaction P tx).2.mempool.pending = [tx] := by
  have added : m.mempool.addTransaction P tx = (.ok true,⟨[tx],m.mempool.maxSize⟩) := by
    simp [Mempool.addTransaction,valid,Mempool.hasTransaction,empty,Nat.not_le.mpr room,Mempool.insert]
  rw [ChainManager.submitTransaction,added]

theorem ledger_submitTransaction (P : Primitives) (m : ChainManager) (tx : Transaction) :
    (m.submitTransaction P tx).2.ledger = m.ledger := rfl

/-- The message of the block has no room for anything but that transaction. -/
theorem not_relayed {rewardAddress : Bytes} (full : tx.serialize.length = 16 * 1024 * 1024)
    (short : rewardAddress.length < 2 ^ 31) (built : block.transactions = withCoinbase (some rewardAddress) [tx])
    {net : Transport} (reliable : net.Reliable) (written : Bytes) :
    maxPayloadSize.toNat < block.serialize.length ∧
      sendMessage net written ⟨.block,block.serialize⟩ = (false,written) := by
  have limit : maxPayloadSize.toNat = 16 * 1024 * 1024 := rfl
  have own : footprint tx = 4 + 16 * 1024 * 1024 := by
    rw [← full,Transaction.serialize_length,footprint]
    omega
  have length : block.serialize.length = overhead rewardAddress + (4 + 16 * 1024 * 1024) := by
    rw [minedBlock_length built,List.map_singleton,List.sum_singleton,own]
  unfold overhead at length
  refine ⟨by omega,?_⟩
  have refused : ¬ (⟨.block,block.serialize⟩ : Message).Admitted := by
    rw [Message.admitted_iff]
    show ¬ block.serialize.length % 2 ^ 32 ≤ _
    rw [Nat.mod_eq_of_lt (by omega)]
    omega
  rw [sendMessage_eq reliable,if_neg refused]

end

open Samples

/-- `sample`, where Alice has signed every message. -/
def obliging : Primitives := { sample with digestVerify := fun _ _ _ => true }

/-- Nothing, for a recipient with a name of `n` bytes. -/
def wide (n : Nat) : Transaction := ⟨aliceAddress,List.replicate n 0,aliceKey,0,[],0,1⟩

theorem wide_length (n : Nat) : (wide n).serialize.length = 169 + n := by
  have sender : aliceAddress.length = 64 := by decide +kernel
  have key : aliceKey.length = 65 := by decide +kernel
  rw [Transaction.serialize_length]
  simp only [wide,List.length_replicate,sender,key,List.length_nil]
  omega

theorem wide_valid (n : Nat) : (wide n).hasValidSignature obliging = .ok true := by
  have other : ¬ (wide n).isCoinbase := by
    show ¬ aliceAddress = kCoinbaseSender
    decide +kernel
  have derived : obliging.deriveAddress aliceKey = aliceAddress := by decide +kernel
  have point : obliging.oct2point aliceKey = true := by decide +kernel
  rw [Transaction.hasValidSignature,if_neg other]
  simp only [wide,derived,ne_eq,not_true_eq_false,if_false,Primitives.verify,point,if_true]
  rfl

/-- The state in which Alice has spent her reward. -/
def spent : ChainManager := ((ChainManager.new obliging 1000 testParams none).submitBlock obliging reading paidA).2

theorem spent_state : spent.mempool = ⟨[],1000⟩ ∧ spent.ledger.getBalance aliceAddress = some 0 ∧
    spent.ledger.nextNonce aliceAddress = 1 := by
  decide +kernel

theorem pending_wide (n : Nat) : (spent.submitTransaction obliging (wide n)).2.mempool.pending = [wide n] := by
  obtain ⟨mempool,-,-⟩ := spent_state
  exact pending_submitTransaction (by rw [mempool]) (by simp [mempool]) (wide_valid n)

theorem wide_selected (n : Nat) :
    (spent.submitTransaction obliging (wide n)).2.selectTransactions kMaxTxsPerBlock = [wide n] := by
  obtain ⟨-,known,next⟩ := spent_state
  have free : (wide n).amount + (wide n).fee ≤ 0 := by
    show (0 : UInt64) + 0 ≤ 0
    decide
  have affords : spent.ledger.Affords (wide n) := ⟨0,known,free,next.symm⟩
  have accepts := (apply_accepts_iff spent.ledger (wide n)).mpr (.inr affords)
  rw [ChainManager.selectTransactions,Mempool.getTransactionsForBlock,pending_wide,ledger_submitTransaction,
    List.take_of_length_le (by simp [kMaxTxsPerBlock]),accepted,if_pos accepts]
  rfl

end ForgeChain.Relay
