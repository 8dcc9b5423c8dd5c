import ForgeChain.Samples

/-!
The wire formats of transactions and blocks. Each decoder is a reader that has
to use up its payload; the reader's law says that it accepts exactly what the
serializer writes for values within the 32-bit sizes, and returns that value.
-/
namespace ForgeChain
open Codec

namespace Transaction

/-- The sized fields are shorter than their 32-bit sizes can say. -/
structure Fits (tx : Transaction) : Prop where
  sender : tx.sender.length < 2 ^ 32
  recipient : tx.recipient.length < 2 ^ 32
  senderPublicKey : tx.senderPublicKey.length < 2 ^ 32
  signature : tx.signature.length < 2 ^ 32

/-- What `deserialize` reads before it asks for the end of the payload. -/
def read (payload : Bytes) : Option (Transaction × Bytes) := do
  let (amount,rest) ← readU64 payload
  let (sender,rest) ← readSized rest
  let (recipient,rest) ← readSized rest
  let (senderPublicKey,rest) ← readSized rest
  let (fee,rest) ← readU64 rest
  let (nonce,rest) ← readU64 rest
  let (signature,rest) ← readSized rest
  some ({ sender,recipient,senderPublicKey,amount,signature,fee,nonce },rest)

theorem deserialize_eq (payload : Bytes) : deserialize payload = whole read payload := by
  simp only [deserialize,read,whole,Option.bind_eq_bind,Option.bind_assoc,Option.bind_some]

theorem reads : Reads read serialize Fits := by
  intro input tx rest
  simp only [read,Option.bind_eq_bind,Option.bind_eq_some_iff,Prod.exists,reads_u64 _ _ _,reads_sized _ _ _,
    Option.some.injEq,Prod.mk.injEq,true_and]
  constructor
  · rintro ⟨amount,_,rfl,sender,_,⟨short₁,rfl⟩,recipient,_,⟨short₂,rfl⟩,key,_,⟨short₃,rfl⟩,fee,_,rfl,nonce,_,rfl,
      signature,_,⟨short₄,rfl⟩,rfl,rfl⟩
    exact ⟨⟨short₁,short₂,short₃,short₄⟩,by simp [serialize,serializeForSigning]⟩
  · rintro ⟨fits,rfl⟩
    exact ⟨tx.amount,_,by simp [serialize,serializeForSigning],tx.sender,_,⟨fits.sender,rfl⟩,tx.recipient,_,
      ⟨fits.recipient,rfl⟩,tx.senderPublicKey,_,⟨fits.senderPublicKey,rfl⟩,tx.fee,_,rfl,tx.nonce,_,rfl,
      tx.signature,_,⟨fits.signature,rfl⟩,rfl,rfl⟩

theorem decodes : Decodes deserialize serialize Fits := by
  intro payload tx
  rw [deserialize_eq,reads.whole]

/-- A transaction takes 40 bytes more than its sized fields. -/
theorem serialize_length (tx : Transaction) :
    tx.serialize.length = 40 + tx.sender.length + tx.recipient.length + tx.senderPublicKey.length +
      tx.signature.length := by
  simp only [serialize,serializeForSigning,sized,List.length_append,le64_length,le32_length]
  omega

theorem fits_of_short {tx : Transaction} (short : tx.serialize.length < 2 ^ 32) : tx.Fits := by
  rw [serialize_length] at short
  constructor <;> omega

end Transaction

namespace Block

/-- The count of the transactions and the size of each are 32-bit numbers. -/
structure Fits (block : Block) : Prop where
  count : block.transactions.length < 2 ^ 32
  sizes : ∀ tx ∈ block.transactions, tx.serialize.length < 2 ^ 32

theorem readTransactions_eq (count : Nat) (rest : Bytes) :
    readTransactions count rest = many (nested readSized Transaction.deserialize) count rest := by
  induction count generalizing rest with
  | zero => rfl
  | succ count more => simp [readTransactions,many,nested,more,Option.bind_assoc]

variable (P : Primitives)

/-- The header's fields and the transactions as `deserialize` reads them; the
    block is then put together by the constructor. -/
def read (payload : Bytes) : Option (Block × Bytes) := do
  let (version,rest) ← readU32 payload
  let (prevHash,rest) ← readHash rest
  let (merkleRoot,rest) ← readHash rest
  let (timestamp,rest) ← readU64 rest
  let (difficulty,rest) ← readU32 rest
  let (nonce,rest) ← readU32 rest
  let (count,rest) ← readU32 rest
  let (transactions,rest) ← readTransactions count.toNat rest
  let block : Block := { make P version prevHash timestamp transactions with difficulty,nonce,merkleRoot }
  some ({ block with hash := block.computeHash P },rest)

theorem deserialize_eq (payload : Bytes) : deserialize P payload = whole (read P) payload := by
  simp only [deserialize,read,whole,Option.bind_eq_bind,Option.bind_assoc,Option.bind_some]

/-- What decoding sets: the hash is the computed one and no work is stamped. -/
structure Fresh (block : Block) : Prop where
  hash : block.hash = block.computeHash P
  work : block.cumulativeWork = 0

/-- The block with the two fields set that are not on the wire. -/
def fresh (block : Block) : Block := { block with hash := block.computeHash P,cumulativeWork := 0 }

theorem fresh_eq {block : Block} (decoded : block.Fresh P) : block.fresh P = block := by
  cases block
  simp only [fresh,← decoded.hash,← decoded.work]

theorem reads_transactions (count : Nat) :
    Reads (readTransactions count) (List.flatMap fun tx => sized tx.serialize) fun transactions =>
      transactions.length = count ∧ ∀ tx ∈ transactions, tx.serialize.length < 2 ^ 32 := by
  intro input transactions rest
  rw [readTransactions_eq,(reads_sized.nested Transaction.decodes).many]
  -- a transaction's size bounds its fields
  have bounds : (∀ tx ∈ transactions, tx.serialize.length < 2 ^ 32 ∧ tx.Fits) ↔
      ∀ tx ∈ transactions, tx.serialize.length < 2 ^ 32 :=
    forall₂_congr fun tx _ => and_iff_left_of_imp Transaction.fits_of_short
  simp only [bounds]

theorem reads : Reads (read P) serialize fun block => block.Fits ∧ block.Fresh P := by
  intro input block rest
  simp only [read,Option.bind_eq_bind,Option.bind_eq_some_iff,Prod.exists,reads_u32 _ _ _,reads_u64 _ _ _,
    reads_hash _ _ _,reads_transactions _ _ _ _,Option.some.injEq,Prod.mk.injEq,true_and]
  constructor
  · rintro ⟨version,_,rfl,prevHash,_,rfl,merkleRoot,_,rfl,timestamp,_,rfl,difficulty,_,rfl,nonce,_,rfl,count,_,rfl,
      transactions,_,⟨⟨size,short⟩,rfl⟩,rfl,rfl⟩
    refine ⟨⟨⟨?_,short⟩,⟨rfl,rfl⟩⟩,?_⟩
    · show transactions.length < 2 ^ 32
      rw [size]
      exact count.toNat_lt
    · simp [serialize,serializeHeader,make,size]
  · rintro ⟨⟨fits,decoded⟩,rfl⟩
    refine ⟨block.version,_,by simp [serialize,serializeHeader],block.prevHash,_,rfl,block.merkleRoot,_,rfl,
      block.timestamp,_,rfl,block.difficulty,_,rfl,block.nonce,_,rfl,UInt32.ofNat block.transactions.length,_,rfl,
      block.transactions,_,⟨⟨?_,fits.sizes⟩,rfl⟩,fresh_eq P decoded,rfl⟩
    exact (UInt32.toNat_ofNat_of_lt' fits.count).symm

theorem decodes : Decodes (deserialize P) serialize fun block => block.Fits ∧ block.Fresh P := by
  intro payload block
  rw [deserialize_eq,(reads P).whole]

end Block

section
variable (P : Primitives)

/-- Transactions and blocks within the sizes come back from the wire; an
    accepted payload is the one the value is written as, so it belongs to no
    other value and no accepted payload continues another. -/
theorem wire_bijection :
    (∀ tx : Transaction, tx.sender.length < 2 ^ 32 → tx.recipient.length < 2 ^ 32 →
        tx.senderPublicKey.length < 2 ^ 32 → tx.signature.length < 2 ^ 32 →
        Transaction.deserialize tx.serialize = some tx) ∧
      (∀ block : Block, block.transactions.length < 2 ^ 32 →
        (∀ tx ∈ block.transactions, tx.serialize.length < 2 ^ 32) →
        Block.deserialize P block.serialize = some { block with hash := block.computeHash P,cumulativeWork := 0 }) ∧
      (∀ payload tx, Transaction.deserialize payload = some tx → tx.serialize = payload) ∧
      (∀ payload block, Block.deserialize P payload = some block → block.serialize = payload) ∧
      (∀ payload payload' tx, Transaction.deserialize payload = some tx → Transaction.deserialize payload' = some tx →
        payload = payload') ∧
      (∀ payload payload' block, Block.deserialize P payload = some block →
        Block.deserialize P payload' = some block → payload = payload') ∧
      (∀ payload extra, Transaction.deserialize payload ≠ none → Transaction.deserialize (payload ++ extra) ≠ none →
        extra = []) ∧
      ∀ payload extra, Block.deserialize P payload ≠ none → Block.deserialize P (payload ++ extra) ≠ none →
        extra = [] := by
  refine ⟨?_,?_,?_,?_,?_,?_,?_,?_⟩
  · intro tx sender recipient key signature
    exact (Transaction.decodes _ _).mpr ⟨⟨sender,recipient,key,signature⟩,rfl⟩
  · intro block count sizes
    exact (Block.decodes P _ (block.fresh P)).mpr ⟨⟨⟨count,sizes⟩,⟨rfl,rfl⟩⟩,rfl⟩
  · intro payload tx accepted
    exact ((Transaction.decodes _ _).mp accepted).2.symm
  · intro payload block accepted
    exact ((Block.decodes P _ _).mp accepted).2.symm
  · intro payload payload' tx first second
    exact Transaction.decodes.injective first second
  · intro payload payload' block first second
    exact (Block.decodes P).injective first second
  · intro payload extra front all
    simp only [Transaction.deserialize_eq,Option.ne_none_iff_exists'] at front all
    obtain ⟨⟨tx,front⟩,tx',all⟩ := And.intro front all
    exact Transaction.reads.prefix_free front all
  · intro payload extra front all
    simp only [Block.deserialize_eq,Option.ne_none_iff_exists'] at front all
    obtain ⟨⟨block,front⟩,block',all⟩ := And.intro front all
    exact (Block.reads P).prefix_free front all

theorem wire_bijection_pay :
    Transaction.deserialize Samples.pay.serialize = some Samples.pay ∧
      Block.deserialize Samples.sample Samples.paidB.serialize =
        some { Samples.paidB with hash := Samples.paidB.computeHash Samples.sample,cumulativeWork := 0 } := by
  obtain ⟨transactions,blocks,-⟩ := wire_bijection Samples.sample
  exact ⟨transactions _ (by decide) (by decide) (by decide) (by decide),blocks _ (by decide) (by decide +kernel)⟩

end
end ForgeChain
