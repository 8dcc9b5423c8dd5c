import ForgeChain.Crypto

/-!
Transactions: the fields, the two wire forms (`serializeForSigning` is what is
signed and hashed, `serialize` adds the signature), the decoder and the
signature check.
-/
namespace ForgeChain

/-- The bytes of "COINBASE". -/
def kCoinbaseSender : Bytes := [67,79,73,78,66,65,83,69]

structure Transaction where
  sender : Bytes
  recipient : Bytes
  senderPublicKey : Bytes
  amount : UInt64
  signature : Bytes
  fee : UInt64
  nonce : UInt64
  deriving DecidableEq

namespace Transaction

def serializeForSigning (tx : Transaction) : Bytes :=
  le64 tx.amount ++ sized tx.sender ++ sized tx.recipient ++ sized tx.senderPublicKey ++ le64 tx.fee ++ le64 tx.nonce

def serialize (tx : Transaction) : Bytes := tx.serializeForSigning ++ sized tx.signature

def deserialize (payload : Bytes) : Option Transaction := do
  let (amount,rest) ← readU64 payload
  let (sender,rest) ← readSized rest
  let (recipient,rest) ← readSized rest
  let (senderPublicKey,rest) ← readSized rest
  let (fee,rest) ← readU64 rest
  let (nonce,rest) ← readU64 rest
  let (signature,rest) ← readSized rest
  if rest = [] then some { sender,recipient,senderPublicKey,amount,signature,fee,nonce } else none

def isCoinbase (tx : Transaction) : Prop := tx.sender = kCoinbaseSender

instance (tx : Transaction) : Decidable tx.isCoinbase := inferInstanceAs (Decidable (_ = _))

variable (P : Primitives)

def computeHash (tx : Transaction) : HashBytes := P.doubleSha256 tx.serializeForSigning

def hasValidSignature (tx : Transaction) : Except Exn Bool :=
  if tx.isCoinbase then .ok false
  else if P.deriveAddress tx.senderPublicKey ≠ tx.sender then .ok false
  else P.verify tx.serializeForSigning tx.signature tx.senderPublicKey

/-- The public key hashes to the sender and is no point of the curve: the
    signature check raises. -/
def BadKey (tx : Transaction) : Prop :=
  ¬ tx.isCoinbase ∧ P.deriveAddress tx.senderPublicKey = tx.sender ∧ P.oct2point tx.senderPublicKey = false

instance (tx : Transaction) : Decidable (tx.BadKey P) := inferInstanceAs (Decidable (_ ∧ _))

/-- The signature check returns exactly on transactions without a bad key. -/
theorem hasValidSignature_returns (tx : Transaction) :
    (∃ verdict, tx.hasValidSignature P = .ok verdict) ↔ ¬ tx.BadKey P := by
  unfold hasValidSignature BadKey Primitives.verify
  by_cases coinbase : tx.isCoinbase
  · simp [coinbase]
  · by_cases derived : P.deriveAddress tx.senderPublicKey = tx.sender
    · cases point : P.oct2point tx.senderPublicKey <;> simp [coinbase,derived]
    · simp [coinbase,derived]

/-- A coinbase, or signed by its sender. -/
def Authentic (tx : Transaction) : Prop := tx.isCoinbase ∨ tx.hasValidSignature P = .ok true

instance (tx : Transaction) : Decidable (tx.Authentic P) := inferInstanceAs (Decidable (_ ∨ _))

end Transaction
end ForgeChain
