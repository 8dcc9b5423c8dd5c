import ForgeChain.Transaction

/-!
Blocks: the header, the transactions and the hash over both, which is what
`serialize` puts on the wire. The cumulative work is set by the chain that
holds the block and is not part of the hash.
-/
namespace ForgeChain

structure Block where
  version : UInt32
  prevHash : HashBytes
  merkleRoot : HashBytes
  timestamp : UInt64
  difficulty : UInt32
  nonce : UInt32
  cumulativeWork : UInt64
  transactions : List Transaction
  hash : HashBytes
  deriving DecidableEq

namespace Block

/-- The fields of fixed size, in wire order. -/
def serializeHeader (block : Block) : Bytes :=
  le32 block.version ++ block.prevHash.bytes ++ block.merkleRoot.bytes ++ le64 block.timestamp ++
    le32 block.difficulty ++ le32 block.nonce

def serialize (block : Block) : Bytes :=
  block.serializeHeader ++ le32 (UInt32.ofNat block.transactions.length) ++
    block.transactions.flatMap fun tx => sized tx.serialize

/-- `1 << difficulty`, or the largest number where that does not fit. -/
def blockWork (block : Block) : UInt64 :=
  if block.difficulty ≥ 64 then 0xFFFFFFFFFFFFFFFF else 1 <<< block.difficulty.toUInt64

theorem blockWork_toNat {block : Block} (low : block.difficulty.toNat < 64) :
    block.blockWork.toNat = 2 ^ block.difficulty.toNat := by
  have small : ¬ block.difficulty ≥ 64 := UInt32.not_le.mpr (UInt32.lt_iff_toNat_lt.mpr low)
  rw [blockWork,if_neg small,UInt64.toNat_shiftLeft,UInt32.toNat_toUInt64,Nat.mod_eq_of_lt low,Nat.shiftLeft_eq,
    show (1 : UInt64).toNat = 1 from rfl,Nat.one_mul]
  exact Nat.mod_eq_of_lt (Nat.pow_lt_pow_right (by omega) low)

theorem blockWork_pos (block : Block) : 0 < block.blockWork.toNat := by
  by_cases low : block.difficulty.toNat < 64
  · rw [blockWork_toNat low]
    exact Nat.two_pow_pos _
  · have large : block.difficulty ≥ 64 := UInt32.le_iff_toNat_le.mpr (Nat.not_lt.mp low)
    rw [blockWork,if_pos large]
    decide

variable (P : Primitives)

def computeHash (block : Block) : HashBytes := P.doubleSha256 block.serialize

/-- The constructor. -/
def make (version : UInt32) (prevHash : HashBytes) (timestamp : UInt64) (transactions : List Transaction) : Block :=
  let block : Block :=
    { version,prevHash,timestamp,transactions
      merkleRoot := P.doubleSha256 (transactions.flatMap Transaction.serialize)
      difficulty := 0, nonce := 0, cumulativeWork := 0, hash := .zero }
  { block with hash := block.computeHash P }

/-- `count` sized transactions. -/
def readTransactions : Nat → Bytes → Option (List Transaction × Bytes)
  | 0, rest => some ([],rest)
  | count+1, rest => do
    let (payload,rest) ← readSized rest
    let tx ← Transaction.deserialize payload
    let (transactions,rest) ← readTransactions count rest
    some (tx :: transactions,rest)

def deserialize (payload : Bytes) : Option Block := do
  let (version,rest) ← readU32 payload
  let (prevHash,rest) ← readHash rest
  let (merkleRoot,rest) ← readHash rest
  let (timestamp,rest) ← readU64 rest
  let (difficulty,rest) ← readU32 rest
  let (nonce,rest) ← readU32 rest
  let (count,rest) ← readU32 rest
  let (transactions,rest) ← readTransactions count.toNat rest
  if rest = [] then
    let block : Block := { make P version prevHash timestamp transactions with difficulty,nonce,merkleRoot }
    some { block with hash := block.computeHash P }
  else none

/-- The block every chain starts with. -/
def genesis : Block := make P 1 .zero 0 []

end Block
end ForgeChain
