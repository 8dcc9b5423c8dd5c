import ForgeChain.Metering
import ForgeChain.Payloads
import ForgeChain.Samples
import ForgeChain.Wire

/-!
What the decoders of messages ask for when they set up a container: the sizes
that they pass to `reserve`, `resize` or a sized constructor. Next to every
decoder stands one that also tells these sizes; without them it is the decoder
itself (`result_deserializePeerList` and the others). The sizes are within the
length of the payload, but for the count of a peer list (`sizes_bounded_iff`).
-/
namespace ForgeChain.Allocation
open Metering

/-! ### The decoders with their sizes -/

/-- A container for `n` bytes, set up once they are known to be there. -/
def takeBytes (n : Nat) (rest : Bytes) : Metered (Bytes × Bytes) := do
  let field ← free (readBytes n rest)
  ask n
  pure field

def takeSized (rest : Bytes) : Metered (Bytes × Bytes) := do
  let (len,rest) ← free (readU32 rest)
  takeBytes len.toNat rest

def deserializeTransaction (payload : Bytes) : Metered Transaction := do
  let (amount,rest) ← free (readU64 payload)
  let (sender,rest) ← takeSized rest
  let (recipient,rest) ← takeSized rest
  let (senderPublicKey,rest) ← takeSized rest
  let (fee,rest) ← free (readU64 rest)
  let (nonce,rest) ← free (readU64 rest)
  let (signature,rest) ← takeSized rest
  free (if rest = [] then some { sender,recipient,senderPublicKey,amount,signature,fee,nonce } else none)

/-- The transactions are pushed one by one, only their payloads are copied. -/
def deserializeBlock (P : Primitives) (payload : Bytes) : Metered Block := do
  let (version,rest) ← free (readU32 payload)
  let (prevHash,rest) ← free (readHash rest)
  let (merkleRoot,rest) ← free (readHash rest)
  let (timestamp,rest) ← free (readU64 rest)
  let (difficulty,rest) ← free (readU32 rest)
  let (nonce,rest) ← free (readU32 rest)
  let (count,rest) ← free (readU32 rest)
  let (transactions,rest) ← many (nested takeSized deserializeTransaction) count.toNat rest
  free (if rest = [] then
    let block : Block := { Block.make P version prevHash timestamp transactions with difficulty,nonce,merkleRoot }
    some { block with hash := block.computeHash P }
  else none)

def deserializeInventory (payload : Bytes) : Metered (List InventoryItem) := do
  let (count,rest) ← free (readU32 payload)
  if payload.length ≠ 4 + count.toNat * kInventoryItemSize then free none
  else
    ask count.toNat
    free do
      let (items,_) ← Codec.many readInventoryItem count.toNat rest
      some items

def deserializeGetblocks (payload : Bytes) : Metered (List HashBytes) := do
  let (count,rest) ← free (readU32 payload)
  if count > kMaxLocatorHashes then free none
  else if payload.length ≠ count.toNat * 32 + 4 then free none
  else
    ask count.toNat
    free do
      let (hashes,_) ← Codec.many readHash count.toNat rest
      some hashes

def deserializePeerAddress (payload : Bytes) : Metered PeerAddress := do
  let (port,rest) ← free (readU16 payload)
  let (host,rest) ← takeSized rest
  free (if rest = [] then some ⟨host,port⟩ else none)

/-- The container for the addresses is set up before anything else is read. -/
def deserializePeerList (payload : Bytes) : Metered (List PeerAddress) := do
  let (count,rest) ← free (readU32 payload)
  ask count.toNat
  let (addresses,rest) ← many (nested takeSized deserializePeerAddress) count.toNat rest
  free (if rest = [] then some addresses else none)

/-! ### Without the sizes -/

theorem result_takeBytes (n : Nat) (rest : Bytes) : (takeBytes n rest).result = readBytes n rest := by
  simp [takeBytes]

theorem result_takeSized (rest : Bytes) : (takeSized rest).result = readSized rest := by
  simp [takeSized,readSized,result_takeBytes]

theorem result_deserializeTransaction (payload : Bytes) :
    (deserializeTransaction payload).result = Transaction.deserialize payload := by
  simp [deserializeTransaction,Transaction.deserialize,result_takeSized]

theorem result_deserializeBlock (P : Primitives) (payload : Bytes) :
    (deserializeBlock P payload).result = Block.deserialize P payload := by
  simp [deserializeBlock,Block.deserialize,Block.readTransactions_eq,result_many,result_nested,result_takeSized,
    result_deserializeTransaction]

theorem result_deserializeInventory (payload : Bytes) :
    (deserializeInventory payload).result = ForgeChain.deserializeInventory payload := by
  simp only [deserializeInventory,ForgeChain.deserializeInventory,result_bind,result_free]
  refine congrArg _ (funext ?_)
  rintro ⟨count,rest⟩
  dsimp only
  split <;> simp

theorem result_deserializeGetblocks (payload : Bytes) :
    (deserializeGetblocks payload).result = ForgeChain.deserializeGetblocks payload := by
  simp only [deserializeGetblocks,ForgeChain.deserializeGetblocks,result_bind,result_free]
  refine congrArg _ (funext ?_)
  rintro ⟨count,rest⟩
  dsimp only
  split
  · simp
  · split <;> simp

theorem result_deserializePeerAddress (payload : Bytes) :
    (deserializePeerAddress payload).result = ForgeChain.deserializePeerAddress payload := by
  simp [deserializePeerAddress,ForgeChain.deserializePeerAddress,result_takeSized]

theorem result_deserializePeerList (payload : Bytes) :
    (deserializePeerList payload).result = ForgeChain.deserializePeerList payload := by
  simp [deserializePeerList,ForgeChain.deserializePeerList,result_many,result_nested,result_takeSized,
    result_deserializePeerAddress]

/-! ### The sizes -/

theorem frugal_takeBytes (n : Nat) : Frugal (takeBytes n) where
  within := by
    intro rest size asked
    rcases mem_asked_bind.mp asked with nothing | ⟨field,taken,late⟩
    · cases nothing
    · obtain ⟨length,split⟩ := (reads_bytes n rest field.1 field.2).mp taken
      rcases mem_asked_bind.mp late with now | ⟨_,_,nothing⟩
      · rw [List.mem_singleton.mp now,split,List.length_append,id,length]
        exact Nat.le_add_right n _
      · cases nothing
  shorter := by
    intro rest field left taken
    rw [result_takeBytes] at taken
    simp [((reads_bytes n rest field left).mp taken).2]

theorem frugal_takeSized : Frugal takeSized := .bind (frugal_reads reads_u32) fun len => frugal_takeBytes len.toNat

theorem length_takeSized {input field rest : Bytes} (taken : (takeSized input).result = some (field,rest)) :
    field.length ≤ input.length := by
  rw [result_takeSized] at taken
  rw [((reads_sized input field rest).mp taken).2,sized,List.length_append,List.length_append]
  omega

theorem within_deserializeTransaction : Within deserializeTransaction := by
  refine .after (frugal_reads reads_u64) fun amount => ?_
  refine .after frugal_takeSized fun sender => ?_
  refine .after frugal_takeSized fun recipient => ?_
  refine .after frugal_takeSized fun senderPublicKey => ?_
  refine .after (frugal_reads reads_u64) fun fee => ?_
  refine .after (frugal_reads reads_u64) fun nonce => ?_
  refine .after frugal_takeSized fun signature => ?_
  exact within_free _

theorem within_deserializeBlock (P : Primitives) : Within (deserializeBlock P) := by
  have transactions := frugal_takeSized.nested (fun _ _ _ => length_takeSized) within_deserializeTransaction
  refine .after (frugal_reads reads_u32) fun version => ?_
  refine .after (frugal_reads reads_hash) fun prevHash => ?_
  refine .after (frugal_reads reads_hash) fun merkleRoot => ?_
  refine .after (frugal_reads reads_u64) fun timestamp => ?_
  refine .after (frugal_reads reads_u32) fun difficulty => ?_
  refine .after (frugal_reads reads_u32) fun nonce => ?_
  refine .after (frugal_reads reads_u32) fun count => ?_
  exact .after (transactions.many count.toNat) fun _ => within_free _

theorem within_deserializePeerAddress : Within deserializePeerAddress := by
  refine .after (frugal_reads reads_u16) fun port => ?_
  exact .after frugal_takeSized fun host => within_free _

/-- A container for all elements, before they are read. -/
theorem asked_counted {A : Type} {count size : Nat} {elements : Option A}
    (asked : size ∈ (ask count >>= fun _ => free elements).asked) : size = count := by
  rcases mem_asked_bind.mp asked with now | ⟨_,_,nothing⟩
  · exact List.mem_singleton.mp now
  · cases nothing

/-- The counts of the next two are checked against the length of the payload. -/
theorem within_deserializeInventory : Within deserializeInventory := by
  intro payload size asked
  rcases mem_asked_bind.mp asked with nothing | ⟨⟨count,rest⟩,-,late⟩
  · cases nothing
  · dsimp only at late
    split at late
    · cases late
    · case isFalse exact_size =>
      rw [asked_counted late,not_not.mp exact_size,kInventoryItemSize]
      omega

theorem within_deserializeGetblocks : Within deserializeGetblocks := by
  intro payload size asked
  rcases mem_asked_bind.mp asked with nothing | ⟨⟨count,rest⟩,-,late⟩
  · cases nothing
  · dsimp only at late
    split at late
    · cases late
    · split at late
      · cases late
      · case isFalse exact_size =>
        rw [asked_counted late,not_not.mp exact_size]
        omega

/-- The count of a peer list is not. -/
theorem asked_deserializePeerList (payload : Bytes) :
    (∀ size ∈ (deserializePeerList payload).asked, size ≤ payload.length) ↔
      payload.length < 4 ∨ leNat (payload.take 4) ≤ payload.length := by
  have addresses := frugal_takeSized.nested (fun _ _ _ => length_takeSized) within_deserializePeerAddress
  rcases Nat.lt_or_ge payload.length 4 with short | enough
  · have unread : readU32 payload = none := by simp [readU32,readBytes,short]
    simp [deserializePeerList,mem_asked_bind,unread,short]
  · have read : readU32 payload = some (UInt32.ofNat (leNat (payload.take 4)),payload.drop 4) := by
      simp [readU32,readBytes,Nat.not_lt.mpr enough]
    have fits : leNat (payload.take 4) < 2 ^ 32 := by
      have := leNat_lt (payload.take 4)
      rwa [List.length_take_of_le enough] at this
    have count : (UInt32.ofNat (leNat (payload.take 4))).toNat = leNat (payload.take 4) :=
      UInt32.toNat_ofNat_of_lt' fits
    simp only [Nat.not_lt.mpr enough,false_or]
    constructor
    · intro bounded
      rw [← count]
      refine bounded _ (mem_asked_bind.mpr (.inr ⟨_,read,?_⟩))
      exact mem_asked_bind.mpr (.inl (List.mem_singleton_self _))
    · intro bounded size asked
      rcases mem_asked_bind.mp asked with nothing | ⟨front,taken,late⟩
      · cases nothing
      · obtain rfl := Option.some.inj (read.symm.trans taken)
        rcases mem_asked_bind.mp late with now | ⟨_,-,entries⟩
        · rw [List.mem_singleton.mp now,count]
          exact bounded
        · have within : Within fun rest => many (nested takeSized deserializePeerAddress)
              (UInt32.ofNat (leNat (payload.take 4))).toNat rest >>= fun (addresses,rest) =>
                free (if rest = [] then some addresses else none) :=
            .after (addresses.many _) fun _ => within_free _
          exact (within _ size entries).trans (by simp)

/-! ### All decoders -/

/-- The decoders of what comes from outside. -/
inductive Decoder where
  | transaction
  | block
  | inventory
  | getblocks
  | peerAddress
  | peerList
  deriving DecidableEq

/-- What a decoder asks for until it accepts or rejects a payload. -/
def sizes (P : Primitives) (payload : Bytes) : Decoder → List Nat
  | .transaction => (deserializeTransaction payload).asked
  | .block => (deserializeBlock P payload).asked
  | .inventory => (deserializeInventory payload).asked
  | .getblocks => (deserializeGetblocks payload).asked
  | .peerAddress => (deserializePeerAddress payload).asked
  | .peerList => (deserializePeerList payload).asked

/-- A decoder asks for no size above the length of the payload, unless it reads a
    peer list whose count is above it. -/
theorem sizes_bounded_iff (P : Primitives) (decoder : Decoder) (payload : Bytes) :
    (∀ size ∈ sizes P payload decoder, size ≤ payload.length) ↔
      (decoder = .peerList → payload.length < 4 ∨ leNat (payload.take 4) ≤ payload.length) := by
  cases decoder with
  | transaction => exact iff_of_true (within_deserializeTransaction payload) (by simp)
  | block => exact iff_of_true (within_deserializeBlock P payload) (by simp)
  | inventory => exact iff_of_true (within_deserializeInventory payload) (by simp)
  | getblocks => exact iff_of_true (within_deserializeGetblocks payload) (by simp)
  | peerAddress => exact iff_of_true (within_deserializePeerAddress payload) (by simp)
  | peerList => exact (asked_deserializePeerList payload).trans (by simp)

/-- Four bytes make the decoder of a peer list ask for room for `2 ^ 32 - 1`
    addresses before it rejects them. -/
theorem peerList_unchecked :
    2 ^ 32 - 1 ∈ sizes Samples.sample [0xFF,0xFF,0xFF,0xFF] .peerList ∧
      (deserializePeerList [0xFF,0xFF,0xFF,0xFF]).result = none := by
  decide +kernel

end ForgeChain.Allocation
