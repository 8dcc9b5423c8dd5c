import ForgeChain.Message

/-!
The payloads of the other messages: inventories, block locators, peer lists and
the handshake's version. The decoders of inventories and locators compare the
payload's size with the one the count asks for before they read an item; the
version's decoder reads at fixed offsets and relies on the size that
`perform_handshake` checks.
-/
namespace ForgeChain
open Codec

/-- A payload of a count and items of `size` bytes each, whose own size is the
    one the count asks for: the items are all there is. -/
theorem items_exact {β : Type} {read : Bytes → Option (β × Bytes)} {write : β → Bytes} {size : Nat}
    (law : Reads read write fun _ => True) (sizes : ∀ x, (write x).length = size) (allowed : UInt32 → Prop)
    (payload : Bytes) (items : List β) :
    (∃ count rest, payload = le32 count ++ rest ∧ allowed count ∧ payload.length = 4 + count.toNat * size ∧
        ∃ left, many read count.toNat rest = some (items,left)) ↔
      (items.length < 2 ^ 32 ∧ allowed (UInt32.ofNat items.length)) ∧
        payload = le32 (UInt32.ofNat items.length) ++ items.flatMap write := by
  have written : (items.flatMap write).length = items.length * size := by
    simp [List.length_flatMap,sizes]
  simp only [law.many _ _ _ _]
  constructor
  · rintro ⟨count,_,rfl,allow,enough,left,⟨counted,-⟩,rfl⟩
    rw [List.length_append,List.length_append,le32_length,written,counted] at enough
    have none : left = [] := List.length_eq_zero_iff.mp (by omega)
    rw [counted,UInt32.ofNat_toNat,none,List.append_nil]
    exact ⟨⟨count.toNat_lt,allow⟩,rfl⟩
  · rintro ⟨⟨short,allow⟩,rfl⟩
    have counted := UInt32.toNat_ofNat_of_lt' short
    refine ⟨_,_,rfl,allow,?_,[],⟨counted.symm,fun _ _ => trivial⟩,(List.append_nil _).symm⟩
    rw [List.length_append,le32_length,written,counted]

section Inventory

inductive InventoryItemType
  | block
  | transaction
  deriving DecidableEq

def InventoryItemType.code : InventoryItemType → UInt8
  | block => 0
  | transaction => 1

structure InventoryItem where
  type : InventoryItemType
  hash : HashBytes
  deriving DecidableEq

def kInventoryItemSize : Nat := 33

def InventoryItem.serialize (item : InventoryItem) : Bytes := item.type.code :: item.hash.bytes

def serializeInventory (items : List InventoryItem) : Bytes :=
  le32 (UInt32.ofNat items.length) ++ items.flatMap InventoryItem.serialize

/-- One turn of the decoder's loop. -/
def readInventoryItem (rest : Bytes) : Option (InventoryItem × Bytes) := do
  let (type,rest) ← readU8 rest
  if type ≠ 0 ∧ type ≠ 1 then none
  else
    let (hash,rest) ← readHash rest
    some (⟨if type = 0 then .block else .transaction,hash⟩,rest)

def deserializeInventory (payload : Bytes) : Option (List InventoryItem) := do
  let (count,rest) ← readU32 payload
  if payload.length ≠ 4 + count.toNat * kInventoryItemSize then none
  else
    let (items,_) ← many readInventoryItem count.toNat rest
    some items

theorem reads_inventoryItem : Reads readInventoryItem InventoryItem.serialize fun _ => True := by
  rintro input ⟨type,hash⟩ rest
  simp only [readInventoryItem,Option.bind_eq_bind,Option.bind_eq_some_iff,Prod.exists,reads_u8 _ _ _,true_and,
    InventoryItem.serialize]
  constructor
  · rintro ⟨code,_,rfl,read⟩
    split at read
    · cases read
    · case isFalse known =>
      simp only [Option.bind_eq_some_iff,Prod.exists,reads_hash _ _ _,true_and,Option.some.injEq,Prod.mk.injEq,
        InventoryItem.mk.injEq] at read
      obtain ⟨_,_,rfl,⟨rfl,rfl⟩,rfl⟩ := read
      by_cases zero : code = 0
      · simp [zero,InventoryItemType.code]
      · have one : code = 1 := by
          by_contra other
          exact known ⟨zero,other⟩
        simp [one,InventoryItemType.code]
  · rintro rfl
    have hashed : readHash (hash.bytes ++ rest) = some (hash,rest) := (reads_hash _ _ _).mpr ⟨trivial,rfl⟩
    refine ⟨type.code,_,rfl,?_⟩
    cases type with
    | block => simp [InventoryItemType.code,hashed]
    | transaction => simp [InventoryItemType.code,hashed]

theorem decodes_inventory : Decodes deserializeInventory serializeInventory fun items => items.length < 2 ^ 32 := by
  intro payload items
  have sizes : ∀ item : InventoryItem, item.serialize.length = kInventoryItemSize := by
    intro item
    simp [InventoryItem.serialize,item.hash.size,kInventoryItemSize]
  have exact := items_exact reads_inventoryItem sizes (fun _ => True) payload items
  simp only [true_and,and_true] at exact
  rw [serializeInventory,← exact]
  simp [deserializeInventory,Option.bind_eq_some_iff,reads_u32 _ _ _]

end Inventory

section GetBlocks

def kMaxLocatorHashes : UInt32 := 1028

def serializeGetblocks (locator : List HashBytes) : Bytes :=
  le32 (UInt32.ofNat locator.length) ++ locator.flatMap HashBytes.bytes

def deserializeGetblocks (payload : Bytes) : Option (List HashBytes) := do
  let (count,rest) ← readU32 payload
  if count > kMaxLocatorHashes then none
  else if payload.length ≠ count.toNat * 32 + 4 then none
  else
    let (hashes,_) ← many readHash count.toNat rest
    some hashes

theorem decodes_getblocks :
    Decodes deserializeGetblocks serializeGetblocks fun locator => locator.length ≤ kMaxLocatorHashes.toNat := by
  intro payload locator
  have exact := items_exact reads_hash HashBytes.size (· ≤ kMaxLocatorHashes) payload locator
  have bound : locator.length ≤ kMaxLocatorHashes.toNat ↔
      locator.length < 2 ^ 32 ∧ UInt32.ofNat locator.length ≤ kMaxLocatorHashes := by
    rw [UInt32.le_iff_toNat_le,UInt32.toNat_ofNat']
    have most : kMaxLocatorHashes.toNat = 1028 := rfl
    omega
  show _ ↔ locator.length ≤ kMaxLocatorHashes.toNat ∧ _
  rw [serializeGetblocks,bound,← exact]
  simp [deserializeGetblocks,Option.bind_eq_some_iff,reads_u32 _ _ _,Nat.add_comm]

end GetBlocks

section PeerAddress

structure PeerAddress where
  host : Bytes
  port : UInt16
  deriving DecidableEq

def serializePeerAddress (peerAddress : PeerAddress) : Bytes := le16 peerAddress.port ++ sized peerAddress.host

def deserializePeerAddress (payload : Bytes) : Option PeerAddress := do
  let (port,rest) ← readU16 payload
  let (host,rest) ← readSized rest
  if rest = [] then some ⟨host,port⟩ else none

def serializePeerList (addresses : List PeerAddress) : Bytes :=
  le32 (UInt32.ofNat addresses.length) ++ addresses.flatMap fun address => sized (serializePeerAddress address)

def deserializePeerList (payload : Bytes) : Option (List PeerAddress) := do
  let (count,rest) ← readU32 payload
  let (addresses,rest) ← many (nested readSized deserializePeerAddress) count.toNat rest
  if rest = [] then some addresses else none

theorem decodes_peerAddress :
    Decodes deserializePeerAddress serializePeerAddress fun address => address.host.length < 2 ^ 32 := by
  rintro payload ⟨host,port⟩
  simp only [deserializePeerAddress,Option.bind_eq_bind,Option.bind_eq_some_iff,Prod.exists,reads_u16 _ _ _,
    reads_sized _ _ _,true_and,serializePeerAddress]
  constructor
  · rintro ⟨port',_,rfl,host',rest,⟨short,rfl⟩,read⟩
    split at read
    · case isTrue none =>
      cases read
      exact ⟨short,by rw [none,List.append_nil]⟩
    · cases read
  · rintro ⟨short,rfl⟩
    exact ⟨port,_,rfl,host,[],⟨short,(List.append_nil _).symm⟩,if_pos rfl⟩

/-- An address takes 6 bytes more than its host. -/
theorem serializePeerAddress_length (address : PeerAddress) :
    (serializePeerAddress address).length = 6 + address.host.length := by
  simp only [serializePeerAddress,sized,List.length_append,le16_length,le32_length]
  omega

theorem decodes_peerList :
    Decodes deserializePeerList serializePeerList fun addresses =>
      addresses.length < 2 ^ 32 ∧ ∀ address ∈ addresses, address.host.length < 2 ^ 32 - 6 := by
  intro payload addresses
  have unfolded : deserializePeerList payload =
      whole (fun input => (readU32 input).bind fun (count,rest) =>
        many (nested readSized deserializePeerAddress) count.toNat rest) payload := by
    simp only [deserializePeerList,whole,Option.bind_eq_bind,Option.bind_assoc]
  have sizes : (∀ address ∈ addresses, (serializePeerAddress address).length < 2 ^ 32 ∧ address.host.length < 2 ^ 32) ↔
      ∀ address ∈ addresses, address.host.length < 2 ^ 32 - 6 := by
    refine forall₂_congr fun address _ => ?_
    rw [serializePeerAddress_length]
    omega
  rw [unfolded,(reads_counted (reads_sized.nested decodes_peerAddress)).whole]
  simp only [sizes,serializePeerList]

end PeerAddress

section Handshake

structure VersionInfo where
  protocolVersion : UInt32
  chainHeight : UInt64
  timestamp : UInt64
  listenPort : UInt16
  nodeId : UInt64
  deriving DecidableEq

def kExpectedVersionPayloadSize : Nat := 4 + 8 + 8 + 2 + 8

def serializeVersion (info : VersionInfo) : Bytes :=
  le32 info.protocolVersion ++ le64 info.chainHeight ++ le64 info.timestamp ++ le16 info.listenPort ++ le64 info.nodeId

/-- Reads at fixed offsets; `perform_handshake` has checked the size. -/
def deserializeVersion (payload : Bytes) : VersionInfo where
  protocolVersion := UInt32.ofNat (leNat (payload.take 4))
  chainHeight := UInt64.ofNat (leNat ((payload.drop 4).take 8))
  timestamp := UInt64.ofNat (leNat ((payload.drop (4 + 8)).take 8))
  listenPort := UInt16.ofNat (leNat ((payload.drop (4 + 8 + 8)).take 2))
  nodeId := UInt64.ofNat (leNat ((payload.drop (4 + 8 + 8 + 2)).take 8))

/-- Sends the own version and reads the peer's off the stream. -/
def performHandshake (net : Transport) (written stream : Bytes) (info : VersionInfo) :
    Option (VersionInfo × Bytes) × Bytes :=
  match sendMessage net written ⟨.version,serializeVersion info⟩ with
  | (false,written) => (none,written)
  | (true,written) =>
    match receiveMessage net stream with
    | none => (none,written)
    | some (incoming,rest) =>
      if incoming.type ≠ .version then (none,written)
      else if incoming.payload.length ≠ kExpectedVersionPayloadSize then (none,written)
      else (some (deserializeVersion incoming.payload,rest),written)

@[simp] theorem serializeVersion_length (info : VersionInfo) :
    (serializeVersion info).length = kExpectedVersionPayloadSize := by
  simp [serializeVersion,kExpectedVersionPayloadSize]

/-- The fields one after the other, each from what the ones before it leave. -/
def readVersion (payload : Bytes) : Option (VersionInfo × Bytes) := do
  let (protocolVersion,rest) ← readU32 payload
  let (chainHeight,rest) ← readU64 rest
  let (timestamp,rest) ← readU64 rest
  let (listenPort,rest) ← readU16 rest
  let (nodeId,rest) ← readU64 rest
  some ({ protocolVersion,chainHeight,timestamp,listenPort,nodeId },rest)

theorem reads_version : Reads readVersion serializeVersion fun _ => True := by
  intro input info rest
  simp only [readVersion,Option.bind_eq_bind,Option.bind_eq_some_iff,Prod.exists,reads_u16 _ _ _,reads_u32 _ _ _,
    reads_u64 _ _ _,Option.some.injEq,Prod.mk.injEq,true_and]
  constructor
  · rintro ⟨protocolVersion,_,rfl,chainHeight,_,rfl,timestamp,_,rfl,listenPort,_,rfl,nodeId,_,rfl,rfl,rfl⟩
    simp [serializeVersion]
  · rintro rfl
    exact ⟨info.protocolVersion,_,by simp [serializeVersion],info.chainHeight,_,rfl,info.timestamp,_,rfl,
      info.listenPort,_,rfl,info.nodeId,_,rfl,rfl,rfl⟩

/-- On a payload of the checked size the offsets are where the reads arrive. -/
theorem readVersion_eq {payload : Bytes} (size : payload.length = kExpectedVersionPayloadSize) :
    readVersion payload = some (deserializeVersion payload,[]) := by
  rw [kExpectedVersionPayloadSize] at size
  have none : payload.drop 30 = [] := List.drop_eq_nil_of_le (by omega)
  simp [readVersion,deserializeVersion,readU16,readU32,readU64,readBytes,size,none]

theorem serializeVersion_deserializeVersion {payload : Bytes} (size : payload.length = kExpectedVersionPayloadSize) :
    serializeVersion (deserializeVersion payload) = payload := by
  have law := ((reads_version _ _ _).mp (readVersion_eq size)).2
  rw [List.append_nil] at law
  exact law.symm

theorem deserializeVersion_serializeVersion (info : VersionInfo) : deserializeVersion (serializeVersion info) = info := by
  have read : readVersion (serializeVersion info) = some (info,[]) :=
    (reads_version _ _ _).mpr ⟨trivial,(List.append_nil _).symm⟩
  rw [readVersion_eq (serializeVersion_length info),Option.some.injEq] at read
  exact congrArg Prod.fst read

/-- What a handshake returns is what the peer sent. -/
theorem performHandshake_returns {net : Transport} {written stream rest : Bytes} {info theirs : VersionInfo}
    (returned : (performHandshake net written stream info).1 = some (theirs,rest)) :
    receiveMessage net stream = some (⟨.version,serializeVersion theirs⟩,rest) := by
  unfold performHandshake at returned
  split at returned
  · cases returned
  · split at returned
    · cases returned
    · case h_2 incoming rest' received =>
      split at returned
      · cases returned
      · case isFalse version =>
        split at returned
        · cases returned
        · case isFalse size =>
          cases returned
          rw [serializeVersion_deserializeVersion (not_not.mp size),received,← not_not.mp version]

end Handshake

/-- Each payload's encoding is decoded to the value it was made from, and an
    accepted payload is the encoding of what it is decoded to. -/
theorem payload_codecs_round_trip :
    (∀ items : List InventoryItem, items.length < 2 ^ 32 →
        deserializeInventory (serializeInventory items) = some items) ∧
      (∀ locator : List HashBytes, locator.length ≤ kMaxLocatorHashes.toNat →
        deserializeGetblocks (serializeGetblocks locator) = some locator) ∧
      (∀ addresses : List PeerAddress, addresses.length < 2 ^ 32 →
        (∀ address ∈ addresses, address.host.length < 2 ^ 32 - 6) →
        deserializePeerList (serializePeerList addresses) = some addresses) ∧
      (∀ info : VersionInfo, (serializeVersion info).length = kExpectedVersionPayloadSize ∧
        deserializeVersion (serializeVersion info) = info) ∧
      (∀ payload items, deserializeInventory payload = some items → serializeInventory items = payload) ∧
      (∀ payload locator, deserializeGetblocks payload = some locator → serializeGetblocks locator = payload) ∧
      (∀ payload addresses, deserializePeerList payload = some addresses → serializePeerList addresses = payload) ∧
      (∀ payload, payload.length = kExpectedVersionPayloadSize →
        serializeVersion (deserializeVersion payload) = payload) ∧
      ∀ net written stream info theirs rest, (performHandshake net written stream info).1 = some (theirs,rest) →
        receiveMessage net stream = some (⟨.version,serializeVersion theirs⟩,rest) := by
  refine ⟨?_,?_,?_,?_,?_,?_,?_,?_,?_⟩
  · intro items short
    exact (decodes_inventory _ _).mpr ⟨short,rfl⟩
  · intro locator short
    exact (decodes_getblocks _ _).mpr ⟨short,rfl⟩
  · intro addresses short hosts
    exact (decodes_peerList _ _).mpr ⟨⟨short,hosts⟩,rfl⟩
  · intro info
    exact ⟨serializeVersion_length info,deserializeVersion_serializeVersion info⟩
  · intro payload items accepted
    exact ((decodes_inventory _ _).mp accepted).2.symm
  · intro payload locator accepted
    exact ((decodes_getblocks _ _).mp accepted).2.symm
  · intro payload addresses accepted
    exact ((decodes_peerList _ _).mp accepted).2.symm
  · intro payload size
    exact serializeVersion_deserializeVersion size
  · intro net written stream info theirs rest returned
    exact performHandshake_returns returned

theorem payload_codecs_round_trip_small :
    deserializeInventory (serializeInventory [⟨.block,.zero⟩,⟨.transaction,.zero⟩]) =
        some [⟨.block,.zero⟩,⟨.transaction,.zero⟩] ∧
      deserializeGetblocks (serializeGetblocks [.zero]) = some [.zero] ∧
      deserializePeerList (serializePeerList [⟨[49,48],8333⟩,⟨[],0⟩]) = some [⟨[49,48],8333⟩,⟨[],0⟩] := by
  obtain ⟨inventories,locators,peers,-⟩ := payload_codecs_round_trip
  exact ⟨inventories _ (by decide),locators _ (by decide),peers _ (by decide) (by decide)⟩

end ForgeChain
