import ForgeChain.AddressBook
import ForgeChain.Registration
import Mathlib.Data.List.Perm.Subperm

/-!
The boundary between private and public networks. A peer counts as local when
its address is not routable; a local peer may name private addresses and is told
of them. The address is the host the peer was met at with the port it announced,
and no address with port zero is routable, so a public peer that announces port
zero counts as local. Both filters are then off for it.
-/
namespace ForgeChain
namespace AddressBook

/-! ### Routable addresses -/

/-- The ranges that are not routable, by the first two octets. -/
def Reserved (a b : UInt8) : Prop :=
  (a = 0 ∨ a = 127) ∨ (a = 10 ∨ (a = 172 ∧ b ≥ 16 ∧ b ≤ 31) ∨ (a = 192 ∧ b = 168)) ∨ (a = 169 ∧ b = 254) ∨ a ≥ 224

theorem dottedQuad_ne_nil (a b c d : UInt8) : dottedQuad a b c d ≠ [] := by
  simp [dottedQuad,List.intercalate,List.intersperse]

theorem isRoutable_iff {peerAddress : PeerAddress} :
    isRoutable peerAddress = true ↔ peerAddress.port ≠ 0 ∧
      ∃ a b c d, cString peerAddress.host = dottedQuad a b c d ∧ ¬ Reserved a b := by
  unfold isRoutable
  constructor
  · intro routable
    split at routable
    · cases routable
    · case isFalse given =>
      split at routable
      · cases routable
      · case h_2 a b c d read =>
        refine ⟨fun zero => given (Or.inr zero),a,b,c,d,inetPton_iff.mp read,?_⟩
        rintro (first | second | third | fourth)
        all_goals simp_all
  · rintro ⟨port,a,b,c,d,text,outside⟩
    have host : peerAddress.host ≠ [] := by
      intro empty
      rw [empty] at text
      exact dottedQuad_ne_nil a b c d text.symm
    simp only [Reserved,not_or] at outside
    rw [if_neg (by simp [host,port]),inetPton_iff.mpr text]
    simp only [outside,or_self,if_false]

/-- A public IPv4 literal. -/
def Public (host : Bytes) : Prop := ∃ a b c d, host = dottedQuad a b c d ∧ ¬ Reserved a b

theorem isRoutable_of_public {host : Bytes} (is_public : Public host) (port : UInt16) :
    isRoutable ⟨host,port⟩ = decide (port ≠ 0) := by
  obtain ⟨a,b,c,d,rfl,outside⟩ := is_public
  rw [Bool.eq_iff_iff,isRoutable_iff,decide_eq_true_eq]
  constructor
  · rintro ⟨nonzero,-⟩
    exact nonzero
  · intro nonzero
    exact ⟨nonzero,a,b,c,d,cString_dottedQuad a b c d,outside⟩

/-! ### Peer lists -/

/-- Where a peer says it can be dialed. -/
def peerAddress (peer : Peer) : PeerAddress := ⟨peer.host,peer.remoteVersion.listenPort⟩

/-- `Node::handle_peers`; a null peer is not local. -/
def handlePeers (book : AddressBook) (now : Nat) (peer : Option Peer) (payload : Bytes) : AddressBook :=
  match deserializePeerList payload with
  | none => book
  | some list =>
    let sourceIsLocal := peer.any fun peer => !isRoutable (peerAddress peer)
    list.foldl (fun book newPeer => (book.add now newPeer sourceIsLocal).2) book

/-- `Node::send_peer_list`: the addresses of the message, if one is sent. -/
def sendPeerList (book : AddressBook) (peerAddr : PeerAddress) : Option (List PeerAddress) :=
  let peerIsLocal := !isRoutable peerAddr
  let gossip := (book.reachable peerIsLocal).filter (· ≠ peerAddr)
  if gossip = [] then none else some gossip

def addresses (book : AddressBook) : List PeerAddress := book.book.map AddressEntry.address

/-- What `add` does with an address. -/
inductive Offered (book : AddressBook) (now : Nat) (address : PeerAddress) (trusted : Bool) : Prop
  | refused (run : book.add now address trusted = (false,book))
  | added (named : address.host ≠ [] ∧ address.port ≠ 0) (admitted : trusted = true ∨ isRoutable address = true)
      (room : book.book.length < maxEntries) (new : address ∉ book.addresses)
      (run : book.add now address trusted = (true,⟨book.book ++ [⟨address,now,0,false,false⟩]⟩))

theorem find_eq_none {book : AddressBook} {address : PeerAddress} :
    book.find address = none ↔ address ∉ book.addresses := by
  simp only [find,addresses,List.find?_eq_none,decide_eq_true_eq,List.mem_map,not_exists,not_and]

theorem add_cases (book : AddressBook) (now : Nat) (address : PeerAddress) (trusted : Bool) :
    Offered book now address trusted := by
  by_cases blank : address.host = [] ∨ address.port = 0
  · exact .refused (by rw [add,if_pos blank])
  by_cases stranger : ¬ trusted = true ∧ ¬ isRoutable address = true
  · exact .refused (by rw [add,if_neg blank,if_pos stranger])
  by_cases full : book.book.length ≥ maxEntries
  · exact .refused (by rw [add,if_neg blank,if_neg stranger,if_pos full])
  rcases found : book.find address with _ | entry
  · refine .added (not_or.mp blank) ?_ (Nat.lt_of_not_le full) (find_eq_none.mp found) ?_
    · rw [not_and_or,not_not,not_not] at stranger
      exact stranger
    · rw [add,if_neg blank,if_neg stranger,if_neg full,found]
  · exact .refused (by rw [add,if_neg blank,if_neg stranger,if_neg full,found])

/-- Addresses of strangers that get into the book are routable. -/
theorem routable_of_added {book : AddressBook} {now : Nat} {list : List PeerAddress} {address : PeerAddress}
    (member : address ∈ (list.foldl (fun book newPeer => (book.add now newPeer false).2) book).addresses) :
    address ∈ book.addresses ∨ isRoutable address = true := by
  induction list generalizing book with
  | nil => exact Or.inl member
  | cons first rest ih =>
    rw [List.foldl_cons] at member
    rcases ih member with before | routable
    · cases add_cases book now first false with
      | refused run =>
        rw [run] at before
        exact Or.inl before
      | added named admitted room new run =>
        simp only [run,addresses,List.map_append,List.mem_append,List.map_cons,List.map_nil,List.mem_singleton] at before
        rcases before with old | rfl
        · exact Or.inl old
        · exact Or.inr (admitted.resolve_left Bool.false_ne_true)
    · exact Or.inr routable

/-- A full book takes nothing in. -/
theorem foldl_add_full {book : AddressBook} (full : maxEntries ≤ book.book.length) {now : Nat} {trusted : Bool}
    (list : List PeerAddress) : list.foldl (fun book newPeer => (book.add now newPeer trusted).2) book = book := by
  induction list with
  | nil => rfl
  | cons first rest ih =>
    cases add_cases book now first trusted with
    | refused run => rw [List.foldl_cons,run,ih]
    | added named admitted room new run => exact absurd full (Nat.not_le_of_lt room)

/-- A peer is told of the addresses reached before, without its own, and only of
    the routable ones if its own is routable. -/
theorem mem_sendPeerList {book : AddressBook} {peerAddr address : PeerAddress} :
    (∃ list ∈ book.sendPeerList peerAddr, address ∈ list) ↔
      (∃ entry ∈ book.book, entry.succeeded = true ∧ entry.address = address) ∧ address ≠ peerAddr ∧
        (isRoutable peerAddr = true → isRoutable address = true) := by
  have listed : (∃ list ∈ book.sendPeerList peerAddr, address ∈ list) ↔
      address ∈ book.reachable (!isRoutable peerAddr) ∧ address ≠ peerAddr := by
    have kept : address ∈ (book.reachable (!isRoutable peerAddr)).filter (· ≠ peerAddr) ↔
        address ∈ book.reachable (!isRoutable peerAddr) ∧ address ≠ peerAddr := by
      rw [List.mem_filter,decide_eq_true_eq]
    rw [← kept,sendPeerList]
    split
    · case isTrue empty =>
      rw [empty]
      simp
    · simp
  have reached : address ∈ book.reachable (!isRoutable peerAddr) ↔
      (∃ entry ∈ book.book, entry.succeeded = true ∧ entry.address = address) ∧
        (isRoutable peerAddr = true → isRoutable address = true) := by
    simp only [reachable,List.mem_map,List.mem_filter,Bool.and_eq_true,Bool.or_eq_true,Bool.not_eq_true']
    constructor
    · rintro ⟨entry,⟨member,succeeded,shown⟩,rfl⟩
      refine ⟨⟨entry,member,succeeded,rfl⟩,fun routable => shown.resolve_left fun near => ?_⟩
      rw [near] at routable
      cases routable
    · rintro ⟨⟨entry,member,succeeded,rfl⟩,shown⟩
      refine ⟨entry,⟨member,succeeded,?_⟩,rfl⟩
      cases routable : isRoutable peerAddr with
      | true => exact Or.inr (shown routable)
      | false => exact Or.inl rfl
  rw [listed,reached,and_assoc,and_comm (a := address ≠ peerAddr)]

/-! ### The boundary -/

/-- Nothing private comes into the book with the peer's lists. -/
def StoresRoutable (book : AddressBook) (peer : Peer) : Prop :=
  ∀ now payload, ∀ address ∈ (book.handlePeers now (some peer) payload).addresses,
    address ∈ book.addresses ∨ isRoutable address = true

/-- Nothing private is sent to the peer. -/
def SendsRoutable (book : AddressBook) (peer : Peer) : Prop :=
  ∀ list ∈ book.sendPeerList (peerAddress peer), ∀ address ∈ list, isRoutable address = true

/-- A private address under each port. -/
def behind (port : Nat) : PeerAddress := ⟨dottedQuad 10 0 0 1,UInt16.ofNat port⟩

theorem behind_not_routable (port : Nat) : isRoutable (behind port) = false := by
  rw [Bool.eq_false_iff]
  intro routable
  obtain ⟨-,a,b,c,d,text,outside⟩ := isRoutable_iff.mp routable
  have read := inetPton_iff.mpr ((cString_dottedQuad 10 0 0 1).symm.trans text)
  rw [inetPton_iff.mpr (Eq.refl (dottedQuad 10 0 0 1))] at read
  cases read
  exact outside (Or.inr (Or.inl (Or.inl rfl)))

/-- A book with room lacks one of the private addresses. -/
theorem behind_missing {book : AddressBook} (room : book.book.length < maxEntries) :
    ∃ port, port ≠ 0 ∧ port < 2 ^ 16 ∧ behind port ∉ book.addresses := by
  by_contra all
  push Not at all
  -- These are more addresses than the book has entries.
  let ports := (List.range maxEntries).map fun n => behind (n + 1)
  have within : ports ⊆ book.addresses := by
    intro address member
    obtain ⟨n,small,rfl⟩ := List.mem_map.mp member
    rw [List.mem_range,maxEntries] at small
    exact all (n + 1) (Nat.succ_ne_zero n) (by omega)
  have distinct : ports.Nodup := by
    refine List.nodup_range.map_on fun m small n small' same => ?_
    rw [List.mem_range,maxEntries] at small small'
    have same := congrArg (fun address => address.port.toNat) same
    simp only [behind] at same
    rw [UInt16.toNat_ofNat_of_lt' (by rw [UInt16.size]; omega),
      UInt16.toNat_ofNat_of_lt' (by rw [UInt16.size]; omega)] at same
    omega
  have bound := (List.subperm_of_subset distinct within).length_le
  simp only [ports,addresses,List.length_map,List.length_range] at bound
  omega

/-- A local peer can put a private address into a book with room. -/
theorem full_of_storesRoutable {book : AddressBook} {peer : Peer} (near : isRoutable (peerAddress peer) = false)
    (stores : StoresRoutable book peer) : maxEntries ≤ book.book.length := by
  by_contra room
  obtain ⟨port,nonzero,small,missing⟩ := behind_missing (Nat.lt_of_not_le room)
  have decoded : deserializePeerList (serializePeerList [behind port]) = some [behind port] := by
    refine (decodes_peerList _ _).mpr ⟨⟨by simp,fun address member => ?_⟩,rfl⟩
    rw [List.mem_singleton.mp member]
    show (dottedQuad 10 0 0 1).length < 2 ^ 32 - 6
    decide
  have given : (behind port).host ≠ [] ∧ (behind port).port ≠ 0 := by
    refine ⟨dottedQuad_ne_nil 10 0 0 1,fun zero => nonzero ?_⟩
    have zero := congrArg UInt16.toNat zero
    rwa [behind,UInt16.toNat_ofNat_of_lt' small] at zero
  have stored := stores 0 (serializePeerList [behind port]) (behind port)
  rw [handlePeers,decoded] at stored
  simp only [Option.any_some,near,Bool.not_false,List.foldl_cons,List.foldl_nil] at stored
  rw [behind_not_routable,add,if_neg (not_or.mpr given),if_neg (by simp),if_neg room,find_eq_none.mpr missing] at stored
  exact (stored (by simp [addresses])).elim missing Bool.false_ne_true

/-- The boundary holds for a public peer exactly if it announces a port, or the
    book is full and every address reached before is routable or the peer's. -/
theorem boundary_iff (book : AddressBook) (peer : Peer) (is_public : Public peer.host) :
    StoresRoutable book peer ∧ SendsRoutable book peer ↔
      peer.remoteVersion.listenPort ≠ 0 ∨
      (maxEntries ≤ book.book.length ∧ ∀ entry ∈ book.book, entry.succeeded = true →
        entry.address = peerAddress peer ∨ isRoutable entry.address = true) := by
  have routable : isRoutable (peerAddress peer) = decide (peer.remoteVersion.listenPort ≠ 0) :=
    isRoutable_of_public is_public peer.remoteVersion.listenPort
  constructor
  · rintro ⟨stores,sends⟩
    by_cases zero : peer.remoteVersion.listenPort = 0
    · rw [decide_eq_false (not_not.mpr zero)] at routable
      refine Or.inr ⟨full_of_storesRoutable routable stores,fun entry member succeeded => ?_⟩
      by_contra private_other
      rw [not_or] at private_other
      have sent := mem_sendPeerList.mpr ⟨⟨entry,member,succeeded,rfl⟩,private_other.1,
        fun near => absurd (routable.symm.trans near) Bool.false_ne_true⟩
      obtain ⟨list,sent,listed⟩ := sent
      exact private_other.2 (sends list sent entry.address listed)
    · exact Or.inl zero
  · rintro (announced | ⟨full,reached⟩)
    · rw [decide_eq_true announced] at routable
      constructor
      · intro now payload address member
        rw [handlePeers] at member
        split at member
        · exact Or.inl member
        · simp only [Option.any_some,routable,Bool.not_true] at member
          exact routable_of_added member
      · intro list sent address member
        exact (mem_sendPeerList.mp ⟨list,sent,member⟩).2.2 routable
    · constructor
      · intro now payload address member
        rw [handlePeers] at member
        split at member
        · exact Or.inl member
        · rw [foldl_add_full full] at member
          exact Or.inl member
      · intro list sent address member
        obtain ⟨⟨entry,stored,succeeded,rfl⟩,other,-⟩ := mem_sendPeerList.mp ⟨list,sent,member⟩
        exact (reached entry stored succeeded).resolve_left other

/-- A peer met at a public address. -/
def stranger (listenPort : UInt16) : Peer := ⟨7,⟨1,0,0,listenPort,2⟩,dottedQuad 8 8 8 8,true⟩

/-- A node on a private network that has reached a neighbour. -/
def homely : AddressBook := ⟨[⟨behind 9000,0,0,true,false⟩]⟩

theorem public_stranger (listenPort : UInt16) : Public (stranger listenPort).host := by
  refine ⟨8,8,8,8,rfl,?_⟩
  unfold Reserved
  decide

theorem boundary_stranger :
    Public (stranger 9000).host ∧ StoresRoutable homely (stranger 9000) ∧ SendsRoutable homely (stranger 9000) :=
  ⟨public_stranger 9000,(boundary_iff homely (stranger 9000) (public_stranger 9000)).mpr (Or.inl (by decide))⟩

/-- The same peer announces port zero: the node stores the private address it
    names and tells it of the neighbour. -/
theorem portless_crosses :
    Public (stranger 0).host ∧ isRoutable (behind 9000) = false ∧ isRoutable (behind 22) = false ∧
      (homely.handlePeers 0 (some (stranger 0)) (serializePeerList [behind 22])).addresses = [behind 9000,behind 22] ∧
      homely.sendPeerList (peerAddress (stranger 0)) = some [behind 9000] :=
  ⟨public_stranger 0,behind_not_routable 9000,behind_not_routable 22,by decide +kernel,by decide +kernel⟩

end AddressBook
end ForgeChain
