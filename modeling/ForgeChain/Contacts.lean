import ForgeChain.Dialing
import ForgeChain.Discovery
import ForgeChain.Payments

/-!
Where a node knows its peers from. The bootstrap file (`src/network/Bootstrap.cpp`)
and the options name addresses, which `Orchestrator::start` has the node remember
after its threads have started; what peers and gossip name comes in between and
later. The address book never forgets an address, and takes none in once it is
full, so an address that is remembered is known for good exactly if the book knew
it or was not full at that moment (`remembered_for_good`), and a node whose book is
full of addresses that it has given up never finds one to dial again
(`dead_book_stays`). What stands in the file is known from the start on, if the book
does not get full (`file_known`). All of this rests on what the node has its book
do, input by input (`next_calls`).
-/
namespace ForgeChain.Contacts
open Runs AddressBook RunningNode CommandLine Payments Dialing

/-! ### The calls of the node on its book -/

section
variable {P : Primitives} {n : RunningNode}

/-- Only calls that add addresses. -/
def Adds (calls : List BookCall) : Prop := ∀ call ∈ calls, ∃ now address trusted, call = .add now address trusted

/-- What an input lets the node have its book do: dials select a candidate first,
    and stop there if there is none; besides dials, only the `connect` command does
    more than add addresses. -/
def Allowed (book : AddressBook) : Input → List BookCall → Prop
  | .connectTold _ _ _, _ => True
  | .dialed _ now, calls => calls = [] ∨ ∃ rest, calls = .selectCandidate now :: rest ∧
      ((book.selectCandidate now).1 = none → rest = [])
  | _, calls => Adds calls

theorem adds_nil : Adds [] := fun _ member => absurd member List.not_mem_nil

theorem adds_single (now : Nat) (address : PeerAddress) (trusted : Bool) : Adds [.add now address trusted] :=
  fun _ member => ⟨now,address,trusted,List.mem_singleton.mp member⟩

theorem handlePeers_calls (book : AddressBook) (now : Nat) (peer : Option Peer) (payload : Bytes) :
    ∃ calls, book.handlePeers now peer payload = run after book calls ∧ Adds calls := by
  unfold AddressBook.handlePeers
  split
  · exact ⟨[],rfl,adds_nil⟩
  · case h_2 list decoded =>
    refine ⟨list.map (.add now · (peer.any fun peer => !isRoutable (peerAddress peer))),?_,fun call member => ?_⟩
    · rw [run,List.foldl_map]
      rfl
    · obtain ⟨address,-,rfl⟩ := List.mem_map.mp member
      exact ⟨now,address,_,rfl⟩

theorem handle_calls (P : Primitives) (n : RunningNode) (peer : Peer) (message : Message) (reading : Reading) (now : Nat) :
    ∃ calls, (n.handle P peer message reading now).1.addressBook = run after n.addressBook calls ∧ Adds calls := by
  unfold handle
  split
  · exact ⟨[],rfl,adds_nil⟩
  split
  · exact ⟨[],rfl,adds_nil⟩
  split
  · refine ⟨[],?_,adds_nil⟩
    cases handleBlock_cases P n peer.socket message.payload reading now with
    | buffered syncState taken run => rw [run]; rfl
    | unread unreadable run => rw [run]; rfl
    | raised block chain e read submitted run => rw [run]; rfl
    | submitted block chain outcome read submitted run => rw [run]; rfl
  split
  · refine ⟨[],?_,adds_nil⟩
    rcases handleTx_cases P n peer.socket message.payload with run | ⟨tx,said,run,-⟩ <;> rw [run] <;> rfl
  split
  · exact ⟨[],rfl,adds_nil⟩
  split
  · exact ⟨[],rfl,adds_nil⟩
  split
  · exact handlePeers_calls n.addressBook now (some peer) message.payload
  · exact ⟨[],rfl,adds_nil⟩

/-- The calls for a peer that has registered. -/
def notedCalls (candidate : PeerAddress) (isOutbound : Bool) (now : Nat) : List BookCall :=
  if isOutbound then [.add now candidate true,.markSuccess now candidate] else [.add now candidate (!isRoutable candidate)]

theorem welcome_calls (n : RunningNode) (socket : Nat) (host : Bytes) (isOutbound : Bool) (incoming : VersionInfo)
    (now : Nat) (delivered : Bool) :
    (n.welcome socket host isOutbound incoming now delivered).1.addressBook =
      run after n.addressBook (notedCalls ⟨host,incoming.listenPort⟩ isOutbound now) := by
  have noted : (n.noted ⟨host,incoming.listenPort⟩ isOutbound now).addressBook =
      run after n.addressBook (notedCalls ⟨host,incoming.listenPort⟩ isOutbound now) := by
    cases isOutbound <;> rfl
  unfold welcome
  dsimp only
  split
  · rw [(startSync_plain _ socket now delivered).1]
    exact noted
  · exact noted

/-- A peer that does not register leaves the book alone, and one that comes from
    outside is only added. -/
theorem registerNewPeer_calls (n : RunningNode) (socket : Nat) (host : Bytes) (isOutbound : Bool)
    (incoming : Option VersionInfo) (now : Nat) (delivered : Bool) :
    ∃ calls, (n.registerNewPeer socket host isOutbound incoming now delivered).2.1.addressBook =
      run after n.addressBook calls ∧ (isOutbound = false → Adds calls) := by
  cases registerNewPeer_cases n socket host isOutbound incoming now delivered with
  | turnedAway node own run => exact ⟨[],by rw [run]; rfl,fun _ => adds_nil⟩
  | kept node own info heard run =>
    refine ⟨notedCalls ⟨host,info.listenPort⟩ isOutbound now,?_,?_⟩
    · rw [run]
      exact welcome_calls { n with node } socket host isOutbound info now delivered
    · rintro rfl
      exact adds_single now _ _

theorem connectToPeer_calls (n : RunningNode) (address : PeerAddress) (answer : Answer) (now : Nat) :
    ∃ calls, (n.connectToPeer address answer now).1.addressBook = run after n.addressBook calls := by
  unfold connectToPeer
  split
  · exact ⟨[],rfl⟩
  split
  · exact ⟨[],rfl⟩
  dsimp only
  split
  · exact ⟨[.add now address true],rfl⟩
  · case h_2 socket connected =>
    obtain ⟨calls,registered,-⟩ := registerNewPeer_calls
      { n with addressBook := (n.addressBook.add now address true).2 } socket address.host true answer.incoming now
      answer.delivered
    exact ⟨.add now address true :: calls,registered⟩

theorem dialCandidate_calls (n : RunningNode) (answer : Answer) (now : Nat) :
    ∃ calls, (n.dialCandidate answer now).1.addressBook = run after n.addressBook calls ∧
      Allowed n.addressBook (.dialed answer now) calls := by
  unfold dialCandidate
  split
  · exact ⟨[],rfl,.inl rfl⟩
  rcases chosen : n.addressBook.selectCandidate now with ⟨_ | candidate,addressBook⟩
  · refine ⟨[.selectCandidate now],?_,.inr ⟨[],rfl,fun _ => rfl⟩⟩
    show addressBook = (n.addressBook.selectCandidate now).2
    rw [chosen]
  have selected : after n.addressBook (.selectCandidate now) = addressBook := by rw [after,chosen]
  have behind : ∀ rest later, later = run after addressBook rest →
      ∃ calls, later = run after n.addressBook calls ∧ Allowed n.addressBook (.dialed answer now) calls := by
    intro rest later same
    refine ⟨.selectCandidate now :: rest,by rw [run_cons,selected,same],.inr ⟨rest,rfl,fun nobody => ?_⟩⟩
    rw [chosen] at nobody
    cases nobody
  dsimp only
  split
  · split
    · exact behind [.markFailure now candidate] _ rfl
    · exact behind [.markSuccess now candidate] _ rfl
  · split
    · exact behind [.markFailure now candidate] _ rfl
    · case h_2 socket connected =>
      obtain ⟨calls,registered,-⟩ := registerNewPeer_calls { n with addressBook } socket candidate.host true
        answer.incoming now answer.delivered
      generalize registerNewPeer _ _ _ _ _ _ _ = registration at registered ⊢
      obtain ⟨kept,n',said⟩ := registration
      cases kept with
      | true => exact behind (calls ++ [.markSuccess now candidate]) _ (by rw [run_append,← registered]; rfl)
      | false => exact behind (calls ++ [.markFailure now candidate]) _ (by rw [run_append,← registered]; rfl)

/-- Whatever a node is given, its book makes calls that the input allows. -/
theorem next_calls (P : Primitives) (n : RunningNode) (input : Input) :
    ∃ calls, (n.next P input).addressBook = run after n.addressBook calls ∧ Allowed n.addressBook input calls := by
  rw [next]
  cases input with
  | received socket message reading now =>
    rw [react]
    split
    · exact ⟨[],rfl,adds_nil⟩
    · exact handle_calls P n _ message reading now
  | lost socket => exact ⟨[],rfl,adds_nil⟩
  | cleaned now wall =>
    refine ⟨[],?_,adds_nil⟩
    show (finishSyncIfDue P { n with node := n.node.clean } now wall).addressBook = n.addressBook
    cases finishSyncIfDue_cases P { n with node := n.node.clean } now wall with
    | quiet syncState none run => rw [run]
    | handed syncState buffer some run => rw [run]
  | pinged elapsed => exact ⟨[],rfl,adds_nil⟩
  | syncRequested now delivered =>
    refine ⟨[],?_,adds_nil⟩
    rw [react,requestSync]
    split
    · rfl
    · exact (startSync_plain { n with syncCursor := n.syncCursor + 1 } _ now delivered).1
  | gossiped => exact ⟨[],rfl,adds_nil⟩
  | accepted host answer now =>
    show ∃ calls, (n.acceptOnePeer host answer now).1.addressBook = _ ∧ Adds calls
    unfold acceptOnePeer
    split
    · obtain ⟨calls,registered,adds⟩ := registerNewPeer_calls n _ _ false answer.incoming now answer.delivered
      exact ⟨calls,registered,adds rfl⟩
    · exact ⟨[],rfl,adds_nil⟩
  | connectTold address answer now =>
    obtain ⟨calls,called⟩ := connectToPeer_calls n address answer now
    exact ⟨calls,called,trivial⟩
  | dialed answer now => exact dialCandidate_calls n answer now
  | mined reading block =>
    refine ⟨[],?_,adds_nil⟩
    rw [react,submitBlock]
    split <;> rfl
  | paid tx =>
    obtain ⟨said,run,-⟩ := submitTransaction_cases P n tx
    exact ⟨[],by rw [react,run]; rfl,adds_nil⟩
  | remembered address now => exact ⟨[.add now address true],rfl,adds_single now address true⟩
  | stopped => exact ⟨[],rfl,adds_nil⟩

end

/-! ### The book grows -/

/-- A book later on: it has its addresses in front, and no more if it was full. -/
structure Grown (book later : AddressBook) : Prop where
  kept : book.addresses <+: later.addresses
  frozen : maxEntries ≤ book.addresses.length → later.addresses = book.addresses

section
variable {book middle later : AddressBook}

theorem grown_of_same (same : later.addresses = book.addresses) : Grown book later :=
  ⟨by rw [same],fun _ => same⟩

theorem Grown.trans (first : Grown book middle) (second : Grown middle later) : Grown book later where
  kept := first.kept.trans second.kept
  frozen full := by
    have same := first.frozen full
    rw [second.frozen (by rwa [same]),same]

theorem grown_after (book : AddressBook) (call : BookCall) : Grown book (after book call) := by
  cases call with
  | add now address trusted =>
    show Grown book (book.add now address trusted).2
    cases add_cases book now address trusted with
    | refused run =>
      rw [run]
      exact grown_of_same rfl
    | added named admitted room new run =>
      rw [run]
      refine ⟨⟨[address],by simp [addresses]⟩,fun full => ?_⟩
      rw [addresses,List.length_map] at full
      omega
  | selectCandidate now => exact grown_of_same (map_change fun _ => rfl)
  | markSuccess now address => exact grown_of_same (map_change fun _ => rfl)
  | markFailure now address => exact grown_of_same (map_change fun _ => rfl)

theorem grown_run (P : Primitives) (n : RunningNode) (inputs : List Input) :
    Grown n.addressBook (run (next P) n inputs).addressBook := by
  refine run_keeps (motive := fun later : RunningNode => Grown n.addressBook later.addressBook)
    (fun later input grown => ?_) inputs (grown_of_same rfl)
  obtain ⟨calls,called,-⟩ := next_calls P later input
  rw [called]
  exact run_keeps (motive := Grown n.addressBook) (fun book call grown => grown.trans (grown_after book call)) calls grown

/-- An address with a host and a port is taken in unless the book is full. -/
theorem mem_remembered {address : PeerAddress} (named : address.host ≠ [] ∧ address.port ≠ 0) (book : AddressBook) (now : Nat) :
    address ∈ (book.add now address true).2.addresses ↔ address ∈ book.addresses ∨ book.addresses.length < maxEntries := by
  have grown : Grown book (book.add now address true).2 := grown_after book (.add now address true)
  by_cases known : address ∈ book.addresses
  · exact iff_of_true (grown.kept.subset known) (.inl known)
  by_cases full : maxEntries ≤ book.addresses.length
  · rw [grown.frozen full]
    exact iff_of_false known fun either => either.elim known fun room => absurd full (Nat.not_le_of_lt room)
  · refine iff_of_true ?_ (.inr (Nat.lt_of_not_le full))
    have blank : ¬ (address.host = [] ∨ address.port = 0) := not_or.mpr named
    have room : ¬ book.book.length ≥ maxEntries := by simpa [addresses] using full
    have taken : (book.add now address true).2 = ⟨book.book ++ [⟨address,now,0,false,false⟩]⟩ := by
      rw [add,if_neg blank,if_neg (by simp),if_neg room,find_eq_none.mpr known]
    rw [taken]
    simp [addresses]

end

/-- Along any run: an address that is remembered at some point is known ever after
    exactly if it was known, or there was room for it. -/
theorem remembered_for_good (P : Primitives) (n : RunningNode) (earlier later : List Input) {address : PeerAddress}
    (named : address.host ≠ [] ∧ address.port ≠ 0) (now : Nat) :
    address ∈ (run (next P) n (earlier ++ .remembered address now :: later)).addressBook.addresses ↔
      address ∈ (run (next P) n earlier).addressBook.addresses ∨
        (run (next P) n earlier).addressBook.addresses.length < maxEntries := by
  rw [run_append,run_cons]
  generalize run (next P) n earlier = middle
  have taken := mem_remembered named middle.addressBook now
  have grown := grown_run P (middle.next P (.remembered address now)) later
  constructor
  · intro known
    by_contra neither
    obtain ⟨unknown,full⟩ := not_or.mp neither
    -- The book was full, and is the same for ever.
    have still := (grown_run P middle [.remembered address now]).trans grown
    rw [still.frozen (Nat.le_of_not_lt full)] at known
    exact unknown known
  · exact fun either => grown.kept.subset (taken.mpr either)

/-- An address and its port, for a node that has met nobody. -/
def seed : PeerAddress := ⟨text "seed",8000⟩

theorem remembered_for_good_seed :
    seed ∈ (run (next Samples.sample) .newcomer ([.gossiped] ++ .remembered seed 5 :: [.stopped])).addressBook.addresses :=
  (remembered_for_good Samples.sample .newcomer [.gossiped] [.stopped] ⟨by decide,by decide⟩ 5).mpr (.inr (by decide))

/-! ### A book of dead addresses -/

/-- The book is full, and every address in it has been given up. -/
structure Dead (book : AddressBook) : Prop where
  full : maxEntries ≤ book.book.length
  failed : ∀ entry ∈ book.book, maxFailures ≤ entry.failures

section
variable {P : Primitives} {n : RunningNode} {book : AddressBook}

theorem Dead.adds (dead : Dead book) {calls : List BookCall} (adds : Adds calls) : run after book calls = book := by
  induction calls with
  | nil => rfl
  | cons call calls ih =>
    obtain ⟨⟨now,address,trusted,rfl⟩,rest⟩ := List.forall_mem_cons.mp adds
    have refused : after book (.add now address trusted) = book := foldl_add_full dead.full [address]
    rw [run_cons,refused,ih rest]

/-- Nobody is due. -/
theorem Dead.selectCandidate (dead : Dead book) (now : Nat) : book.selectCandidate now = (none,book) := by
  have nobody : book.book.find? (Due now ·) = none := List.find?_eq_none.mpr fun entry member due =>
    absurd (of_decide_eq_true due).2.1 (Nat.not_lt.mpr (dead.failed entry member))
  rw [AddressBook.selectCandidate,nobody,change_none nobody]
  rfl

theorem Dead.next (dead : Dead n.addressBook) {input : Input}
    (untold : ∀ address answer now, input ≠ .connectTold address answer now) :
    (n.next P input).addressBook = n.addressBook := by
  obtain ⟨calls,called,allowed⟩ := next_calls P n input
  rw [called]
  cases input with
  | connectTold address answer now => exact absurd rfl (untold address answer now)
  | dialed answer now =>
    have chosen := dead.selectCandidate now
    rcases allowed with rfl | ⟨rest,rfl,alone⟩
    · rfl
    · rw [alone (by rw [chosen])]
      show (n.addressBook.selectCandidate now).2 = n.addressBook
      rw [chosen]
  | received socket message reading now => exact dead.adds allowed
  | lost socket => exact dead.adds allowed
  | cleaned now wall => exact dead.adds allowed
  | pinged elapsed => exact dead.adds allowed
  | syncRequested now delivered => exact dead.adds allowed
  | gossiped => exact dead.adds allowed
  | accepted host answer now => exact dead.adds allowed
  | mined reading block => exact dead.adds allowed
  | paid tx => exact dead.adds allowed
  | remembered address now => exact dead.adds allowed
  | stopped => exact dead.adds allowed

end

/-- A node whose book is full of addresses that it has given up finds nobody to
    dial ever again, whatever its peers tell it and whoever connects to it, unless
    its user has it connect. -/
theorem dead_book_stays (P : Primitives) (n : RunningNode) (dead : Dead n.addressBook) {inputs : List Input}
    (untold : ∀ address answer now, .connectTold address answer now ∉ inputs) :
    (run (next P) n inputs).addressBook = n.addressBook ∧
      ∀ now, ((run (next P) n inputs).addressBook.selectCandidate now).1 = none := by
  have same : (run (next P) n inputs).addressBook = n.addressBook := by
    induction inputs generalizing n with
    | nil => rfl
    | cons input inputs ih =>
      have stays : (n.next P input).addressBook = n.addressBook :=
        dead.next fun address answer now here => untold address answer now (by simp [here])
      rw [run_cons,ih _ (by rwa [stays]) fun address answer now member =>
        untold address answer now (List.mem_cons_of_mem _ member),stays]
  refine ⟨same,fun now => ?_⟩
  rw [same,dead.selectCandidate now]

/-- A node with a full book that has given up the first `maxEntries` ports of a host. -/
def forlorn : RunningNode :=
  { RunningNode.newcomer with addressBook :=
      ⟨(List.range maxEntries).map fun port => ⟨⟨text "gone",UInt16.ofNat port⟩,0,maxFailures,false,false⟩⟩ }

theorem dead_forlorn : Dead forlorn.addressBook where
  full := by simp [forlorn]
  failed entry member := by
    simp only [forlorn,List.mem_map] at member
    obtain ⟨port,-,rfl⟩ := member
    exact Nat.le_refl _

theorem dead_book_stays_forlorn :
    (run (next Samples.sample) forlorn [.remembered seed 5,.gossiped]).addressBook = forlorn.addressBook :=
  (@dead_book_stays Samples.sample forlorn dead_forlorn [.remembered seed 5,.gossiped] (by simp)).1

/-! ### The bootstrap file -/

/-- `std::stoi` on digits; none if it throws. -/
def stoi (digits : Bytes) : Option Nat := if decimalValue digits < 2 ^ 31 then some (decimalValue digits) else none

/-- One turn of the loop of `load_bootstrap_peers`. -/
def parseEntry (buffer : Bytes) : Option PeerAddress :=
  match buffer.dropWhile (· ≠ 58) with
  | [] => none
  | _ :: portStr =>
    let host := buffer.takeWhile (· ≠ 58)
    if host = [] ∨ portStr = [] then none
    else if ¬ portStr.all isDigit then none
    else
      match stoi portStr with
      | none => none
      | some portNum => if portNum > 65535 then none else some ⟨host,UInt16.ofNat portNum⟩

/-- None if the file cannot be opened. -/
def loadBootstrapPeers (file : Option Bytes) : Option (List PeerAddress) :=
  file.map fun content => (Words.all isSpace content).filterMap parseEntry

def createBootstrapFile : Bytes := text "# forgechain bootstrap peers, one per line: host:port" ++ [10]

/-- The addresses that `main` configures the node with. -/
def configured (config : OrchestratorConfig) (file : Option Bytes) : List PeerAddress :=
  config.addresses ++ (loadBootstrapPeers file).getD []

/-- An address as it stands in the file. -/
def entryOf (address : PeerAddress) : Bytes := address.host ++ 58 :: decimal address.port.toNat

/-- The file with a line for each address. -/
def fileOf (peers : List PeerAddress) : Bytes := createBootstrapFile ++ peers.flatMap (entryOf · ++ [10])

/-- A host that can stand in the file. -/
structure Writable (address : PeerAddress) : Prop where
  host : Word address.host
  colon : 58 ∉ address.host

section
variable {address : PeerAddress}

theorem word_entryOf (writable : Writable address) : Word (entryOf address) where
  given := by simp [entryOf]
  solid c member := by
    rcases List.mem_append.mp member with inside | behind
    · exact writable.host.solid c inside
    · rcases List.mem_cons.mp behind with rfl | digit
      · decide
      · exact (word_decimal _).solid c digit

theorem parseEntry_entryOf (writable : Writable address) : parseEntry (entryOf address) = some address := by
  have before : ∀ c ∈ address.host, decide (c ≠ 58) = true := fun c member =>
    decide_eq_true fun same => writable.colon (same ▸ member)
  have front : (entryOf address).takeWhile (· ≠ 58) = address.host := by
    rw [entryOf,List.takeWhile_append_of_pos before]
    simp
  have back : (entryOf address).dropWhile (· ≠ 58) = 58 :: decimal address.port.toNat := by
    rw [entryOf,List.dropWhile_append_of_pos before]
    simp
  have blank : ¬ (address.host = [] ∨ decimal address.port.toNat = []) :=
    not_or.mpr ⟨writable.host.given,(digits_decimal _).2⟩
  have digits : ¬ ¬ (decimal address.port.toNat).all isDigit = true :=
    not_not.mpr (List.all_eq_true.mpr (digits_decimal _).1)
  have small := address.port.toNat_lt
  have number : stoi (decimal address.port.toNat) = some address.port.toNat := by
    rw [stoi,decimalValue_decimal,if_pos (by omega)]
  rw [parseEntry,back]
  dsimp only
  rw [front,if_neg blank,if_neg digits,number]
  dsimp only
  rw [if_neg (by omega),UInt16.ofNat_toNat]

/-- The words of the first line, each with what follows it. -/
def headerPieces : List (Bytes × UInt8) :=
  [(text "#",32),(text "forgechain",32),(text "bootstrap",32),(text "peers,",32),(text "one",32),(text "per",32),
    (text "line:",32),(text "host:port",10)]

/-- The first line names nobody, and every other line names its address. -/
theorem load_fileOf {peers : List PeerAddress} (writable : ∀ address ∈ peers, Writable address) :
    loadBootstrapPeers (some (fileOf peers)) = some peers := by
  have content : fileOf peers =
      (headerPieces ++ peers.map (entryOf ·,10)).flatMap fun piece : Bytes × UInt8 => piece.1 ++ [piece.2] := by
    have line : createBootstrapFile = headerPieces.flatMap fun piece : Bytes × UInt8 => piece.1 ++ [piece.2] := by
      decide +kernel
    rw [fileOf,line,List.flatMap_append,List.flatMap_map]
  have header : ∀ piece ∈ headerPieces, Words.Solid isSpace piece.1 ∧ isSpace piece.2 = true := by
    have every : (headerPieces.all fun piece => piece.1 ≠ [] && piece.1.all (!isSpace ·) && isSpace piece.2) = true := by
      decide +kernel
    intro piece member
    have here := List.all_eq_true.mp every piece member
    simp only [Bool.and_eq_true,decide_eq_true_eq] at here
    have word := word_of_all here.1.1 here.1.2
    exact ⟨⟨word.given,word.solid⟩,here.2⟩
  have words : Words.all isSpace (fileOf peers) = headerPieces.map Prod.fst ++ peers.map entryOf := by
    rw [content,Words.all_each,List.map_append,List.map_map]
    · rfl
    · intro piece member
      rcases List.mem_append.mp member with first | later
      · exact header piece first
      · obtain ⟨address,inside,rfl⟩ := List.mem_map.mp later
        have is_word := word_entryOf (writable address inside)
        exact ⟨⟨is_word.given,is_word.solid⟩,show isSpace 10 = true by decide⟩
  have nobody : (headerPieces.map Prod.fst).filterMap parseEntry = [] := by decide
  have everybody : (peers.map entryOf).filterMap parseEntry = peers := by
    rw [List.filterMap_map]
    refine (List.filterMap_congr fun address inside => ?_).trans List.filterMap_some
    exact parseEntry_entryOf (writable address inside)
  rw [loadBootstrapPeers,Option.map_some,words,List.filterMap_append,nobody,everybody,List.nil_append]

end

end ForgeChain.Contacts
