import ForgeChain.Bytes

/-!
Message framing. `send_exact` and `read_exact` call the system until all bytes
are through; how many bytes one call moves is up to the network. Over a network
without errors they write and read in one piece, so a message on the stream is
its header and its payload. The header holds the payload's size cut to 32 bits,
and the limit is tested on the cut size: what the receiver takes for the payload
is the whole of it only if nothing was cut.
-/
namespace ForgeChain
open Codec

/-- What `send` and `recv` answer: the number of bytes they moved, or an error.
    A call that was interrupted and made again does not show. -/
structure Transport where
  send : (written buffer : Bytes) → Option Nat
  recv : (length : Nat) → (stream : Bytes) → Option Nat
  send_moves : ∀ {written buffer n}, send written buffer = some n → buffer ≠ [] → 0 < n ∧ n ≤ buffer.length
  recv_moves : ∀ {length stream n}, recv length stream = some n → length ≠ 0 → stream ≠ [] →
    0 < n ∧ n ≤ length ∧ n ≤ stream.length

/-- No call fails. -/
structure Transport.Reliable (net : Transport) : Prop where
  send : ∀ written buffer, net.send written buffer ≠ none
  recv : ∀ length stream, net.recv length stream ≠ none

/-- A network that moves everything at once. -/
def Transport.prompt : Transport where
  send _ buffer := some buffer.length
  recv length stream := some (min length stream.length)
  send_moves := by
    rintro written buffer n ⟨⟩ more
    exact ⟨List.length_pos_iff.mpr more,le_rfl⟩
  recv_moves := by
    rintro length stream n ⟨⟩ wanted more
    have := List.length_pos_iff.mpr more
    omega

theorem Transport.prompt_reliable : Transport.prompt.Reliable where
  send _ _ := by simp [prompt]
  recv _ _ := by simp [prompt]

section
variable (net : Transport)

/-- Writes a buffer; returns whether all of it was sent, and the stream with what was. -/
def sendExact (written buffer : Bytes) : Bool × Bytes :=
  if more : buffer = [] then (true,written)
  else
    match moved : net.send written buffer with
    | none => (false,written)
    | some n => sendExact (written ++ buffer.take n) (buffer.drop n)
termination_by buffer.length
decreasing_by
  have := net.send_moves moved more
  rw [List.length_drop]
  omega

/-- Reads `length` bytes off the stream; `recv` returns 0 where the stream has ended. -/
def readExact (length : Nat) (stream : Bytes) : Option (Bytes × Bytes) :=
  if wanted : length = 0 then some ([],stream)
  else if more : stream = [] then none
  else
    match moved : net.recv length stream with
    | none => none
    | some n => do
      let (buffer,rest) ← readExact (length - n) (stream.drop n)
      some (stream.take n ++ buffer,rest)
termination_by length
decreasing_by
  have := net.recv_moves moved wanted more
  omega

variable {net}

theorem sendExact_all (reliable : net.Reliable) (written buffer : Bytes) :
    sendExact net written buffer = (true,written ++ buffer) := by
  fun_induction sendExact net written buffer with
  | case1 written => simp
  | case2 written buffer more failed => exact absurd failed (reliable.send _ _)
  | case3 written buffer more n moved rest => rw [rest,List.append_assoc,List.take_append_drop]

/-- However the network cuts the stream, the first `length` bytes of it are read. -/
theorem readExact_all (reliable : net.Reliable) (length : Nat) (stream : Bytes) :
    readExact net length stream = readBytes length stream := by
  fun_induction readExact net length stream with
  | case1 stream => simp [readBytes]
  | case2 length wanted => simp [readBytes,Nat.pos_of_ne_zero wanted]
  | case3 length stream wanted more failed => exact absurd failed (reliable.recv _ _)
  | case4 length stream wanted more n moved rest =>
    obtain ⟨-,asked,there⟩ := net.recv_moves moved wanted more
    rw [rest]
    unfold readBytes
    by_cases short : stream.length < length
    · have left : (stream.drop n).length < length - n := by
        rw [List.length_drop]
        omega
      rw [if_pos short,if_pos left]
      rfl
    · have left : ¬ (stream.drop n).length < length - n := by
        rw [List.length_drop]
        omega
      have whole : stream.take n ++ (stream.drop n).take (length - n) = stream.take length := by
        rw [← List.take_add,Nat.add_sub_cancel' asked]
      rw [if_neg short,if_neg left]
      show some (stream.take n ++ (stream.drop n).take (length - n),(stream.drop n).drop (length - n)) = _
      rw [whole,List.drop_drop,Nat.add_sub_cancel' asked]

/-- On any network, what was read was at the front of the stream. -/
theorem readExact_split {length : Nat} {stream buffer rest : Bytes}
    (taken : readExact net length stream = some (buffer,rest)) : stream = buffer ++ rest ∧ buffer.length = length := by
  fun_induction readExact net length stream generalizing buffer rest with
  | case1 stream =>
    cases taken
    exact ⟨rfl,rfl⟩
  | case2 length wanted => cases taken
  | case3 length stream wanted more failed => cases taken
  | case4 length stream wanted more n moved left =>
    obtain ⟨-,asked,there⟩ := net.recv_moves moved wanted more
    rw [Option.bind_eq_bind,Option.bind_eq_some_iff] at taken
    obtain ⟨⟨tail,_⟩,read,⟨⟩⟩ := taken
    obtain ⟨split,size⟩ := left read
    constructor
    · rw [List.append_assoc,← split,List.take_append_drop]
    · rw [List.length_append,List.length_take_of_le there,size]
      omega

end

/-- `MessageType`: an enumeration over a byte; a receiver casts any byte to it. -/
structure MessageType where
  code : UInt8
  deriving DecidableEq

def MessageType.version : MessageType := ⟨0x00⟩
def MessageType.inv : MessageType := ⟨0x01⟩
def MessageType.getdata : MessageType := ⟨0x02⟩
def MessageType.block : MessageType := ⟨0x03⟩
def MessageType.tx : MessageType := ⟨0x04⟩
def MessageType.getblocks : MessageType := ⟨0x05⟩
def MessageType.ping : MessageType := ⟨0x06⟩
def MessageType.pong : MessageType := ⟨0x07⟩
def MessageType.peers : MessageType := ⟨0x08⟩

structure Message where
  type : MessageType
  payload : Bytes
  deriving DecidableEq

/-- The bytes of "FRGC". -/
def magicBytes : Bytes := [0x46,0x52,0x47,0x43]

def headerLength : Nat := 9

def maxPayloadSize : UInt32 := 16 * 1024 * 1024

section
variable (net : Transport)

def sendMessage (written : Bytes) (message : Message) : Bool × Bytes :=
  let payloadLength := UInt32.ofNat message.payload.length
  if payloadLength > maxPayloadSize then (false,written)
  else
    match sendExact net written (magicBytes ++ [message.type.code] ++ le32 payloadLength) with
    | (false,written) => (false,written)
    | (true,written) => sendExact net written message.payload

def receiveMessage (stream : Bytes) : Option (Message × Bytes) := do
  let (header,rest) ← readExact net headerLength stream
  if header.take 4 ≠ magicBytes then none
  else
    let (code,lengthBytes) ← readU8 (header.drop 4)
    let (length,_) ← readU32 lengthBytes
    if length > maxPayloadSize then none
    else
      let (payload,rest) ← readExact net length.toNat rest
      some (⟨⟨code⟩,payload⟩,rest)

variable {net}

/-- A message takes its header off the stream, if nothing else. -/
theorem receiveMessage_shorter {stream rest : Bytes} {message : Message}
    (received : receiveMessage net stream = some (message,rest)) : rest.length < stream.length := by
  simp only [receiveMessage,Option.bind_eq_bind,Option.bind_eq_some_iff,Prod.exists] at received
  obtain ⟨header,after,read,received⟩ := received
  obtain ⟨rfl,size⟩ := readExact_split read
  split at received
  · cases received
  · rw [Option.bind_eq_some_iff] at received
    obtain ⟨⟨code,lengthBytes⟩,-,received⟩ := received
    rw [Option.bind_eq_some_iff] at received
    obtain ⟨⟨length,_⟩,-,received⟩ := received
    split at received
    · cases received
    · rw [Option.bind_eq_some_iff] at received
      obtain ⟨⟨payload,_⟩,read,⟨⟩⟩ := received
      obtain ⟨rfl,-⟩ := readExact_split read
      simp only [List.length_append,size,headerLength]
      omega

variable (net)

/-- Sends messages in order; returns those whose call returned true, and the stream. -/
def sendAll (written : Bytes) : List Message → List Message × Bytes
  | [] => ([],written)
  | message :: more =>
    let (sent,written) := sendMessage net written message
    let (accepted,written) := sendAll written more
    (if sent then message :: accepted else accepted,written)

/-- Receives until a call returns false; returns the messages and what was left of the stream then. -/
def receiveAll (stream : Bytes) : List Message × Bytes :=
  match received : receiveMessage net stream with
  | none => ([],stream)
  | some (message,rest) =>
    let (more,left) := receiveAll rest
    (message :: more,left)
termination_by stream.length
decreasing_by exact receiveMessage_shorter received

/-- A call that returns false has written nothing, and the receiver gets the
    messages whose call returned true and comes to the end of the stream. -/
structure Synchronised (messages : List Message) : Prop where
  refused : ∀ earlier message later, messages = earlier ++ message :: later →
    (sendMessage net (sendAll net [] earlier).2 message).1 = false →
      (sendMessage net (sendAll net [] earlier).2 message).2 = (sendAll net [] earlier).2
  received : receiveAll net (sendAll net [] messages).2 = ((sendAll net [] messages).1,[])

end

namespace Message

/-- The size in the header. -/
def payloadLength (message : Message) : UInt32 := UInt32.ofNat message.payload.length

/-- The size in the header passes the limit. -/
def Admitted (message : Message) : Prop := message.payloadLength ≤ maxPayloadSize

instance (message : Message) : Decidable message.Admitted := inferInstanceAs (Decidable (_ ≤ _))

def frame (message : Message) : Bytes :=
  magicBytes ++ [message.type.code] ++ le32 message.payloadLength ++ message.payload

/-- What a receiver takes for the payload: as many bytes as the header says. -/
def cut (message : Message) : Message := ⟨message.type,message.payload.take message.payloadLength.toNat⟩

theorem payloadLength_toNat (message : Message) :
    message.payloadLength.toNat = message.payload.length % 2 ^ 32 := UInt32.toNat_ofNat'

theorem payloadLength_le (message : Message) : message.payloadLength.toNat ≤ message.payload.length := by
  rw [payloadLength_toNat]
  exact Nat.mod_le _ _

/-- The receiver takes the whole payload exactly if its size is a 32-bit number. -/
theorem cut_eq_iff (message : Message) : message.cut = message ↔ message.payload.length < 2 ^ 32 := by
  have size : message.cut.payload.length = message.payload.length % 2 ^ 32 := by
    rw [cut,List.length_take_of_le message.payloadLength_le,payloadLength_toNat]
  constructor
  · intro whole
    rw [whole] at size
    rw [size]
    exact Nat.mod_lt _ (by decide)
  · intro small
    have whole : message.payload.take message.payloadLength.toNat = message.payload := by
      rw [payloadLength_toNat,Nat.mod_eq_of_lt small,List.take_length]
    rw [cut,whole]

theorem drop_payloadLength {message : Message} (small : message.payload.length < 2 ^ 32) :
    message.payload.drop message.payloadLength.toNat = [] := by
  rw [payloadLength_toNat,Nat.mod_eq_of_lt small,List.drop_length]

theorem admitted_iff (message : Message) :
    message.Admitted ↔ message.payload.length % 2 ^ 32 ≤ maxPayloadSize.toNat := by
  rw [Admitted,UInt32.le_iff_toNat_le,payloadLength_toNat]

end Message

section
variable {net : Transport}

theorem sendMessage_eq (reliable : net.Reliable) (written : Bytes) (message : Message) :
    sendMessage net written message = if message.Admitted then (true,written ++ message.frame) else (false,written) := by
  by_cases small : message.Admitted
  · have fits : ¬ message.payloadLength > maxPayloadSize := UInt32.not_lt.mpr small
    rw [if_pos small]
    refine (if_neg fits).trans ?_
    simp only [sendExact_all reliable,Message.frame,Message.payloadLength,List.append_assoc]
  · rw [if_neg small]
    exact if_pos (UInt32.not_le.mp small)

theorem sendAll_eq (reliable : net.Reliable) (written : Bytes) (messages : List Message) :
    sendAll net written messages =
      (messages.filter (·.Admitted),written ++ (messages.filter (·.Admitted)).flatMap Message.frame) := by
  induction messages generalizing written with
  | nil => simp [sendAll]
  | cons message more rest =>
    simp only [sendAll,sendMessage_eq reliable,rest]
    by_cases small : message.Admitted
    · simp [small]
    · simp [small]

theorem receiveMessage_nil (reliable : net.Reliable) : receiveMessage net [] = none := by
  rw [receiveMessage,readExact_all reliable]
  rfl

theorem receiveMessage_frame (reliable : net.Reliable) {message : Message} (small : message.Admitted) (rest : Bytes) :
    receiveMessage net (message.frame ++ rest) =
      some (message.cut,message.payload.drop message.payloadLength.toNat ++ rest) := by
  have header : readBytes headerLength (message.frame ++ rest) =
      some (magicBytes ++ [message.type.code] ++ le32 message.payloadLength,message.payload ++ rest) :=
    (reads_bytes _ _ _ _).mpr ⟨by simp [magicBytes,headerLength],by simp [Message.frame]⟩
  have size : readU32 (le32 message.payloadLength) = some (message.payloadLength,[]) :=
    (reads_u32 _ _ _).mpr ⟨trivial,(List.append_nil _).symm⟩
  have payload : readBytes message.payloadLength.toNat (message.payload ++ rest) =
      some (message.cut.payload,message.payload.drop message.payloadLength.toNat ++ rest) := by
    refine (reads_bytes _ _ _ _).mpr ⟨List.length_take_of_le message.payloadLength_le,?_⟩
    rw [id,Message.cut,← List.append_assoc,List.take_append_drop]
  have fits : ¬ message.payloadLength > maxPayloadSize := UInt32.not_lt.mpr small
  simp only [receiveMessage,readExact_all reliable,header,Option.bind_eq_bind,Option.bind_some]
  simp [magicBytes,readU8,size,fits,payload,Message.cut]

theorem receiveAll_cons {stream rest : Bytes} {message : Message}
    (received : receiveMessage net stream = some (message,rest)) :
    receiveAll net stream = (message :: (receiveAll net rest).1,(receiveAll net rest).2) := by
  rw [receiveAll]
  split
  · case h_1 none =>
    rw [received] at none
    cases none
  · case h_2 message' rest' same =>
    rw [received] at same
    cases same
    rfl

theorem receiveAll_nil (reliable : net.Reliable) : receiveAll net [] = ([],[]) := by
  rw [receiveAll]
  split
  · rfl
  · case h_2 message rest received =>
    rw [receiveMessage_nil reliable] at received
    cases received

/-- The first message that is cut comes out changed; before it all do well. -/
theorem receiveAll_frames (reliable : net.Reliable) {messages : List Message}
    (small : ∀ message ∈ messages, message.Admitted) :
    receiveAll net (messages.flatMap Message.frame) = (messages,[]) ↔
      ∀ message ∈ messages, message.payload.length < 2 ^ 32 := by
  induction messages with
  | nil => simp [receiveAll_nil reliable]
  | cons message more rest =>
    rw [List.forall_mem_cons] at small
    rw [List.flatMap_cons,receiveAll_cons (receiveMessage_frame reliable small.1 _),List.forall_mem_cons,
      ← message.cut_eq_iff,← rest small.2]
    constructor
    · intro same
      rw [Prod.mk.injEq,List.cons.injEq] at same
      obtain ⟨⟨whole,others⟩,left⟩ := same
      rw [Message.drop_payloadLength (message.cut_eq_iff.mp whole),List.nil_append] at others left
      exact ⟨whole,Prod.ext others left⟩
    · rintro ⟨whole,others⟩
      rw [Message.drop_payloadLength (message.cut_eq_iff.mp whole),List.nil_append,others,whole]

theorem received_iff (reliable : net.Reliable) (messages : List Message) :
    receiveAll net (sendAll net [] messages).2 = ((sendAll net [] messages).1,[]) ↔
      ∀ message ∈ messages, message.payload.length < 2 ^ 32 ∨
        maxPayloadSize.toNat < message.payload.length % 2 ^ 32 := by
  have admitted : ∀ message ∈ messages.filter (·.Admitted), message.Admitted := by
    intro message member
    simpa using (List.mem_filter.mp member).2
  rw [sendAll_eq reliable,List.nil_append,receiveAll_frames reliable admitted]
  simp only [List.mem_filter,decide_eq_true_eq,Message.admitted_iff,and_imp]
  refine forall₂_congr fun message _ => ?_
  rw [imp_iff_not_or,or_comm,Nat.not_le]

/-- Sending and receiving stay in step exactly if no payload is so long that
    its size, cut to 32 bits, passes the limit. -/
theorem synchronised_iff (reliable : net.Reliable) (messages : List Message) :
    Synchronised net messages ↔ ∀ message ∈ messages, message.payload.length < 2 ^ 32 ∨
      maxPayloadSize.toNat < message.payload.length % 2 ^ 32 := by
  rw [← received_iff reliable]
  constructor
  · exact Synchronised.received
  · intro received
    refine ⟨?_,received⟩
    intro earlier message later _ refused
    rw [sendMessage_eq reliable] at refused ⊢
    by_cases small : message.Admitted
    · rw [if_pos small] at refused
      cases refused
    · rw [if_neg small]

theorem synchronised_short :
    Synchronised .prompt [⟨⟨6⟩,[]⟩,⟨⟨7⟩,[1,2,3]⟩] :=
  (synchronised_iff Transport.prompt_reliable _).mpr (by decide)

theorem desynchronised_of_size {message : Message} (size : message.payload.length = 2 ^ 32) :
    ¬ Synchronised .prompt [message] := by
  intro synchronised
  have sizes := (received_iff Transport.prompt_reliable [message]).mp synchronised.received
  rw [List.forall_mem_singleton,size] at sizes
  rcases sizes with small | refused
  · exact lt_irrefl _ small
  · rw [Nat.mod_self] at refused
    exact Nat.not_lt_zero _ refused

/-- A payload of `2 ^ 32` bytes is announced as empty and written all the same. -/
theorem desynchronised_huge :
    Transport.prompt.Reliable ∧ ¬ Synchronised .prompt [⟨⟨6⟩,List.replicate (2 ^ 32) 0⟩] :=
  ⟨Transport.prompt_reliable,desynchronised_of_size List.length_replicate⟩

end
end ForgeChain
