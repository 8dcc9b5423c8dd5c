import ForgeChain.CommandLine
import ForgeChain.Nonces
import ForgeChain.PeerInput
import ForgeChain.Wire
import ForgeChain.Words

/-!
A payment on its way from the user to the node: the line that is typed
(`src/app/WalletCli.cpp`), the two connections that the wallet makes
(`src/app/Wallet.cpp`) and the two lines that the RPC server answers
(`src/app/RpcServer.cpp`). What the user is told depends on the counter and on
sizes, and not on whether the mempool takes the transaction
(`payment_reported`). The counter moves with the chain only, so of the payments
that are sent between two blocks one can ever count, and all of them are
reported as sent (`sent_but_once`).
-/
namespace ForgeChain.Payments
open RpcServer CommandLine Words Tally

/-! ### Hexadecimal digits -/

/-- The two digits of a byte. -/
def hexPair (byte : UInt8) : Bytes :=
  [Primitives.hexChars.getD ((byte >>> 4) &&& 0x0F).toNat 0,Primitives.hexChars.getD (byte &&& 0x0F).toNat 0]

theorem toHex_cons (byte : UInt8) (data : Bytes) :
    Primitives.toHex (byte :: data) = hexPair byte ++ Primitives.toHex data := rfl

/-- A digit is no blank and stands for its value. -/
theorem hexDigit_spec {digit : UInt8} (small : digit < 16) :
    isSpace (Primitives.hexChars.getD digit.toNat 0) = false ∧
      Primitives.hexDigitValue (Primitives.hexChars.getD digit.toNat 0) = some digit := by
  have every : ∀ i : Fin 16, isSpace (Primitives.hexChars.getD i 0) = false ∧
      Primitives.hexDigitValue (Primitives.hexChars.getD i 0) = some (UInt8.ofNat i) := by
    decide +kernel
  have given := every ⟨digit.toNat,UInt8.lt_iff_toNat_lt.mp small⟩
  rwa [UInt8.ofNat_toNat] at given

theorem and_lt_sixteen (byte : UInt8) : byte &&& 0x0F < 16 := by
  rw [UInt8.lt_iff_toNat_lt,UInt8.toNat_and]
  exact Nat.and_lt_two_pow (n := 4) _ (by decide)

theorem digits_joined (byte : UInt8) : (byte >>> 4 &&& 0x0F) <<< 4 ||| (byte &&& 0x0F) = byte := by
  have every : ∀ b : BitVec 8, (b >>> 4 &&& 0x0F) <<< 4 ||| (b &&& 0x0F) = b := by decide +kernel
  exact UInt8.eq_of_toBitVec_eq (every _)

/-- The digits of a byte are no blanks and stand for the byte. -/
theorem hexPair_spec (byte : UInt8) :
    (∀ c ∈ hexPair byte, isSpace c = false) ∧ Primitives.fromHex (hexPair byte) = some [byte] := by
  obtain ⟨high_solid,high_read⟩ := hexDigit_spec (and_lt_sixteen (byte >>> 4))
  obtain ⟨low_solid,low_read⟩ := hexDigit_spec (and_lt_sixteen byte)
  refine ⟨List.forall_mem_cons.mpr ⟨high_solid,List.forall_mem_singleton.mpr low_solid⟩,?_⟩
  rw [hexPair,Primitives.fromHex,high_read,low_read]
  exact congrArg (fun read => some [read]) (digits_joined byte)

theorem fromHex_pair (byte : UInt8) (rest : Bytes) :
    Primitives.fromHex (hexPair byte ++ rest) = (Primitives.fromHex rest).map (byte :: ·) := by
  have pair := (hexPair_spec byte).2
  simp only [hexPair,Primitives.fromHex,List.cons_append,List.nil_append,Option.bind_eq_bind,
    Option.bind_eq_some_iff,Option.some.injEq,List.cons.injEq] at pair ⊢
  obtain ⟨high,high_read,low,low_read,bytes,rfl,same⟩ := pair
  rw [high_read,low_read]
  cases Primitives.fromHex rest <;> simp [same]

/-- What is written in hexadecimal digits is read back. -/
theorem fromHex_toHex (data : Bytes) : Primitives.fromHex (Primitives.toHex data) = some data := by
  induction data with
  | nil => rfl
  | cons byte data ih => rw [toHex_cons,fromHex_pair,ih,Option.map_some]

theorem length_toHex (data : Bytes) : (Primitives.toHex data).length = 2 * data.length := by
  simp [Primitives.toHex,Nat.mul_comm]

theorem word_toHex {data : Bytes} (given : data ≠ []) : Word (Primitives.toHex data) where
  given := by
    have := length_toHex data
    have := List.length_pos_iff.mpr given
    exact List.ne_nil_of_length_pos (by omega)
  solid c member := by
    obtain ⟨byte,-,inside⟩ := List.mem_flatMap.mp member
    exact (hexPair_spec byte).1 c inside

/-! ### One line and its answer -/

/-- What `handle_connection` sends for all that a client sends, and what the node
    does. Nothing is sent after an exception, which ends the connection. -/
def answerTo (P : Primitives) (n : RunningNode) (apiKey stream : Bytes) : Bytes × RunningNode.Reaction :=
  match readLine [] stream with
  | none => (text "ERROR",n,[])
  | some line =>
    match handleCommand P n apiKey line with
    | (.error _,reaction) => ([],reaction)
    | (.ok answer,reaction) => (answer ++ [10],reaction)

/-- `Wallet::read_from` on what is sent before the connection ends. -/
def readFrom (sent : Bytes) : Bytes := sent.takeWhile (· ≠ 10)

section
variable {P : Primitives} {n : RunningNode} {key line command argument : Bytes}

/-- A line ends before there is a byte too many, or is refused. -/
theorem readLine_line (whole : 10 ∉ line) (before : Bytes) :
    readLine before (line ++ [10]) =
      if (before ++ line).length < 4096 then some (before ++ line) else none := by
  induction line generalizing before with
  | nil =>
    by_cases long : before.length ≥ 4096
    · simp [readLine,long]
    · simp [readLine,long,Nat.lt_of_not_ge long]
  | cons byte line ih =>
    have other : byte ≠ 10 := fun same => whole (by simp [same])
    rw [List.cons_append,readLine]
    by_cases long : before.length ≥ 4096
    · rw [if_pos long,if_neg (by simp only [List.length_append,List.length_cons]; omega)]
    · rw [if_neg long,if_neg other,ih (fun member => whole (by simp [member])),List.append_assoc]
      rfl

theorem extract_of_next {word stream : Bytes} {found : Bytes × Bytes} (there : next isSpace stream = some found) :
    extract word stream = found := by
  rw [next] at there
  rw [extract]
  split at there
  · cases there
  · case h_2 front =>
    rw [front]
    exact Option.some.inj there

/-- A word between blanks, or at the front. -/
theorem extract_front {word before rest : Bytes} {blanks : Bytes} (only : ∀ c ∈ blanks, isSpace c = true)
    (is_word : Word word) (ends : ∀ c ∈ rest.head?, isSpace c = true) :
    extract before (blanks ++ word ++ rest) = (word,rest) :=
  extract_of_next (next_eq_some_iff.mpr ⟨blanks,rfl,only,⟨is_word.given,is_word.solid⟩,ends⟩)

/-- The line of a command with one argument, behind the key. -/
def request (key command argument : Bytes) : Bytes := key ++ 32 :: (command ++ 32 :: argument)

theorem length_request :
    (request key command argument).length = key.length + command.length + argument.length + 2 := by
  simp only [request,List.length_append,List.length_cons]
  omega

/-- Without a key the line starts with a blank. -/
theorem handleCommand_request (keyed : key = [] ∨ Word key) (is_command : Word command) :
    handleCommand P n key (request key command argument) = perform P n command (32 :: argument) := by
  have blank : ∀ c ∈ [(32 : UInt8)], isSpace c = true := by simp [isSpace]
  have second : ∀ before, extract before ([32] ++ command ++ 32 :: argument) = (command,32 :: argument) := fun before =>
    extract_front blank is_command (by simp [isSpace])
  rcases keyed with rfl | is_key
  · rw [handleCommand,request]
    show (if _ then _ else _) = _
    rw [if_neg (by decide)]
    have first := second []
    rw [List.append_assoc] at first
    rw [List.nil_append]
    exact congrArg (fun found => perform P n found.1 found.2) first
  · have first : extract [] (request key command argument) = (key,32 :: (command ++ 32 :: argument)) := by
      have := @extract_front key [] (32 :: (command ++ 32 :: argument)) [] (by simp) is_key (by simp [isSpace])
      simpa [request] using this
    rw [handleCommand,first]
    dsimp only
    have required : apiKeyRequired key = true := decide_eq_true is_key.given
    have known : checkApiKey key key = true := by simp [checkApiKey]
    rw [if_pos required,if_neg (not_not.mpr known)]
    have then_command := second key
    rw [List.append_assoc] at then_command
    exact congrArg (fun found => perform P n found.1 found.2) then_command

theorem word_whole {word : Bytes} (is_word : Word word) : 10 ∉ word := fun member =>
  absurd (is_word.solid 10 member) (by decide)

theorem request_whole (keyed : key = [] ∨ Word key) (is_command : Word command) (is_argument : Word argument) :
    10 ∉ request key command argument := by
  have key_whole : 10 ∉ key := by
    rcases keyed with rfl | is_key
    · simp
    · exact word_whole is_key
  simp [request,key_whole,word_whole is_command,word_whole is_argument]

/-- A command reaches the node behind its own key, in a line that is not too
    long. -/
theorem answerTo_request (keyed : key = [] ∨ Word key) (is_command : Word command) (is_argument : Word argument) :
    answerTo P n key (request key command argument ++ [10]) =
      if (request key command argument).length < 4096 then
        match perform P n command (32 :: argument) with
        | (.error _,reaction) => ([],reaction)
        | (.ok answer,reaction) => (answer ++ [10],reaction)
      else (text "ERROR",n,[]) := by
  rw [answerTo,readLine_line (request_whole keyed is_command is_argument),List.nil_append]
  by_cases short : (request key command argument).length < 4096
  · simp only [if_pos short,handleCommand_request keyed is_command]
  · simp only [if_neg short]

end

/-! ### What the node does with the two lines -/

section
variable {P : Primitives} {n : RunningNode} {key address : Bytes} {tx : Transaction}

/-- A word is checked byte by byte. -/
theorem word_of_all {word : Bytes} (given : word ≠ []) (solid : word.all (!isSpace ·) = true) : Word word :=
  ⟨given,fun c member => by simpa using List.all_eq_true.mp solid c member⟩

theorem word_getnonce : Word (text "GETNONCE") := word_of_all (by decide) (by decide)

theorem word_submittx : Word (text "SUBMITTX") := word_of_all (by decide) (by decide)

theorem readFrom_line {answer : Bytes} (whole : 10 ∉ answer) : readFrom (answer ++ [10]) = answer := by
  have inside : ∀ c ∈ answer, decide (c ≠ 10) = true := fun c member =>
    decide_eq_true fun same => whole (same ▸ member)
  rw [readFrom,List.takeWhile_append_of_pos inside]
  simp

theorem decimal_whole (count : Nat) : 10 ∉ decimal count := fun member =>
  absurd ((digits_decimal count).1 10 member) (by decide)

/-- The counter is reported, unless the line is too long. -/
theorem answerTo_getnonce (keyed : key = [] ∨ Word key) (is_address : Word address) :
    readFrom (answerTo P n key (request key (text "GETNONCE") address ++ [10])).1 =
      if key.length + 10 + address.length < 4096 then decimal (n.chain.ledger.nextNonce address).toNat
      else text "ERROR" := by
  have performed : perform P n (text "GETNONCE") (32 :: address) =
      (.ok (decimal (n.chain.ledger.nextNonce address).toNat),n,[]) := by
    rw [perform,if_neg (by decide),if_pos rfl,extract_last is_address]
    exact if_neg is_address.given
  have size : (request key (text "GETNONCE") address).length = key.length + 10 + address.length := by
    rw [length_request,show (text "GETNONCE").length = 8 from rfl]
    omega
  rw [answerTo_request keyed word_getnonce is_address,performed,size]
  by_cases short : key.length + 10 + address.length < 4096
  · rw [if_pos short,if_pos short]
    exact readFrom_line (decimal_whole _)
  · rw [if_neg short,if_neg short]
    rfl

theorem serialize_ne_nil (tx : Transaction) : tx.serialize ≠ [] :=
  List.ne_nil_of_length_pos (by rw [tx.serialize_length]; omega)

/-- A transaction that is submitted is the one that was signed, in a line that is
    not too long. -/
theorem perform_submittx (short : tx.serialize.length < 2 ^ 32) :
    perform P n (text "SUBMITTX") (32 :: Primitives.toHex tx.serialize) =
      ((n.chain.submitTransaction P tx).1.map fun _ => text "OK",n.submitTransaction P tx) := by
  have is_word := word_toHex (serialize_ne_nil tx)
  have decoded : Transaction.deserialize tx.serialize = some tx :=
    (Transaction.decodes _ _).mpr ⟨Transaction.fits_of_short short,rfl⟩
  rw [perform,if_neg (by decide),if_neg (by decide),if_pos rfl,extract_last is_word]
  dsimp only
  rw [if_neg is_word.given,fromHex_toHex]
  dsimp only
  rw [decoded]

/-- The answer to a submission is an acknowledgement exactly if the line is short
    enough and no exception is raised; the mempool may still refuse. -/
theorem answerTo_submittx (keyed : key = [] ∨ Word key) :
    let answered := answerTo P n key (request key (text "SUBMITTX") (Primitives.toHex tx.serialize) ++ [10])
    (readFrom answered.1 = text "OK" ↔ key.length + 10 + 2 * tx.serialize.length < 4096 ∧ ¬ tx.BadKey P) ∧
      answered.2 = if key.length + 10 + 2 * tx.serialize.length < 4096 then n.submitTransaction P tx else (n,[]) := by
  intro answered
  have size : (request key (text "SUBMITTX") (Primitives.toHex tx.serialize)).length =
      key.length + 10 + 2 * tx.serialize.length := by
    rw [length_request,length_toHex,show (text "SUBMITTX").length = 8 from rfl]
    omega
  have run : answered = _ := answerTo_request keyed word_submittx (word_toHex (serialize_ne_nil tx))
  rw [size] at run
  by_cases short : key.length + 10 + 2 * tx.serialize.length < 4096
  · rw [if_pos short,perform_submittx (by omega)] at run
    rw [if_pos short,← @PeerInput.submitTransaction_returns_iff P n.chain tx]
    rcases submitted : (n.chain.submitTransaction P tx).1 with e | added
    · rw [submitted] at run
      rw [run]
      exact ⟨⟨nofun,fun returns => nomatch returns.2⟩,rfl⟩
    · rw [submitted] at run
      rw [run]
      exact ⟨⟨fun _ => ⟨short,added,rfl⟩,fun _ => readFrom_line (show 10 ∉ text "OK" by decide)⟩,rfl⟩
  · rw [if_neg short] at run
    rw [if_neg short,run]
    exact ⟨⟨nofun,fun fits => absurd fits.1 short⟩,rfl⟩

end

/-! ### What the user is told -/

/-- The transaction that a wallet signs. -/
def payment (wallet : Wallet) (recipient : Bytes) (amount fee nonce : UInt64) : Transaction :=
  let tx : Transaction :=
    { sender := wallet.address,recipient,amount,senderPublicKey := wallet.publicKey,fee,nonce,signature := [] }
  { tx with signature := wallet.sign tx.serializeForSigning }

theorem signed_payment (wallet : Wallet) (recipient : Bytes) (amount fee : UInt64) (answer : Bytes) :
    wallet.signed recipient amount fee (some answer) =
      (parseNumber answer).map fun nonce => payment wallet recipient amount fee (UInt64.ofInt nonce) := by
  simp only [Wallet.signed,Option.bind_eq_bind,Option.bind_some]
  cases parseNumber answer <;> rfl

/-- A `send` with a fee: what is typed, the node when the counter is asked for,
    and the node when the transaction comes. -/
structure Send where
  recipient : Bytes
  amount : UInt64
  fee : UInt64
  asked : RunningNode
  given : RunningNode

namespace Send
variable (P : Primitives) (wallet : Wallet) (config : RpcConfiguration) (send : Send)

def typed : Bytes := 32 :: (send.recipient ++ 32 :: (decimal send.amount.toNat ++ 32 :: decimal send.fee.toNat))

/-- The transaction with the counter that the node reports. -/
def tx : Transaction :=
  payment wallet send.recipient send.amount send.fee (send.asked.chain.ledger.nextNonce wallet.address)

/-- What is typed is a recipient and two numbers of at most 31 bits. -/
structure Plain : Prop where
  recipient : Word send.recipient
  amount : send.amount.toNat < 2 ^ 31
  fee : send.fee.toNat < 2 ^ 31

/-- The line that submits a transaction. -/
def submission (tx : Transaction) : Bytes := request config.rpcApiKey (text "SUBMITTX") (Primitives.toHex tx.serialize)

/-- Both lines get to the node and its answers back to the wallet. -/
structure Served (exchange : Exchange) : Prop where
  nonce : exchange config.address (request config.rpcApiKey (text "GETNONCE") wallet.address) =
    some (readFrom (answerTo P send.asked config.rpcApiKey
      (request config.rpcApiKey (text "GETNONCE") wallet.address ++ [10])).1)
  submit : exchange config.address (submission config (send.tx wallet)) =
    some (readFrom (answerTo P send.given config.rpcApiKey (submission config (send.tx wallet) ++ [10])).1)

end Send

/-- A wallet and a server with the same key, or both without one. -/
structure Paired (wallet : Wallet) (config : RpcConfiguration) : Prop where
  address : Word wallet.address
  key : config.rpcApiKey = [] ∨ Word config.rpcApiKey

section
variable {P : Primitives} {wallet : Wallet} {config : RpcConfiguration} {send : Send} {exchange : Exchange}

/-- The counter has more digits than an `int`, or the line that asks for it is
    too long. -/
def Unasked (wallet : Wallet) (config : RpcConfiguration) (send : Send) : Prop :=
  4096 ≤ config.rpcApiKey.length + 10 + wallet.address.length ∨
    2 ^ 31 ≤ (send.asked.chain.ledger.nextNonce wallet.address).toNat

/-- The line that submits the transaction is short enough. -/
def Short (wallet : Wallet) (config : RpcConfiguration) (send : Send) : Prop :=
  config.rpcApiKey.length + 10 + 2 * (send.tx wallet).serialize.length < 4096

instance : Decidable (Unasked wallet config send) := inferInstanceAs (Decidable (_ ∨ _))

instance : Decidable (Short wallet config send) := inferInstanceAs (Decidable (_ < _))

theorem parseNumber_decimal (count : Nat) :
    parseNumber (decimal count) = if count < 2 ^ 31 then some (count : Int) else none := by
  obtain ⟨digits,given⟩ := digits_decimal count
  rw [parseNumber_digits digits given,decimalValue_decimal]

/-- What the wallet signs once the node has answered about the counter. -/
theorem signed_served (paired : Paired wallet config) (served : send.Served P wallet config exchange) :
    wallet.signed send.recipient send.amount send.fee (wallet.nextNonce exchange config) =
      if Unasked wallet config send then none else some (send.tx wallet) := by
  have line : config.rpcApiKey ++ text " GETNONCE " ++ wallet.address =
      request config.rpcApiKey (text "GETNONCE") wallet.address := by
    rw [request,List.append_assoc]
    rfl
  rw [Wallet.nextNonce,line,served.nonce,signed_payment,answerTo_getnonce paired.key paired.address]
  by_cases asked : config.rpcApiKey.length + 10 + wallet.address.length < 4096
  · rw [if_pos asked,parseNumber_decimal]
    by_cases small : (send.asked.chain.ledger.nextNonce wallet.address).toNat < 2 ^ 31
    · have same : UInt64.ofInt (send.asked.chain.ledger.nextNonce wallet.address).toNat =
          send.asked.chain.ledger.nextNonce wallet.address := UInt64.toNat_inj.mp (toNat_ofInt64 (by omega))
      rw [if_pos small,if_neg (by simp only [Unasked]; omega),Option.map_some,same,Send.tx]
    · rw [if_neg small,if_pos (.inr (Nat.le_of_not_lt small)),Option.map_none]
  · rw [if_neg asked,if_pos (.inl (Nat.le_of_not_lt asked))]
    rfl

theorem send_served (paired : Paired wallet config) (served : send.Served P wallet config exchange) :
    wallet.send exchange send.recipient send.amount send.fee config =
      if Unasked wallet config send then none
      else some (decide (Short wallet config send ∧ ¬ (send.tx wallet).BadKey P)) := by
  have line : config.rpcApiKey ++ text " SUBMITTX " ++ Primitives.toHex (send.tx wallet).serialize =
      Send.submission config (send.tx wallet) := by
    rw [Send.submission,request,List.append_assoc]
    rfl
  rw [Wallet.send,signed_served paired served]
  by_cases unasked : Unasked wallet config send
  · rw [if_pos unasked,if_pos unasked]
    rfl
  · rw [if_neg unasked,if_neg unasked]
    simp only [Option.bind_eq_bind,Option.bind_some,line,served.submit]
    exact congrArg some (decide_eq_decide.mpr (answerTo_submittx paired.key).1)

theorem word_decimal (count : Nat) : Word (decimal count) where
  given := (digits_decimal count).2
  solid c member := by
    have digit := (digits_decimal count).1 c member
    simp only [isDigit,Bool.and_eq_true,decide_eq_true_eq,UInt8.le_iff_toNat_le] at digit
    have other : c ≠ 32 := by
      rintro rfl
      exact absurd digit.1 (by decide)
    have above : ¬ c ≤ 13 := by
      rw [UInt8.le_iff_toNat_le]
      exact fun low => absurd (digit.1.trans low) (by decide)
    simp [isSpace,other,above]

theorem typed_served (plain : send.Plain) :
    handleSendCommand wallet exchange config send.typed =
      match wallet.send exchange send.recipient send.amount send.fee config with
      | none => text "network error"
      | some true => text "sent"
      | some false => text "rejected by node" := by
  have arguments : sendArguments send.recipient (decimal send.amount.toNat) (decimal send.fee.toNat) =
      .ok (send.amount,send.fee) := by
    refine sendArguments_ok.mpr ⟨plain.recipient.given,?_,?_⟩
    · rw [parseNumber_decimal,if_pos plain.amount,Option.map_some]
      exact congrArg some (UInt64.toNat_inj.mp (toNat_ofInt64 send.amount.toNat_lt))
    · rw [if_neg (digits_decimal _).2,parseNumber_decimal,if_pos plain.fee,Option.map_some]
      exact congrArg some (UInt64.toNat_inj.mp (toNat_ofInt64 send.fee.toNat_lt))
  have read := handleSendCommand_words wallet exchange config plain.recipient (word_decimal send.amount.toNat)
    (word_decimal send.fee.toNat)
  rw [arguments] at read
  exact read

end

/-- What the user is told, and what the node does with the line of the
    transaction: one that is not too long is submitted, and acknowledged unless
    the submission raises an exception. -/
theorem payment_reported {P : Primitives} {wallet : Wallet} {config : RpcConfiguration} {send : Send}
    {exchange : Exchange} (paired : Paired wallet config) (plain : send.Plain)
    (served : send.Served P wallet config exchange) :
    handleSendCommand wallet exchange config send.typed =
        (if Unasked wallet config send then text "network error"
        else if Short wallet config send ∧ ¬ (send.tx wallet).BadKey P then text "sent"
        else text "rejected by node") ∧
      (answerTo P send.given config.rpcApiKey (Send.submission config (send.tx wallet) ++ [10])).2 =
        if Short wallet config send then send.given.submitTransaction P (send.tx wallet) else (send.given,[]) := by
  refine ⟨?_,(answerTo_submittx paired.key).2⟩
  rw [typed_served plain,send_served paired served]
  by_cases unasked : Unasked wallet config send
  · rw [if_pos unasked,if_pos unasked]
  · rw [if_neg unasked,if_neg unasked]
    by_cases taken : Short wallet config send ∧ ¬ (send.tx wallet).BadKey P
    · rw [if_pos taken,decide_eq_true taken]
    · rw [if_neg taken,decide_eq_false taken]

/-- Alice's wallet, which signs everything alike, and no key. -/
def alice : Wallet := ⟨Samples.aliceAddress,Samples.aliceKey,fun _ => Samples.pay.signature⟩

/-- A node that nobody has told anything answers every line. -/
def atNewcomer : Exchange := fun _ line => some (readFrom (answerTo Samples.sample .newcomer [] (line ++ [10])).1)

def toBob (amount : UInt64) : Send := ⟨Samples.bob,amount,0,.newcomer,.newcomer⟩

theorem paired_alice (address : PeerAddress) : Paired alice ⟨address,[]⟩ :=
  ⟨word_toHex (by decide),.inl rfl⟩

theorem payment_reported_toBob :
    Paired alice ⟨⟨[],0⟩,[]⟩ ∧ (toBob 50).Plain ∧ (toBob 50).Served Samples.sample alice ⟨⟨[],0⟩,[]⟩ atNewcomer ∧
      handleSendCommand alice atNewcomer ⟨⟨[],0⟩,[]⟩ (toBob 50).typed = text "sent" := by
  have plain : (toBob 50).Plain := ⟨word_of_all (by decide) (by decide),by decide,by decide⟩
  have served : (toBob 50).Served Samples.sample alice ⟨⟨[],0⟩,[]⟩ atNewcomer := ⟨rfl,rfl⟩
  refine ⟨paired_alice _,plain,served,(payment_reported (paired_alice _) plain served).1.trans ?_⟩
  rw [if_neg (by decide),if_pos (by decide +kernel)]

/-! ### Several payments between two blocks -/

/-- Transactions that apply one after the other are all in effect. -/
theorem run_applied {history : Nonces.History} {txs : List Transaction}
    (all : AllAccepted Ledger.applyTransaction history.ledger txs) :
    Runs.run Nonces.History.step history (txs.map .apply) =
      ⟨play Ledger.applyTransaction history.ledger txs,history.inEffect ++ txs⟩ := by
  induction txs generalizing history with
  | nil => simp [play]
  | cons tx txs ih =>
    obtain ⟨accepts,rest⟩ := all
    have stepped : history.step (.apply tx) = ⟨(history.ledger.applyTransaction tx).2,history.inEffect ++ [tx]⟩ := by
      rw [Nonces.History.step]
      rcases applied : history.ledger.applyTransaction tx with ⟨_ | _,ledger⟩
      · cases (congrArg Prod.fst applied).symm.trans accepts
      · rfl
    rw [List.map_cons,Runs.run_cons,stepped,ih rest]
    simp [play]

/-- In a list of transactions that apply in order from the start, one sender has
    one transaction for a nonce. -/
theorem one_for_nonce {txs : List Transaction} (all : AllAccepted Ledger.applyTransaction .empty txs)
    (short : txs.length < 2 ^ 64) (sender : Bytes) (nonce : UInt64) (p : Transaction → Bool)
    (only : ∀ tx, p tx = true → ¬ tx.isCoinbase ∧ tx.sender = sender ∧ tx.nonce = nonce) :
    (txs.filter p).length ≤ 1 := by
  have numbered := @Nonces.History.numbered_run .start (txs.map .apply) Nonces.History.numbered_start
    (by simpa [Nonces.History.start] using short) sender
  rw [run_applied all,Nonces.History.sentBy] at numbered
  -- Those of the sender carry different nonces, and these carry the same.
  have inside : (txs.filter p).Sublist (txs.filter fun tx => ¬ tx.isCoinbase ∧ tx.sender = sender) :=
    List.monotone_filter_right txs fun tx holds => decide_eq_true ⟨(only tx holds).1,(only tx holds).2.1⟩
  have different : ((txs.filter p).map (·.nonce.toNat)).Nodup := by
    refine List.Nodup.sublist (inside.map _) ?_
    exact numbered ▸ List.nodup_range
  have same : (txs.filter p).map (·.nonce.toNat) = List.replicate (txs.filter p).length nonce.toNat := by
    refine List.eq_replicate_iff.mpr ⟨List.length_map _,fun value member => ?_⟩
    obtain ⟨tx,inside,rfl⟩ := List.mem_map.mp member
    rw [(only tx (List.mem_filter.mp inside).2).2.2]
  exact List.nodup_replicate.mp (same ▸ different)

/-- Payments sent while the counter stands are all reported as sent, and a chain
    whose transactions replay has one of them at most. -/
theorem sent_but_once {P : Primitives} {wallet : Wallet} {config : RpcConfiguration} {exchange : Send → Exchange}
    {sends : List Send} {counter : UInt64} (paired : Paired wallet config) (point : P.oct2point wallet.publicKey = true)
    (named : wallet.address ≠ kCoinbaseSender) (few : counter.toNat < 2 ^ 31)
    (stands : ∀ send ∈ sends, send.asked.chain.ledger.nextNonce wallet.address = counter)
    (typed : ∀ send ∈ sends, send.Plain ∧ send.Served P wallet config (exchange send) ∧ Short wallet config send) :
    (∀ send ∈ sends, handleSendCommand wallet (exchange send) config send.typed = text "sent") ∧
      ∀ txs, AllAccepted Ledger.applyTransaction .empty txs → txs.length < 2 ^ 64 →
        (txs.filter fun tx => tx ∈ sends.map (Send.tx wallet)).length ≤ 1 := by
  refine ⟨fun send member => ?_,fun txs all short => one_for_nonce all short wallet.address counter _ fun tx sent => ?_⟩
  · obtain ⟨plain,served,short⟩ := typed send member
    have asked : ¬ Unasked wallet config send := by
      have longer := (send.tx wallet).serialize_length
      rw [show (send.tx wallet).sender = wallet.address from rfl] at longer
      rw [Unasked,stands send member]
      rw [Short] at short
      omega
    have good : ¬ (send.tx wallet).BadKey P := fun bad => by
      have off : P.oct2point wallet.publicKey = false := bad.2.2
      cases point.symm.trans off
    rw [typed_served plain,send_served paired served,if_neg asked,decide_eq_true ⟨short,good⟩]
  · obtain ⟨send,member,rfl⟩ := List.mem_map.mp (of_decide_eq_true sent)
    refine ⟨?_,rfl,stands send member⟩
    exact fun coinbase => named (by simpa [Transaction.isCoinbase,Send.tx,payment] using coinbase)

/-- Two payments of all that Alice will ever have. -/
theorem sent_but_once_twice :
    (∀ send ∈ [toBob 50,toBob 40], handleSendCommand alice atNewcomer ⟨⟨[],0⟩,[]⟩ send.typed = text "sent") ∧
      ∀ txs, AllAccepted Ledger.applyTransaction .empty txs → txs.length < 2 ^ 64 →
        (txs.filter fun tx => tx ∈ [toBob 50,toBob 40].map (Send.tx alice)).length ≤ 1 := by
  refine @sent_but_once Samples.sample alice ⟨⟨[],0⟩,[]⟩ (fun _ => atNewcomer) [toBob 50,toBob 40] 0
    (paired_alice _) (by decide) (by decide) (by decide) ?_ ?_
  · intro send member
    rcases List.mem_pair.mp member with rfl | rfl <;> rfl
  · intro send member
    rcases List.mem_pair.mp member with rfl | rfl
    · exact ⟨⟨word_of_all (by decide) (by decide),by decide,by decide⟩,⟨rfl,rfl⟩,by decide +kernel⟩
    · exact ⟨⟨word_of_all (by decide) (by decide),by decide,by decide⟩,⟨rfl,rfl⟩,by decide +kernel⟩

end ForgeChain.Payments
