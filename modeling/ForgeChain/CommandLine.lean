import ForgeChain.RpcServer
import ForgeChain.Samples

/-!
The numbers that a user types: the amount and the fee of the wallet's `send`
(`src/app/WalletCli.cpp`), the ports of its `connect` and of the node's options
(`src/app/main.cpp`), and the nonce that the wallet gets from a node
(`src/app/Wallet.cpp`). All are read with `parse_number`, which takes an `int` off
the front of the text and leaves the rest, and are then cast. What is used is
what was typed exactly for digits within the range (`numbers_meant_iff`).
-/
namespace ForgeChain.CommandLine

/-! ### Reading a number -/

def isDigit (c : UInt8) : Bool := 48 ≤ c && c ≤ 57

/-- The sign, if there is one, and the text after it. -/
def splitSign : Bytes → Bool × Bytes
  | 45 :: rest => (true,rest)
  | text => (false,text)

/-- `std::from_chars` for an `int`: an optional minus sign and the digits after
    it, unless there are none or the number is out of range. -/
def fromChars (text : Bytes) : Option Int :=
  let (negative,rest) := splitSign text
  let digits := rest.takeWhile isDigit
  let number : Int := if negative then -decimalValue digits else decimalValue digits
  if digits = [] then none
  else if -2 ^ 31 ≤ number ∧ number < 2 ^ 31 then some number
  else none

/-- `parse_number`; what follows the number is not looked at. -/
def parseNumber (text : Bytes) : Option Int := fromChars text

/-! ### The wallet -/

structure RpcConfiguration where
  address : PeerAddress
  rpcApiKey : Bytes

/-- The wallet of a key pair; `sign` is `crypto::sign` with its private key. -/
structure Wallet where
  address : Bytes
  publicKey : Bytes
  sign : Bytes → Bytes

/-- What a node answers to a line, or nothing when there is no connection. -/
abbrev Exchange := PeerAddress → Bytes → Option Bytes

def Wallet.nextNonce (wallet : Wallet) (exchange : Exchange) (config : RpcConfiguration) : Option Bytes :=
  exchange config.address (config.rpcApiKey ++ text " GETNONCE " ++ wallet.address)

/-- The transaction that `Wallet::send` signs, given what the node said about the
    nonce. -/
def Wallet.signed (wallet : Wallet) (recipient : Bytes) (amount fee : UInt64) (nonceStr : Option Bytes) :
    Option Transaction := do
  let nonce ← parseNumber (← nonceStr)
  let tx : Transaction :=
    { sender := wallet.address, recipient, amount, senderPublicKey := wallet.publicKey, fee
      nonce := UInt64.ofInt nonce, signature := [] }
  some { tx with signature := wallet.sign tx.serializeForSigning }

/-- Whether the node took the transaction, if there was one and a node. -/
def Wallet.send (wallet : Wallet) (exchange : Exchange) (recipient : Bytes) (amount fee : UInt64)
    (config : RpcConfiguration) : Option Bool := do
  let tx ← wallet.signed recipient amount fee (wallet.nextNonce exchange config)
  let answer ← exchange config.address (config.rpcApiKey ++ text " SUBMITTX " ++ Primitives.toHex tx.serialize)
  some (answer = text "OK")

/-! ### The commands of the wallet -/

/-- The amount and the fee that `send` goes on with, or what it prints. -/
def sendArguments (recipient amountStr feeStr : Bytes) : Except Bytes (UInt64 × UInt64) :=
  if recipient = [] ∨ amountStr = [] then .error (text "usage: send <address> <amount> (optional) <fee>")
  else
    match parseNumber amountStr with
    | none => .error (text "invalid amount: " ++ amountStr)
    | some amount =>
      if feeStr = [] then .ok (UInt64.ofInt amount,UInt64.ofInt 0)
      else
        match parseNumber feeStr with
        | none => .error (text "invalid fee: " ++ feeStr)
        | some fee => .ok (UInt64.ofInt amount,UInt64.ofInt fee)

/-- `handle_send_command` on the rest of the line: what is printed. -/
def handleSendCommand (wallet : Wallet) (exchange : Exchange) (config : RpcConfiguration) (iss : Bytes) : Bytes :=
  let (recipient,iss) := extract [] iss
  let (amountStr,iss) := extract [] iss
  let (feeStr,_) := extract [] iss
  match sendArguments recipient amountStr feeStr with
  | .error message => message
  | .ok (amount,fee) =>
    match wallet.send exchange recipient amount fee config with
    | none => text "network error"
    | some true => text "sent"
    | some false => text "rejected by node"

/-- The configuration that `connect` goes on with, or what it prints. -/
def connectTarget (config : RpcConfiguration) (host port : Bytes) : Except Bytes RpcConfiguration :=
  if port = [] then .error (text "usage: connect <host> <port>")
  else
    match parseNumber port with
    | none => .error (text "invalid port: " ++ port)
    | some portNumber => .ok { config with address := ⟨host,UInt16.ofInt portNumber⟩ }

/-- `handle_connect_command`; without a host there is no port either. -/
def handleConnectCommand (config : RpcConfiguration) (iss : Bytes) : Bytes × RpcConfiguration :=
  let (host,iss) := extract [] iss
  let (port,_) := extract [] iss
  match connectTarget config host port with
  | .error message => (message,config)
  | .ok config => (text "target set to " ++ config.address.host ++ text ":" ++ decimal config.address.port.toNat,config)

/-! ### The options of the node -/

structure OrchestratorConfig where
  listenPort : UInt16 := 8000
  addresses : List PeerAddress := []
  mine : Bool := false
  rpcPort : UInt16 := 0
  rewardAddress : Bytes := []
  dbPath : Bytes := []
  apiKey : Bytes := []
  fileBootstrapPath : Bytes := []

inductive CliOption where
  | port
  | connect
  | mine
  | bootstrapFile
  | rpcPort
  | rewardAddress
  | rpcApiKey
  | dbPath

def optionOf (view : Bytes) : Option CliOption :=
  if view = text "--port" ∨ view = text "-p" then some .port
  else if view = text "--connect" ∨ view = text "-c" then some .connect
  else if view = text "--mine" ∨ view = text "-m" then some .mine
  else if view = text "--bootstrap-file" ∨ view = text "-b" then some .bootstrapFile
  else if view = text "--rpc-port" ∨ view = text "-R" then some .rpcPort
  else if view = text "--reward-address" ∨ view = text "-r" then some .rewardAddress
  else if view = text "--rpc-api-key" ∨ view = text "-K" then some .rpcApiKey
  else if view = text "--db-path" ∨ view = text "-d" then some .dbPath
  else none

/-- `parse_args` after the name of the program: the configuration, or what is
    thrown. An option whose values are missing is not an option. -/
def parseArgs (config : OrchestratorConfig) : List Bytes → Except Bytes OrchestratorConfig
  | [] => .ok config
  | view :: rest =>
    match optionOf view, rest with
    | some .port, port :: rest =>
      match parseNumber port with
      | none => .error (text "invalid port")
      | some port => parseArgs { config with listenPort := UInt16.ofInt port } rest
    | some .connect, host :: port :: rest =>
      match parseNumber port with
      | none => .error (text "invalid connect port")
      | some port => parseArgs { config with addresses := config.addresses ++ [⟨host,UInt16.ofInt port⟩] } rest
    | some .mine, rest => parseArgs { config with mine := true } rest
    | some .bootstrapFile, path :: rest =>
      parseArgs { config with fileBootstrapPath := if path = [] then config.fileBootstrapPath else path } rest
    | some .rpcPort, port :: rest =>
      match parseNumber port with
      | none => .error (text "invalid rpc port")
      | some port => parseArgs { config with rpcPort := UInt16.ofInt port } rest
    | some .rewardAddress, address :: rest =>
      parseArgs { config with rewardAddress := if address = [] then config.rewardAddress else address } rest
    | some .rpcApiKey, key :: rest => parseArgs { config with apiKey := if key = [] then config.apiKey else key } rest
    | some .dbPath, path :: rest => parseArgs { config with dbPath := if path = [] then config.dbPath else path } rest
    | _, _ => .error (text "invalid command argument")

/-! ### From a line to its tokens -/

/-- A token as a stream gives it: not empty and without blanks. -/
structure Word (word : Bytes) : Prop where
  given : word ≠ []
  solid : ∀ c ∈ word, isSpace c = false

section
variable {word tail : Bytes}

theorem extract_word (is_word : Word word) (ends : ∀ c ∈ tail.head?, isSpace c = true) :
    extract [] (32 :: (word ++ tail)) = (word,tail) := by
  obtain ⟨c,rest,rfl⟩ := List.exists_cons_of_ne_nil is_word.given
  have first : isSpace c = false := is_word.solid c (by simp)
  have solid : ∀ c' ∈ c :: rest, (!isSpace c') = true := fun c' member => by simp [is_word.solid c' member]
  have blank : isSpace 32 = true := by decide
  have front : (32 :: (c :: rest ++ tail)).dropWhile isSpace = c :: (rest ++ tail) := by simp [blank,first]
  rw [extract,front]
  show ((c :: rest ++ tail).takeWhile _,(c :: rest ++ tail).dropWhile _) = _
  rw [List.takeWhile_append_of_pos solid,List.dropWhile_append_of_pos solid]
  cases tail with
  | nil => simp
  | cons space more => simp [ends space (by simp)]

theorem extract_last (is_word : Word word) : extract [] (32 :: word) = (word,[]) := by
  have taken := @extract_word word [] is_word (by simp)
  rwa [List.append_nil] at taken

/-- A line with three tokens. -/
theorem handleSendCommand_words (wallet : Wallet) (exchange : Exchange) (config : RpcConfiguration)
    {recipient amountStr feeStr : Bytes} (first : Word recipient) (second : Word amountStr) (third : Word feeStr) :
    handleSendCommand wallet exchange config (32 :: (recipient ++ 32 :: (amountStr ++ 32 :: feeStr))) =
      match sendArguments recipient amountStr feeStr with
      | .error message => message
      | .ok (amount,fee) =>
        match wallet.send exchange recipient amount fee config with
        | none => text "network error"
        | some true => text "sent"
        | some false => text "rejected by node" := by
  rw [handleSendCommand,extract_word first (by simp [isSpace])]
  dsimp only
  rw [extract_word second (by simp [isSpace])]
  dsimp only
  rw [extract_last third]

theorem handleConnectCommand_words (config : RpcConfiguration) {host port : Bytes} (first : Word host)
    (second : Word port) :
    (handleConnectCommand config (32 :: (host ++ 32 :: port))).2 =
      (connectTarget config host port).toOption.getD config := by
  rw [handleConnectCommand,extract_word first (by simp [isSpace])]
  dsimp only
  rw [extract_last second]
  cases connectTarget config host port <;> rfl

end

/-! ### What the numbers mean -/

/-- A token of decimal digits only. -/
abbrev Digits (token : Bytes) : Prop := ∀ c ∈ token, isDigit c = true

section
variable {token : Bytes}

/-- Digits are read as the number they stand for, if it fits. -/
theorem parseNumber_digits (digits : Digits token) (given : token ≠ []) :
    parseNumber token = if decimalValue token < 2 ^ 31 then some (decimalValue token : Int) else none := by
  have unsigned : splitSign token = (false,token) := by
    cases token with
    | nil => rfl
    | cons c rest =>
      have digit := digits c (by simp)
      rw [splitSign]
      rintro rest' ⟨⟩
      exact absurd digit (by decide)
  have all : token.takeWhile isDigit = token := List.takeWhile_eq_self_iff.mpr digits
  simp only [parseNumber,fromChars,unsigned,all,given,if_false,Bool.false_eq_true]
  refine if_congr ?_ rfl rfl
  omega

theorem digits_decimal (n : Nat) : Digits (decimal n) ∧ decimal n ≠ [] := by
  refine ⟨fun c member => ?_,?_⟩
  · obtain ⟨low,high⟩ := decimal_digit member
    simp [isDigit,low,high]
  · rw [decimal,ne_eq,List.map_eq_nil_iff]
    exact Nat.toDigits_ne_nil

theorem toNat_ofInt64 {n : Nat} (fits : n < 2 ^ 64) : (UInt64.ofInt n).toNat = n := by
  rw [UInt64.ofInt,UInt64.toNat_ofNat']
  omega

theorem toNat_ofInt16 {n : Nat} (fits : n < 2 ^ 16) : (UInt16.ofInt n).toNat = n := by
  rw [UInt16.ofInt,UInt16.toNat_ofNat']
  omega

/-- Digits that are read at all are read as what they stand for. -/
theorem parsed_digits {number : Int} (digits : Digits token) (read : parseNumber token = some number) :
    number = decimalValue token ∧ decimalValue token < 2 ^ 31 := by
  have given : token ≠ [] := by
    rintro rfl
    cases read
  rw [parseNumber_digits digits given] at read
  split at read
  · case isTrue fits => exact ⟨(Option.some.inj read).symm,fits⟩
  · cases read

/-- A port that is used is the number that was typed, exactly for digits within
    the range of ports, or for what is refused. -/
theorem port_meant_iff :
    (∀ port, (parseNumber token).map UInt16.ofInt = some port →
      Digits token ∧ decimalValue token ≤ 65535 ∧ port.toNat = decimalValue token) ↔
    parseNumber token = none ∨ Digits token ∧ decimalValue token ≤ 65535 := by
  rcases read : parseNumber token with _ | number
  · simp
  · simp only [Option.map_some,Option.some.injEq,forall_eq',reduceCtorEq,false_or]
    constructor
    · rintro ⟨digits,inside,-⟩
      exact ⟨digits,inside⟩
    · rintro ⟨digits,inside⟩
      obtain ⟨rfl,-⟩ := parsed_digits digits read
      exact ⟨digits,inside,toNat_ofInt16 (by omega)⟩

theorem connectTarget_eq (config : RpcConfiguration) (host : Bytes) :
    (connectTarget config host token).toOption.map (·.address.port) = (parseNumber token).map UInt16.ofInt := by
  rw [connectTarget]
  split
  · case isTrue missing => rw [missing]; rfl
  · split
    · case h_1 unread => rw [unread]; rfl
    · case h_2 number read => rw [read]; rfl

theorem parseArgs_port (config : OrchestratorConfig) :
    (parseArgs config [text "--port",token]).toOption.map OrchestratorConfig.listenPort =
      (parseNumber token).map UInt16.ofInt := by
  rw [parseArgs]
  · cases parseNumber token with
    | none => rfl
    | some number => rfl
  · exact if_pos (.inl rfl)

/-- What `send` goes on with. -/
theorem sendArguments_ok {recipient amountStr feeStr : Bytes} {amount fee : UInt64} :
    sendArguments recipient amountStr feeStr = .ok (amount,fee) ↔
      recipient ≠ [] ∧ (parseNumber amountStr).map UInt64.ofInt = some amount ∧
        if feeStr = [] then fee = 0 else (parseNumber feeStr).map UInt64.ofInt = some fee := by
  by_cases unnamed : recipient = []
  · simp [sendArguments,unnamed]
  by_cases blank : amountStr = []
  · subst blank
    simp [sendArguments,show parseNumber [] = none from rfl]
  rcases read : parseNumber amountStr with _ | number
  · simp [sendArguments,unnamed,blank,read]
  by_cases free : feeStr = []
  · simp [sendArguments,unnamed,blank,read,free,show UInt64.ofInt 0 = 0 from rfl,eq_comm]
  rcases charged : parseNumber feeStr with _ | paid
  · simp [sendArguments,unnamed,blank,read,free,charged]
  · simp [sendArguments,unnamed,blank,read,free,charged]

/-- What is signed for the arguments, where the nonce can be read. -/
theorem signed_eq (wallet : Wallet) (recipient : Bytes) (amount fee : UInt64) {nonceStr : Bytes} {nonce : Int}
    (read : parseNumber nonceStr = some nonce) :
    ∃ tx, wallet.signed recipient amount fee (some nonceStr) = some tx ∧ tx.amount = amount ∧ tx.fee = fee ∧
      tx.nonce = UInt64.ofInt nonce := by
  simp [Wallet.signed,read]

theorem signed_some {wallet : Wallet} {recipient : Bytes} {amount fee : UInt64} {nonceStr : Option Bytes}
    {tx : Transaction} (signed : wallet.signed recipient amount fee nonceStr = some tx) :
    tx.amount = amount ∧ tx.fee = fee := by
  simp only [Wallet.signed,Option.bind_eq_bind,Option.bind_eq_some_iff,Option.some.injEq] at signed
  obtain ⟨_,-,_,-,rfl⟩ := signed
  exact ⟨rfl,rfl⟩

/-- An amount that is cast to 64 bits. -/
theorem amount_meant {amount : UInt64} (digits : Digits token)
    (cast : (parseNumber token).map UInt64.ofInt = some amount) : amount.toNat = decimalValue token := by
  obtain ⟨number,read,rfl⟩ := Option.map_eq_some_iff.mp cast
  obtain ⟨rfl,fits⟩ := parsed_digits digits read
  exact toNat_ofInt64 (by omega)

/-- The command is refused: a token is missing or has no number at its front. -/
theorem refused_iff {recipient amountStr feeStr : Bytes} :
    (∃ message, sendArguments recipient amountStr feeStr = .error message) ↔
      recipient = [] ∨ parseNumber amountStr = none ∨ feeStr ≠ [] ∧ parseNumber feeStr = none := by
  have refused : (∃ message, sendArguments recipient amountStr feeStr = .error message) ↔
      ¬∃ amount fee, sendArguments recipient amountStr feeStr = .ok (amount,fee) := by
    rcases sendArguments recipient amountStr feeStr with message | ⟨amount,fee⟩ <;> simp
  rw [refused]
  simp only [sendArguments_ok,exists_and_left]
  by_cases free : feeStr = []
  · cases parseNumber amountStr <;> simp [free]
  · cases parseNumber amountStr <;> cases parseNumber feeStr <;> simp [free]

/-- A wallet whose signatures are empty. -/
def unsigning : Wallet := ⟨[],[],fun _ => []⟩

/-- A command that is not refused signs the amounts that were typed, exactly for
    tokens of digits. -/
theorem send_meant_iff (recipient amountStr feeStr : Bytes) :
    (∀ (wallet : Wallet) nonceStr amount fee tx, sendArguments recipient amountStr feeStr = .ok (amount,fee) →
      wallet.signed recipient amount fee nonceStr = some tx →
      Digits amountStr ∧ Digits feeStr ∧ tx.amount.toNat = decimalValue amountStr ∧
        tx.fee.toNat = decimalValue feeStr) ↔
    (recipient = [] ∨ parseNumber amountStr = none ∨ feeStr ≠ [] ∧ parseNumber feeStr = none) ∨
      Digits amountStr ∧ Digits feeStr := by
  rw [← refused_iff]
  constructor
  · intro meant
    rcases given : sendArguments recipient amountStr feeStr with message | ⟨amount,fee⟩
    · exact .inl ⟨message,rfl⟩
    · obtain ⟨tx,signed,-⟩ := signed_eq unsigning recipient amount fee (show parseNumber (text "0") = some 0 by decide)
      obtain ⟨first,second,-⟩ := meant unsigning _ amount fee tx given signed
      exact .inr ⟨first,second⟩
  · rintro (⟨message,refused⟩ | ⟨first,second⟩) wallet nonceStr amount fee tx given signed
    · cases refused.symm.trans given
    · obtain ⟨-,amount_read,fee_read⟩ := sendArguments_ok.mp given
      obtain ⟨rfl,rfl⟩ := signed_some signed
      refine ⟨first,second,amount_meant first amount_read,?_⟩
      split at fee_read
      · case isTrue free => rw [fee_read,free]; rfl
      · exact amount_meant second fee_read

/-- A counter of a node is signed as it is, exactly below `2 ^ 31`. -/
theorem nonce_meant_iff (wallet : Wallet) (recipient : Bytes) (amount fee n : UInt64) :
    (∃ tx, wallet.signed recipient amount fee (some (decimal n.toNat)) = some tx ∧ tx.nonce = n) ↔
      n.toNat < 2 ^ 31 := by
  obtain ⟨digits,given⟩ := digits_decimal n.toNat
  have read := parseNumber_digits digits given
  rw [decimalValue_decimal] at read
  constructor
  · rintro ⟨tx,signed,-⟩
    by_contra large
    rw [if_neg large] at read
    simp [Wallet.signed,read] at signed
  · intro fits
    rw [if_pos fits] at read
    obtain ⟨tx,signed,-,-,nonce⟩ := signed_eq wallet recipient amount fee read
    exact ⟨tx,signed,nonce.trans (UInt64.toNat_inj.mp (toNat_ofInt64 (by omega)))⟩

end

/-- What is used is what was typed or reported: by `send`, exactly if it is
    refused or both tokens are digits; by `connect` and `--port`, exactly if the
    port is refused or is digits for at most 65535; for the nonce of a node,
    exactly if it is below `2 ^ 31`. -/
theorem numbers_meant_iff (recipient amountStr feeStr host port : Bytes) (rpc : RpcConfiguration)
    (config : OrchestratorConfig) (wallet : Wallet) (amount fee n : UInt64) :
    ((∀ (wallet : Wallet) nonceStr amount fee tx, sendArguments recipient amountStr feeStr = .ok (amount,fee) →
        wallet.signed recipient amount fee nonceStr = some tx →
        Digits amountStr ∧ Digits feeStr ∧ tx.amount.toNat = decimalValue amountStr ∧
          tx.fee.toNat = decimalValue feeStr) ↔
      (recipient = [] ∨ parseNumber amountStr = none ∨ feeStr ≠ [] ∧ parseNumber feeStr = none) ∨
        Digits amountStr ∧ Digits feeStr) ∧
    ((∀ rpc', connectTarget rpc host port = .ok rpc' →
        Digits port ∧ decimalValue port ≤ 65535 ∧ rpc'.address.port.toNat = decimalValue port) ↔
      parseNumber port = none ∨ Digits port ∧ decimalValue port ≤ 65535) ∧
    ((∀ config', parseArgs config [text "--port",port] = .ok config' →
        Digits port ∧ decimalValue port ≤ 65535 ∧ config'.listenPort.toNat = decimalValue port) ↔
      parseNumber port = none ∨ Digits port ∧ decimalValue port ≤ 65535) ∧
    ((∃ tx, wallet.signed recipient amount fee (some (decimal n.toNat)) = some tx ∧ tx.nonce = n) ↔
      n.toNat < 2 ^ 31) := by
  refine ⟨send_meant_iff recipient amountStr feeStr,?_,?_,nonce_meant_iff wallet recipient amount fee n⟩
  · rw [← port_meant_iff,← connectTarget_eq rpc host]
    cases connectTarget rpc host port <;> simp [Except.toOption]
  · rw [← port_meant_iff,← parseArgs_port config]
    cases parseArgs config [text "--port",port] <;> simp [Except.toOption]

/-- A minus sign makes the amount huge and letters after the fee are dropped; so
    are letters after a port, and a port above the range is cut. A nonce that is
    no `int` is not signed at all. -/
theorem numbers_misread :
    sendArguments (text "bob") (text "-1") (text "2x") = .ok (18446744073709551615,2) ∧
      (unsigning.signed (text "bob") 18446744073709551615 2 (some (text "0"))).map Transaction.amount =
        some 18446744073709551615 ∧
      (connectTarget ⟨⟨[],0⟩,[]⟩ (text "10.0.0.1") (text "70000")).toOption.map (·.address.port) = some 4464 ∧
      (parseArgs {} [text "--port",text "80y"]).toOption.map OrchestratorConfig.listenPort = some 80 ∧
      unsigning.signed (text "bob") 1 0 (some (decimal (2 ^ 31))) = none := by
  decide +kernel

end ForgeChain.CommandLine
