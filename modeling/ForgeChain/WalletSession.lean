import ForgeChain.Payments

/-!
The wallet as a program: its key file (`src/app/Wallet.cpp`), its options
(`src/app/wallet_main.cpp`) and the loop over the lines that a user types
(`src/app/WalletCli.cpp`). Keys that were written are found again at every later
start (`keys_kept`), options count in any order and the last of a kind wins
(`parseOptions_given`), and a session asks nobody but the node that it is set to,
with the key that it is set to (`session_confined`).
-/
namespace ForgeChain.WalletSession
open CommandLine Payments Runs

/-! ### The key file -/

structure KeyPair where
  publicKey : Bytes
  privateKey : Bytes
  deriving DecidableEq

/-- The file that `save_to_file` writes. -/
def saveToFile (keys : KeyPair) : Bytes :=
  Primitives.toHex keys.privateKey ++ [10] ++ Primitives.toHex keys.publicKey ++ [10]

def loadFromFile (file : Bytes) : Option KeyPair :=
  let (buffer,file) := extract [] file
  if buffer = [] then none
  else
    match Primitives.fromHex buffer with
    | none => none
    | some privateKey =>
      let (buffer,_) := extract [] file
      if buffer = [] then none
      else (Primitives.fromHex buffer).map fun publicKey => ⟨publicKey,privateKey⟩

/-- A start of the wallet: whether the key file could be created, and the keys
    that would be generated. -/
structure Start where
  creatable : Bool
  generated : KeyPair

/-- The constructor of `Wallet` on the key file, if there is one that can be read:
    the keys, or what is thrown, and the file afterwards. -/
def openWallet (path : Bytes) (file : Option Bytes) (start : Start) : Except Bytes KeyPair × Option Bytes :=
  match file with
  | some file =>
    match loadFromFile file with
    | none => (.error (text "malformed keyfile: " ++ path),some file)
    | some keys => (.ok keys,some file)
  | none =>
    if start.creatable then (.ok start.generated,some (saveToFile start.generated))
    else (.error (text "failed to create keyfile: " ++ path),none)

section
variable {keys : KeyPair}

/-- A part of the file is read as a word, and what follows it is left. -/
theorem extract_hex {blanks data rest : Bytes} (only : ∀ c ∈ blanks, isSpace c = true) (given : data ≠ []) :
    extract [] (blanks ++ Primitives.toHex data ++ 10 :: rest) = (Primitives.toHex data,10 :: rest) :=
  extract_front only (word_toHex given) (by simp [isSpace])

/-- The keys are read back. -/
theorem loadFromFile_saveToFile (kept : keys.privateKey ≠ []) (known : keys.publicKey ≠ []) :
    loadFromFile (saveToFile keys) = some keys := by
  have newline : ∀ c ∈ [(10 : UInt8)], isSpace c = true := by simp [isSpace]
  have first : extract [] (saveToFile keys) =
      (Primitives.toHex keys.privateKey,10 :: (Primitives.toHex keys.publicKey ++ [10])) := by
    have read := @extract_hex [] keys.privateKey (Primitives.toHex keys.publicKey ++ [10]) (by simp) kept
    simpa [saveToFile] using read
  have second : extract [] (10 :: (Primitives.toHex keys.publicKey ++ [10])) =
      (Primitives.toHex keys.publicKey,[10]) := by
    simpa using @extract_hex [10] keys.publicKey [] newline known
  rw [loadFromFile,first]
  dsimp only
  rw [if_neg (word_toHex kept).given,fromHex_toHex]
  dsimp only
  rw [second]
  dsimp only
  rw [if_neg (word_toHex known).given,fromHex_toHex,Option.map_some]

end

/-- What the starts of the wallet come to, one after the other. -/
def starts (path : Bytes) : Option Bytes → List Start → List (Except Bytes KeyPair)
  | _, [] => []
  | file, start :: later =>
    let (result,file) := openWallet path file start
    result :: starts path file later

/-- Keys that were generated are the keys of every later start. -/
theorem keys_kept (path : Bytes) {first : Start} (creatable : first.creatable = true)
    (kept : first.generated.privateKey ≠ []) (known : first.generated.publicKey ≠ []) (later : List Start) :
    starts path none (first :: later) = List.replicate (later.length + 1) (.ok first.generated) := by
  have created : openWallet path none first = (.ok first.generated,some (saveToFile first.generated)) := if_pos creatable
  have again : ∀ start, openWallet path (some (saveToFile first.generated)) start =
      (.ok first.generated,some (saveToFile first.generated)) := fun start => by
    rw [openWallet,loadFromFile_saveToFile kept known]
  have rest : starts path (some (saveToFile first.generated)) later =
      List.replicate later.length (.ok first.generated) := by
    induction later with
    | nil => rfl
    | cons start later ih =>
      rw [starts,again,List.length_cons,List.replicate_succ]
      exact congrArg _ ih
  rw [starts,created,List.replicate_succ]
  exact congrArg _ rest

theorem keys_kept_twice :
    starts [] none [⟨true,⟨[4],[1]⟩⟩,⟨false,⟨[4,5],[2]⟩⟩] = [.ok ⟨[4],[1]⟩,.ok ⟨[4],[1]⟩] :=
  @keys_kept [] ⟨true,⟨[4],[1]⟩⟩ rfl (by decide) (by decide) [⟨false,⟨[4,5],[2]⟩⟩]

/-! ### The options -/

structure Config where
  rpcConfig : RpcConfiguration
  keyfilePath : Bytes

inductive WalletOption where
  | connect
  | keyfile
  | rpcApiKey

def walletOption (view : Bytes) : Option WalletOption :=
  if view = text "--connect" ∨ view = text "-c" then some .connect
  else if view = text "--keyfile" ∨ view = text "-k" then some .keyfile
  else if view = text "--rpc-api-key" ∨ view = text "-K" then some .rpcApiKey
  else none

/-- The loop of `parse_args`; what is no option, or lacks its values, is passed
    over. -/
def parseOptions (config : Config) : List Bytes → Except Bytes Config
  | [] => .ok config
  | view :: rest =>
    match walletOption view, rest with
    | some .connect, host :: port :: rest =>
      match parseNumber port with
      | none => .error (text "invalid connect port")
      | some port =>
        parseOptions { config with rpcConfig := { config.rpcConfig with address := ⟨host,UInt16.ofInt port⟩ } } rest
    | some .keyfile, path :: rest =>
      if path = [] then .error (text "invalid path to keys") else parseOptions { config with keyfilePath := path } rest
    | some .rpcApiKey, key :: rest =>
      if key = [] then .error (text "empty api key")
      else parseOptions { config with rpcConfig := { config.rpcConfig with rpcApiKey := key } } rest
    | _, rest => parseOptions config rest

/-- `parse_args` after the name of the program. The port has no initial value in
    the source, and is whatever is there. -/
def parseArgs (port : UInt16) (args : List Bytes) : Except Bytes Config :=
  match parseOptions ⟨⟨⟨[],port⟩,[]⟩,[]⟩ args with
  | .error message => .error message
  | .ok config => if config.keyfilePath = [] then .error (text "missing required --keyfile <path>") else .ok config

/-- An option with its values, as a user means it. -/
inductive Given where
  | connect (address : PeerAddress)
  | keyfile (path : Bytes)
  | rpcApiKey (key : Bytes)

namespace Given

def args : Given → List Bytes
  | .connect address => [text "--connect",address.host,decimal address.port.toNat]
  | .keyfile path => [text "--keyfile",path]
  | .rpcApiKey key => [text "--rpc-api-key",key]

def Filled : Given → Prop
  | .connect _ => True
  | .keyfile path => path ≠ []
  | .rpcApiKey key => key ≠ []

def newAddress : Given → Option PeerAddress
  | .connect address => some address
  | _ => none

def newPath : Given → Option Bytes
  | .keyfile path => some path
  | _ => none

def newKey : Given → Option Bytes
  | .rpcApiKey key => some key
  | _ => none

end Given

section
variable {α β : Type}

/-- The last of the values that are set, or the first one of all. -/
def lastOf (f : α → Option β) (items : List α) (first : β) : β := (items.filterMap f).getLast?.getD first

theorem lastOf_cons (f : α → Option β) (item : α) (items : List α) (first : β) :
    lastOf f (item :: items) first = lastOf f items ((f item).getD first) := by
  rw [lastOf,lastOf,List.filterMap_cons]
  cases f item with
  | none => rfl
  | some value => rw [List.getLast?_cons,Option.getD_some,Option.getD_some]

end

theorem parseOptions_given {given : List Given} (filled : ∀ option ∈ given, option.Filled) (config : Config) :
    parseOptions config (given.flatMap Given.args) =
      .ok ⟨⟨lastOf Given.newAddress given config.rpcConfig.address,lastOf Given.newKey given config.rpcConfig.rpcApiKey⟩,
        lastOf Given.newPath given config.keyfilePath⟩ := by
  induction given generalizing config with
  | nil => rfl
  | cons option given ih =>
    obtain ⟨first,rest⟩ := List.forall_mem_cons.mp filled
    rw [List.flatMap_cons,lastOf_cons,lastOf_cons,lastOf_cons]
    cases option with
    | connect address =>
      have port : parseNumber (decimal address.port.toNat) = some (address.port.toNat : Int) := by
        rw [parseNumber_decimal,if_pos (address.port.toNat_lt.trans (by decide))]
      have same : UInt16.ofInt address.port.toNat = address.port :=
        UInt16.toNat_inj.mp (toNat_ofInt16 address.port.toNat_lt)
      simp only [Given.args,List.cons_append,List.nil_append,parseOptions,
        show walletOption (text "--connect") = some .connect from rfl,port]
      rw [ih rest,same]
      rfl
    | keyfile path =>
      simp only [Given.args,List.cons_append,List.nil_append,parseOptions,
        show walletOption (text "--keyfile") = some .keyfile from rfl]
      rw [if_neg first,ih rest]
      rfl
    | rpcApiKey key =>
      simp only [Given.args,List.cons_append,List.nil_append,parseOptions,
        show walletOption (text "--rpc-api-key") = some .rpcApiKey from rfl]
      rw [if_neg first,ih rest]
      rfl

/-! ### The commands -/

section
variable (wallet : Wallet) (exchange : Exchange) (config : RpcConfiguration)

def balance : Option Bytes := exchange config.address (config.rpcApiKey ++ text " GETBALANCE " ++ wallet.address)

def height : Option Bytes := exchange config.address (config.rpcApiKey ++ text " HEIGHT")

def peers : Option Bytes := exchange config.address (config.rpcApiKey ++ text " PEERS")

/-- An answer is printed as it is. -/
def told (answer : Option Bytes) : Bytes := answer.getD (text "network error")

def helpLines : List Bytes :=
  [text "commands:",
    text "  send <address> <amount> [fee]  sign and submit a transaction",
    text "  balance                  show this wallet's balance",
    text "  height                   show connected node's chain height",
    text "  peers                    show connected node's peer count",
    text "  connect <host> <port>    change which node's RPC port to talk to",
    text "  set rpc-api-key <value>  set the RPC auth token to send with requests",
    text "  help                     show this message",
    text "  quit / exit              exit the wallet"]

/-- `handle_set_command`: what is printed and the configuration after it. -/
def handleSetCommand (iss : Bytes) : Bytes × RpcConfiguration :=
  let (subcommand,iss) := extract [] iss
  if subcommand = [] then (text "usage: set rpc-api-key <value>",config)
  else if subcommand = text "rpc-api-key" then
    let (apiKey,_) := extract [] iss
    if apiKey = [] then (text "usage: set rpc-api-key <value>",config)
    else (text "RPC API key set",{ config with rpcApiKey := apiKey })
  else (text "unknown set target: " ++ subcommand,config)

/-- The command of a line, but for the ends of the loop: the lines that are
    printed and the configuration after it. -/
def handle (command iss : Bytes) : List Bytes × RpcConfiguration :=
  if command = text "help" then (helpLines,config)
  else if command = text "connect" then
    let (printed,config) := handleConnectCommand config iss
    ([printed],config)
  else if command = text "set" then
    let (printed,config) := handleSetCommand config iss
    ([printed],config)
  else if command = text "balance" then ([told (balance wallet exchange config)],config)
  else if command = text "send" then ([handleSendCommand wallet exchange config iss],config)
  else if command = text "peers" then ([told (peers exchange config)],config)
  else if command = text "height" then ([told (height exchange config)],config)
  else ([text "unknown command: " ++ command],config)

end

/-! ### The loop -/

structure Cli where
  config : RpcConfiguration
  printed : List Bytes
  finished : Bool

namespace Cli

/-- At the start of the loop the address has been printed. -/
def start (wallet : Wallet) (config : RpcConfiguration) : Cli :=
  ⟨config,[text "Wallet address: " ++ wallet.address],false⟩

/-- One turn of `run` with a line, and what nodes answer meanwhile. -/
def step (wallet : Wallet) (cli : Cli) (entry : Bytes × Exchange) : Cli :=
  if cli.finished then cli
  else
    let (command,iss) := extract [] entry.1
    if command = [] then cli
    else if command = text "exit" ∨ command = text "quit" then { cli with finished := true }
    else
      let (printed,config) := handle wallet entry.2 cli.config command iss
      { cli with config,printed := cli.printed ++ printed }

end Cli

/-- The line ends the loop. -/
def Ends (buffer : Bytes) : Prop := firstWord buffer = text "exit" ∨ firstWord buffer = text "quit"

instance (buffer : Bytes) : Decidable (Ends buffer) := inferInstanceAs (Decidable (_ ∨ _))

/-- The address that a line sets. -/
def targetOf (buffer : Bytes) : Option PeerAddress :=
  let (command,iss) := extract [] buffer
  let (host,iss) := extract [] iss
  let (port,_) := extract [] iss
  if command = text "connect" ∧ port ≠ [] then (parseNumber port).map fun number => ⟨host,UInt16.ofInt number⟩ else none

/-- The key that a line sets. -/
def keyOf (buffer : Bytes) : Option Bytes :=
  let (command,iss) := extract [] buffer
  let (subcommand,iss) := extract [] iss
  let (apiKey,_) := extract [] iss
  if command = text "set" ∧ subcommand = text "rpc-api-key" ∧ apiKey ≠ [] then some apiKey else none

section
variable {wallet : Wallet} {exchange exchange' : Exchange} {config : RpcConfiguration}

theorem handleConnectCommand_config (buffer : Bytes) (connects : firstWord buffer = text "connect") :
    (handleConnectCommand config (extract [] buffer).2).2 =
      ⟨(targetOf buffer).getD config.address,config.rpcApiKey⟩ := by
  rw [firstWord] at connects
  simp only [handleConnectCommand,connectTarget,targetOf,connects,true_and]
  by_cases missing : (extract [] (extract [] (extract [] buffer).2).2).1 = []
  · simp [missing]
  · cases parseNumber (extract [] (extract [] (extract [] buffer).2).2).1 <;> simp [missing]

theorem handleSetCommand_config (buffer : Bytes) (sets : firstWord buffer = text "set") :
    (handleSetCommand config (extract [] buffer).2).2 = ⟨config.address,(keyOf buffer).getD config.rpcApiKey⟩ := by
  rw [firstWord] at sets
  simp only [handleSetCommand,keyOf,sets,true_and]
  have given : text "rpc-api-key" ≠ [] := by decide
  by_cases named : (extract [] (extract [] buffer).2).1 = text "rpc-api-key"
  · by_cases missing : (extract [] (extract [] (extract [] buffer).2).2).1 = []
    · simp [named,given,missing]
    · simp [named,given,missing]
  · by_cases blank : (extract [] (extract [] buffer).2).1 = []
    · simp [blank,given.symm]
    · simp [named,blank]

/-- A line sets the address or the key, or neither. -/
theorem handle_config (buffer : Bytes) :
    (handle wallet exchange config (extract [] buffer).1 (extract [] buffer).2).2 =
      ⟨(targetOf buffer).getD config.address,(keyOf buffer).getD config.rpcApiKey⟩ := by
  by_cases connects : firstWord buffer = text "connect"
  · have key : keyOf buffer = none := by
      rw [firstWord] at connects
      simp only [keyOf,connects]
      exact if_neg fun sets => absurd sets.1 (by decide)
    rw [key,Option.getD_none,← handleConnectCommand_config buffer connects,handle]
    rw [firstWord] at connects
    rw [connects,if_neg (by decide),if_pos rfl]
  have target : targetOf buffer = none := by
    rw [firstWord] at connects
    simp only [targetOf,connects,false_and,if_false]
  by_cases sets : firstWord buffer = text "set"
  · rw [target,Option.getD_none,← handleSetCommand_config buffer sets,handle]
    rw [firstWord] at sets
    rw [sets,if_neg (by decide),if_neg (by decide),if_pos rfl]
  · have key : keyOf buffer = none := by
      rw [firstWord] at sets
      simp only [keyOf,sets,false_and,if_false]
    rw [target,key,Option.getD_none,Option.getD_none,handle]
    rw [firstWord] at connects sets
    rw [if_neg connects,if_neg sets]
    split_ifs <;> rfl

/-- Two nodes that answer alike behind a key. -/
def SameBehind (config : RpcConfiguration) (exchange exchange' : Exchange) : Prop :=
  ∀ rest, exchange config.address (config.rpcApiKey ++ 32 :: rest) =
    exchange' config.address (config.rpcApiKey ++ 32 :: rest)

/-- A line asks the configured node only, behind the configured key. -/
theorem handle_same (same : SameBehind config exchange exchange') (command iss : Bytes) :
    handle wallet exchange config command iss = handle wallet exchange' config command iss := by
  have behind : ∀ line, (∃ rest, line = 32 :: rest) →
      exchange config.address (config.rpcApiKey ++ line) = exchange' config.address (config.rpcApiKey ++ line) := by
    rintro _ ⟨rest,rfl⟩
    exact same rest
  have nonce : wallet.nextNonce exchange config = wallet.nextNonce exchange' config := by
    rw [Wallet.nextNonce,Wallet.nextNonce,List.append_assoc]
    exact behind _ ⟨_,rfl⟩
  have submit : ∀ hex, exchange config.address (config.rpcApiKey ++ text " SUBMITTX " ++ hex) =
      exchange' config.address (config.rpcApiKey ++ text " SUBMITTX " ++ hex) := fun hex => by
    rw [List.append_assoc]
    exact behind _ ⟨_,rfl⟩
  have balance_same : balance wallet exchange config = balance wallet exchange' config := by
    rw [balance,balance,List.append_assoc]
    exact behind _ ⟨_,rfl⟩
  have peers_same : peers exchange config = peers exchange' config := behind _ ⟨_,rfl⟩
  have height_same : height exchange config = height exchange' config := behind _ ⟨_,rfl⟩
  simp only [handle,handleSendCommand,Wallet.send,nonce,submit,balance_same,peers_same,height_same]

end

/-- The lines before the one that ends the loop. -/
def linesOf (entries : List (Bytes × Exchange)) : List Bytes :=
  (entries.map Prod.fst).takeWhile fun buffer => ¬ Ends buffer

section
variable {wallet : Wallet} {cli : Cli}

theorem run_finished (finished : cli.finished = true) (entries : List (Bytes × Exchange)) :
    run (Cli.step wallet) cli entries = cli :=
  run_keeps (motive := (· = cli)) (fun _ entry same => by rw [same]; exact if_pos finished) entries rfl

theorem step_ends {entry : Bytes × Exchange} (going : cli.finished = false) (ends : Ends entry.1) :
    cli.step wallet entry = { cli with finished := true } := by
  have given : (extract [] entry.1).1 ≠ [] := by
    rcases ends with word | word <;> exact fun blank => absurd (word.symm.trans blank) (by decide)
  rw [Cli.step,going,if_neg (by decide)]
  dsimp only
  rw [if_neg given]
  exact if_pos ends

/-- A line that does not end the loop sets what it sets, and the loop goes on. -/
theorem step_goes_on {entry : Bytes × Exchange} (going : cli.finished = false) (goes : ¬ Ends entry.1) :
    (cli.step wallet entry).finished = false ∧ (cli.step wallet entry).config =
      ⟨(targetOf entry.1).getD cli.config.address,(keyOf entry.1).getD cli.config.rpcApiKey⟩ := by
  rw [Cli.step,going,if_neg (by decide)]
  dsimp only
  by_cases blank : (extract [] entry.1).1 = []
  · have target : targetOf entry.1 = none := by
      simp only [targetOf,blank]
      exact if_neg fun connects => absurd connects.1 (by decide)
    have key : keyOf entry.1 = none := by
      simp only [keyOf,blank]
      exact if_neg fun sets => absurd sets.1 (by decide)
    rw [if_pos blank,target,key]
    exact ⟨going,rfl⟩
  · have other : ¬ ((extract [] entry.1).1 = text "exit" ∨ (extract [] entry.1).1 = text "quit") := goes
    rw [if_neg blank,if_neg other]
    exact ⟨rfl,handle_config entry.1⟩

/-- The address and the key are the last ones that were set. -/
theorem config_run (going : cli.finished = false) (entries : List (Bytes × Exchange)) :
    (run (Cli.step wallet) cli entries).config =
      ⟨lastOf targetOf (linesOf entries) cli.config.address,lastOf keyOf (linesOf entries) cli.config.rpcApiKey⟩ := by
  induction entries generalizing cli with
  | nil => rfl
  | cons entry entries ih =>
    rw [run_cons]
    by_cases ends : Ends entry.1
    · have nothing : linesOf (entry :: entries) = [] := by simp [linesOf,ends]
      rw [step_ends going ends,run_finished rfl,nothing]
      rfl
    · have more : linesOf (entry :: entries) = entry.1 :: linesOf entries := by simp [linesOf,ends]
      obtain ⟨on,set⟩ := @step_goes_on wallet cli entry going ends
      rw [ih on,set,more,lastOf_cons,lastOf_cons]

theorem step_same {buffer : Bytes} {exchange exchange' : Exchange} (same : SameBehind cli.config exchange exchange') :
    cli.step wallet (buffer,exchange) = cli.step wallet (buffer,exchange') := by
  simp only [Cli.step,handle_same same]

/-- A line with what nodes answer meanwhile, in two worlds. -/
abbrev Entry := Bytes × Exchange × Exchange

def Entry.here (entry : Entry) : Bytes × Exchange := (entry.1,entry.2.1)

def Entry.there (entry : Entry) : Bytes × Exchange := (entry.1,entry.2.2)

def stepHere (wallet : Wallet) (cli : Cli) (entry : Entry) : Cli := cli.step wallet entry.here

/-- In both worlds the configured node answers alike behind the configured key. -/
def Alike (cli : Cli) (entry : Entry) : Prop := SameBehind cli.config entry.2.1 entry.2.2

theorem run_same {entries : List Entry} (same : Along (stepHere wallet) Alike cli entries) :
    run (Cli.step wallet) cli (entries.map Entry.here) = run (Cli.step wallet) cli (entries.map Entry.there) := by
  induction entries generalizing cli with
  | nil => rfl
  | cons entry entries ih =>
    rw [List.map_cons,List.map_cons,run_cons,run_cons]
    refine (ih same.2).trans ?_
    exact congrArg (fun cli => run (Cli.step wallet) cli _) (step_same same.1)

end

/-! ### The program -/

/-- How the program ends: with an error code and what it prints, or after a
    session. -/
inductive Exit where
  | failed (code : Nat) (message : Bytes)
  | ended (cli : Cli)

/-- The wallet of a key pair; `sign` is `crypto::sign` with the private key last. -/
def walletOf (P : Primitives) (sign : Bytes → Bytes → Bytes) (keys : KeyPair) : Wallet :=
  ⟨P.deriveAddress keys.publicKey,keys.publicKey,fun message => sign message keys.privateKey⟩

def main (P : Primitives) (sign : Bytes → Bytes → Bytes) (port : UInt16) (args : List Bytes)
    (files : Bytes → Option Bytes) (start : Start) (entries : List (Bytes × Exchange)) : Exit :=
  match parseArgs port args with
  | .error message => .failed 1 (text "Error: " ++ message)
  | .ok config =>
    match (openWallet config.keyfilePath (files config.keyfilePath) start).1 with
    | .error message => .failed 2 (text "Error: " ++ message)
    | .ok keys =>
      let wallet := walletOf P sign keys
      .ended (run (Cli.step wallet) (.start wallet config.rpcConfig) entries)

/-- Started with options and the keys of its file, the wallet ends with the
    address and the key that were set last, and prints the same whatever nodes
    answer, but for what the configured node answers behind the configured key. -/
theorem session_confined (P : Primitives) (sign : Bytes → Bytes → Bytes) (port : UInt16) {given : List Given}
    (filled : ∀ option ∈ given, option.Filled) {files : Bytes → Option Bytes} {start : Start} {keys : KeyPair}
    (named : lastOf Given.newPath given [] ≠ [])
    (opened : (openWallet (lastOf Given.newPath given []) (files (lastOf Given.newPath given [])) start).1 = .ok keys)
    {entries : List Entry}
    (same : Along (stepHere (walletOf P sign keys)) Alike
      (.start (walletOf P sign keys) ⟨lastOf Given.newAddress given ⟨[],port⟩,lastOf Given.newKey given []⟩) entries) :
    main P sign port (given.flatMap Given.args) files start (entries.map Entry.here) =
        main P sign port (given.flatMap Given.args) files start (entries.map Entry.there) ∧
      ∃ cli, main P sign port (given.flatMap Given.args) files start (entries.map Entry.here) = .ended cli ∧
        cli.config =
          ⟨lastOf targetOf (linesOf (entries.map Entry.here)) (lastOf Given.newAddress given ⟨[],port⟩),
            lastOf keyOf (linesOf (entries.map Entry.here)) (lastOf Given.newKey given [])⟩ := by
  have parsed : parseArgs port (given.flatMap Given.args) =
      .ok ⟨⟨lastOf Given.newAddress given ⟨[],port⟩,lastOf Given.newKey given []⟩,lastOf Given.newPath given []⟩ := by
    rw [parseArgs,parseOptions_given filled]
    exact if_neg named
  have ran : ∀ entries, main P sign port (given.flatMap Given.args) files start entries =
      .ended (run (Cli.step (walletOf P sign keys))
        (.start (walletOf P sign keys) ⟨lastOf Given.newAddress given ⟨[],port⟩,lastOf Given.newKey given []⟩)
        entries) := fun entries => by
    simp only [main,parsed,opened]
  refine ⟨?_,_,ran _,config_run rfl _⟩
  rw [ran,ran,run_same same]

/-- A node at port 1 tells the height 5; what others tell is `elsewhere`. -/
def tellingFive (elsewhere : Option Bytes) : Exchange := fun address _ =>
  if address = ⟨text "a",1⟩ then some (text "5") else elsewhere

theorem session_confined_height :
    let given : List Given := [.keyfile [107],.connect ⟨text "a",1⟩]
    let files : Bytes → Option Bytes := fun _ => some (saveToFile ⟨[4],[1]⟩)
    let entries : List Entry := [(text "height",tellingFive none,tellingFive (some (text "9")))]
    main Samples.sample (fun _ _ => []) 0 (given.flatMap Given.args) files ⟨false,⟨[],[]⟩⟩ (entries.map Entry.here) =
      main Samples.sample (fun _ _ => []) 0 (given.flatMap Given.args) files ⟨false,⟨[],[]⟩⟩ (entries.map Entry.there) := by
  intro given files entries
  have filled : ∀ option ∈ given, option.Filled := by
    intro option member
    rcases List.mem_pair.mp member with rfl | rfl
    · exact List.cons_ne_nil _ _
    · trivial
  exact (@session_confined Samples.sample (fun _ _ => []) 0 given filled files ⟨false,⟨[],[]⟩⟩ ⟨[4],[1]⟩ (by decide)
    (by rfl) entries ⟨fun _ => rfl,trivial⟩).1

end ForgeChain.WalletSession
