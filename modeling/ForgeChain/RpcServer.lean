import ForgeChain.RunningNode

/-!
The RPC server of `src/app/RpcServer.cpp` and its start in
`src/app/Orchestrator.cpp`. One thread accepts connections and answers one line
each; it reads the key twice under the lock, and other threads may set the key
or change the node between any two of its steps. `Orchestrator::start` starts
the thread before it installs the configured key, so for a while every line is
answered. After that no line without a key that was configured gets anything
but a refusal (`protected_run`).
-/
namespace ForgeChain
open Runs

/-- `std::isspace` in the C locale. -/
def isSpace (c : UInt8) : Bool := c = 32 || (9 ≤ c && c ≤ 13)

/-- `iss >> word`: the word and what is left of the stream. A word that cannot be
    read stays as it is. -/
def extract (word stream : Bytes) : Bytes × Bytes :=
  match stream.dropWhile isSpace with
  | [] => (word,[])
  | rest => (rest.takeWhile (!isSpace ·),rest.dropWhile (!isSpace ·))

/-- The first word of a line, empty if there is none. -/
def firstWord (line : Bytes) : Bytes := (extract [] line).1

namespace RpcServer

/-- The loop of `handle_connection` over the bytes before the connection ends;
    none if the line is too long. -/
def readLine (line : Bytes) : Bytes → Option Bytes
  | [] => some line
  | byte :: rest =>
    if line.length ≥ 4096 then none
    else if byte = 10 then some line
    else readLine (line ++ [byte]) rest

/-- A line is read as long as it ends, or the connection does, before there is a
    byte too many. -/
theorem readLine_eq (line stream : Bytes)
    (short : (line ++ stream.takeWhile (· ≠ 10)).length < 4096 ∨ (line ++ stream).length ≤ 4096) :
    readLine line stream = some (line ++ stream.takeWhile (· ≠ 10)) := by
  induction stream generalizing line with
  | nil => simp [readLine]
  | cons byte rest ih =>
    have room : ¬ line.length ≥ 4096 := by
      simp only [List.length_append,List.length_cons] at short
      omega
    rw [readLine,if_neg room]
    by_cases ends : byte = 10
    · simp [ends]
    · rw [if_neg ends,ih]
      · simp [ends]
      · simpa [ends] using short

def apiKeyRequired (apiKey : Bytes) : Bool := apiKey ≠ []

def checkApiKey (apiKey providedKey : Bytes) : Bool := if apiKey = [] then true else apiKey = providedKey

/-- `handle_command` behind the key: the answer, if nothing is raised, and what
    the node does. -/
def perform (P : Primitives) (n : RunningNode) (command rest : Bytes) : Except Exn Bytes × RunningNode.Reaction :=
  if command = text "GETBALANCE" then
    let address := (extract [] rest).1
    if address = [] then (.ok (text "ERROR_EMPTY_ADDRESS"),n,[])
    else
      match n.chain.ledger.getBalance address with
      | some balance => (.ok (decimal balance.toNat),n,[])
      | none => (.ok (text "UNKNOWN"),n,[])
  else if command = text "GETNONCE" then
    let address := (extract [] rest).1
    if address = [] then (.ok (text "ERROR_EMPTY_ADDRESS"),n,[])
    else (.ok (decimal (n.chain.ledger.nextNonce address).toNat),n,[])
  else if command = text "SUBMITTX" then
    let hex := (extract [] rest).1
    if hex = [] then (.ok (text "ERROR_EMPTY_PAYLOAD"),n,[])
    else
      match Primitives.fromHex hex with
      | none => (.ok (text "ERROR_INVALID_HEX"),n,[])
      | some bytes =>
        match Transaction.deserialize bytes with
        | none => (.ok (text "ERROR_INVALID_PAYLOAD"),n,[])
        | some tx => ((n.chain.submitTransaction P tx).1.map fun _ => text "OK",n.submitTransaction P tx)
  else if command = text "HEIGHT" then (.ok (decimal n.chain.chainHeight),n,[])
  else if command = text "PEERS" then (.ok (decimal n.node.peers.length),n,[])
  else (.ok (text "ERROR_UNKNOWN_COMMAND"),n,[])

/-- `handle_command`, with the key as it is through the whole call. -/
def handleCommand (P : Primitives) (n : RunningNode) (apiKey line : Bytes) : Except Exn Bytes × RunningNode.Reaction :=
  let (command,rest) := extract [] line
  if apiKeyRequired apiKey then
    if ¬ checkApiKey apiKey command then (.ok (text "ERROR unauthorized"),n,[])
    else
      let (command,rest) := extract command rest
      perform P n command rest
  else perform P n command rest

end RpcServer

open RpcServer

/-- Where `Orchestrator::start` is: before the RPC server starts, after it, and
    after the key is installed; or the server could not start. -/
inductive Phase where
  | starting
  | serving
  | started
  | unserved
  deriving DecidableEq

/-- Where `handle_command` is with a line: before it asks whether there is a key,
    before it checks the key, and before it performs the command. -/
inductive InWork where
  | asking (line : Bytes)
  | checking (line command rest : Bytes)
  | performing (line command rest : Bytes)
  deriving DecidableEq

/-- An answered line, with the keys configured by then and the node before and
    after the answer. -/
structure Answered where
  line : Bytes
  answer : Bytes
  keys : List Bytes
  before : RunningNode
  after : RunningNode
  said : List Output
  deriving DecidableEq

structure Orchestrator where
  configKey : Bytes
  node : RunningNode
  phase : Phase
  apiKey : Bytes
  keys : List Bytes
  request : Option InWork
  answers : List Answered
  deriving DecidableEq

namespace Orchestrator

/-- Before `start`, with a configured key. -/
def new (configKey : Bytes) (node : RunningNode) : Orchestrator := ⟨configKey,node,.starting,[],[configKey],none,[]⟩

inductive Action where
  | serve (listening : Bool)
  | install
  | setSecretKey (key : Bytes)
  | connect (stream : Bytes)
  | ask
  | check
  | perform
  | elsewhere (input : RunningNode.Input)

/-- The answers of `handle_command` are sent as lines. -/
def endLine (result : Except Exn Bytes × RunningNode.Reaction) : Except Exn Bytes × RunningNode.Reaction :=
  (result.1.map (· ++ [10]),result.2)

/-- The line is answered, and the next connection can be accepted. -/
def reply (o : Orchestrator) (line : Bytes) (result : Except Exn Bytes × RunningNode.Reaction) : Orchestrator :=
  match result with
  | (.error _,node,_) => { o with node,request := none }
  | (.ok answer,node,said) =>
    { o with node,request := none,answers := o.answers ++ [⟨line,answer,o.keys,o.node,node,said⟩] }

def step (P : Primitives) (o : Orchestrator) : Action → Orchestrator
  | .serve listening =>
    if o.phase = .starting then { o with phase := if listening then .serving else .unserved } else o
  | .install =>
    if o.phase = .serving then
      { o with phase := .started,apiKey := if o.configKey = [] then o.apiKey else o.configKey }
    else o
  | .setSecretKey key =>
    if o.phase = .started ∧ key ≠ [] then { o with apiKey := key,keys := o.keys ++ [key] } else o
  | .connect stream =>
    if (o.phase = .serving ∨ o.phase = .started) ∧ o.request = none then
      match readLine [] stream with
      | none => o.reply (stream.takeWhile (· ≠ 10)) (.ok (text "ERROR"),o.node,[])
      | some line => { o with request := some (.asking line) }
    else o
  | .ask =>
    match o.request with
    | some (.asking line) =>
      let (command,rest) := extract [] line
      { o with request :=
          if apiKeyRequired o.apiKey then some (.checking line command rest) else some (.performing line command rest) }
    | _ => o
  | .check =>
    match o.request with
    | some (.checking line command rest) =>
      if ¬ checkApiKey o.apiKey command then o.reply line (endLine (.ok (text "ERROR unauthorized"),o.node,[]))
      else
        let (command,rest) := extract command rest
        { o with request := some (.performing line command rest) }
    | _ => o
  | .perform =>
    match o.request with
    | some (.performing line command rest) => o.reply line (endLine (RpcServer.perform P o.node command rest))
    | _ => o
  | .elsewhere input => { o with node := (o.node.react P input).1 }

@[simp] theorem reply_request (o : Orchestrator) (line : Bytes) (result : Except Exn Bytes × RunningNode.Reaction) :
    (o.reply line result).request = none := by
  obtain ⟨e | answer,node,said⟩ := result
  · rfl
  · rfl

/-- A reply ends whatever request there was. -/
theorem reply_any (o : Orchestrator) (request : Option InWork) (line : Bytes)
    (result : Except Exn Bytes × RunningNode.Reaction) : { o with request }.reply line result = o.reply line result := by
  obtain ⟨e | answer,node,said⟩ := result
  · rfl
  · rfl

/-- A line that is worked on without interruption is answered by
    `handle_command`. -/
theorem run_handleCommand (P : Primitives) (o : Orchestrator) {line : Bytes} (asked : o.request = some (.asking line)) :
    run (step P) o [.ask,.check,.perform] = o.reply line (endLine (handleCommand P o.node o.apiKey line)) := by
  by_cases required : apiKeyRequired o.apiKey = true
  · by_cases known : checkApiKey o.apiKey (extract [] line).1 = true
    · simp [step,asked,required,known,handleCommand,reply_any o]
    · simp [step,asked,required,known,handleCommand,reply_any o]
  · simp [step,asked,required,handleCommand,reply_any o]

/-! ### Protection -/

/-- A line whose first word is none of the keys configured by then is refused and
    does nothing. -/
def Protected (answered : Answered) : Prop :=
  firstWord answered.line ∉ answered.keys →
    answered.answer = text "ERROR unauthorized" ++ [10] ∧ answered.after = answered.before ∧ answered.said = []

/-- A connection sends a line that is not too long, and a line is worked on after
    the key is installed. -/
def Guarded (o : Orchestrator) : Action → Prop
  | .connect stream => (stream.takeWhile (· ≠ 10)).length < 4096 ∨ stream.length ≤ 4096
  | .ask => o.phase = .started
  | _ => True

/-- What the line in work has shown so far: a line whose key is checked has its
    first word checked, and one that is performed has shown a key. -/
def Cleared (keys : List Bytes) : Option InWork → Prop
  | some (.checking line command _) => command = firstWord line
  | some (.performing line _ _) => firstWord line ∈ keys
  | _ => True

theorem Cleared.mono {keys : List Bytes} {request : Option InWork} (cleared : Cleared keys request) (key : Bytes) :
    Cleared (keys ++ [key]) request := by
  unfold Cleared at cleared ⊢
  split
  · exact cleared
  · exact List.mem_append_left _ cleared
  · trivial

/-- The key is a configured one once it is installed, and every answer so far
    was given under protection. -/
structure Safe (o : Orchestrator) : Prop where
  config : o.configKey ≠ [] ∧ o.configKey ∈ o.keys
  installed : o.phase = .started → o.apiKey ≠ []
  configured : o.apiKey ≠ [] → o.apiKey ∈ o.keys
  checking : ∀ line command rest, o.request = some (.checking line command rest) → o.apiKey ≠ []
  cleared : Cleared o.keys o.request
  answers : ∀ answered ∈ o.answers, Protected answered

variable {P : Primitives} {o : Orchestrator}

/-- A protected answer keeps the server safe. -/
theorem Safe.reply (safe : Safe o) {line : Bytes} {result : Except Exn Bytes × RunningNode.Reaction}
    (protects : ∀ answer node said, result = (.ok answer,node,said) →
      Protected ⟨line,answer,o.keys,o.node,node,said⟩) : Safe (o.reply line result) := by
  obtain ⟨e | answer,node,said⟩ := result
  · exact ⟨safe.config,safe.installed,safe.configured,nofun,trivial,safe.answers⟩
  · refine ⟨safe.config,safe.installed,safe.configured,nofun,trivial,?_⟩
    intro answered member
    rcases List.mem_append.mp member with old | new
    · exact safe.answers answered old
    · rw [List.mem_singleton.mp new]
      exact protects answer node said rfl

theorem safe_step (safe : Safe o) {action : Action} (guarded : Guarded o action) : Safe (o.step P action) := by
  cases action with
  | serve listening =>
    rw [step]
    split
    · refine ⟨safe.config,fun started => ?_,safe.configured,safe.checking,safe.cleared,safe.answers⟩
      cases listening with
      | true => cases started
      | false => cases started
    · exact safe
  | install =>
    rw [step]
    split
    · rw [if_neg safe.config.1]
      exact ⟨safe.config,fun _ => safe.config.1,fun _ => safe.config.2,fun _ _ _ _ => safe.config.1,safe.cleared,
        safe.answers⟩
    · exact safe
  | setSecretKey key =>
    rw [step]
    split
    · case isTrue given =>
      exact ⟨⟨safe.config.1,List.mem_append_left _ safe.config.2⟩,fun _ => given.2,
        fun _ => List.mem_append_right _ (List.mem_singleton.mpr rfl),fun _ _ _ _ => given.2,safe.cleared.mono key,
        safe.answers⟩
    · exact safe
  | connect stream =>
    rw [step]
    split
    · split
      · case h_1 long =>
        rw [readLine_eq [] stream guarded] at long
        cases long
      · exact ⟨safe.config,safe.installed,safe.configured,nofun,trivial,safe.answers⟩
    · exact safe
  | ask =>
    rw [step]
    split
    · case h_1 line asked =>
      have key := safe.installed guarded
      have required : apiKeyRequired o.apiKey = true := decide_eq_true key
      dsimp only
      rw [if_pos required]
      exact ⟨safe.config,safe.installed,safe.configured,fun _ _ _ _ => key,rfl,safe.answers⟩
    · exact safe
  | check =>
    rw [step]
    split
    · case h_1 line command rest checked =>
      have first : command = firstWord line := by
        have cleared := safe.cleared
        rwa [checked] at cleared
      -- The key may be another one than was asked for, but it is not empty.
      have key := safe.checking line command rest checked
      split
      · refine safe.reply fun answer node said same _ => ?_
        cases same
        exact ⟨rfl,rfl,rfl⟩
      · case isFalse known =>
        rw [not_not,checkApiKey,if_neg key,decide_eq_true_eq] at known
        refine ⟨safe.config,safe.installed,safe.configured,nofun,?_,safe.answers⟩
        show firstWord line ∈ o.keys
        rw [← first,← known]
        exact safe.configured key
    · exact safe
  | perform =>
    rw [step]
    split
    · case h_1 line command rest performed =>
      have cleared := safe.cleared
      rw [performed] at cleared
      exact safe.reply fun _ _ _ _ other => absurd cleared other
    · exact safe
  | elsewhere input =>
    exact ⟨safe.config,safe.installed,safe.configured,safe.checking,safe.cleared,safe.answers⟩

theorem safe_new {configKey : Bytes} (given : configKey ≠ []) (node : RunningNode) : Safe (new configKey node) where
  config := ⟨given,List.mem_singleton.mpr rfl⟩
  installed started := by
    rw [new] at started
    cases started
  configured key := absurd rfl key
  checking line command rest waiting := by
    rw [new] at waiting
    cases waiting
  cleared := trivial
  answers answered member := absurd member List.not_mem_nil

/-- From the start with a configured key, every answer is given under protection,
    along every run in which no line is worked on before the key is installed
    and none is too long. -/
theorem protected_run (P : Primitives) (configKey : Bytes) (node : RunningNode) (given : configKey ≠ [])
    (actions : List Action) (guarded : Along (step P) Guarded (new configKey node) actions) :
    ∀ answered ∈ (run (step P) (new configKey node) actions).answers, Protected answered :=
  (guarded.keeps (motive := Safe) (fun _ _ safe guarded => safe_step safe guarded) (safe_new given node)).answers

/-- A line asks for the height with a wrong key. -/
def probing : List Action :=
  [.serve true,.install,.connect (text "guess HEIGHT" ++ [10]),.ask,.check,.perform]

theorem protected_probing :
    text "secret" ≠ [] ∧
      Along (step Samples.sample) Guarded (new (text "secret") .newcomer) probing ∧
      (run (step Samples.sample) (new (text "secret") .newcomer) probing).answers.length = 1 ∧
      ∀ answered ∈ (run (step Samples.sample) (new (text "secret") .newcomer) probing).answers, Protected answered := by
  have given : text "secret" ≠ [] := by decide
  have guarded : Along (step Samples.sample) Guarded (new (text "secret") .newcomer) probing :=
    ⟨trivial,trivial,Or.inr (by decide),rfl,trivial,trivial,trivial⟩
  exact ⟨given,guarded,by decide +kernel,protected_run Samples.sample (text "secret") .newcomer given probing guarded⟩

/-- A line without a key comes between the start of the server and the key. -/
def early : List Action := [.serve true,.connect (text "HEIGHT" ++ [10]),.ask,.perform,.install]

theorem early_answered :
    ∃ answered ∈ (run (step Samples.sample) (new (text "secret") .newcomer) early).answers,
      firstWord answered.line ∉ answered.keys ∧ answered.answer = text "1" ++ [10] := by
  decide +kernel

end Orchestrator
end ForgeChain
