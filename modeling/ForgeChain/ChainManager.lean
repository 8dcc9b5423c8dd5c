import ForgeChain.Consensus
import ForgeChain.Ledger
import ForgeChain.ForkResolution
import ForgeChain.Mempool
import ForgeChain.Storage

/-!
The operations of `src/chain/ChainManager.cpp` on the whole chain state. An
operation that can raise returns the exception or its result, and the state it
leaves behind either way. The clock is read at most once in an operation, so a
reading is an argument.
-/
namespace ForgeChain

inductive Status where
  | Rejected
  | Accepted
  | Reorged
  | NeedParent
  deriving DecidableEq

structure BlockOutcome where
  status : Status
  toBroadcast : List HashBytes
  missingParent : Option HashBytes
  deriving DecidableEq

structure BlockTemplate where
  prevHash : HashBytes
  height : Nat
  timestamp : UInt64
  difficulty : UInt32
  tipVersion : UInt64
  transactions : List Transaction
  deriving DecidableEq

/-- What a call reads from its surroundings. -/
structure Reading where
  now : UInt64
  walk : WalkOrder

structure ChainManager where
  blockchain : Blockchain
  mempool : Mempool
  orphanPool : OrphanPool
  ledger : Ledger
  storage : Option Storage
  params : ConsensusParams
  tipVersion : UInt64
  deriving DecidableEq

namespace BlockOutcome

/-- `BlockOutcome outcome;`. -/
def rejected : BlockOutcome := ⟨.Rejected,[],none⟩
def accepted (block : Block) : BlockOutcome := ⟨.Accepted,[block.hash],none⟩
def reorged (hashes : List HashBytes) : BlockOutcome := ⟨.Reorged,hashes,none⟩
def needParent (block : Block) : BlockOutcome := ⟨.NeedParent,[],some block.prevHash⟩

end BlockOutcome

section
variable (P : Primitives)

/-! ### Blocks and the ledger -/

/-- The signature test of `apply_block_to_ledger` and of `try_reorg`. -/
def checkSignature (tx : Transaction) : Except Exn Bool :=
  if tx.isCoinbase then .ok true else tx.hasValidSignature P

/-- The loop of `apply_block_to_ledger`; `applied` are the transactions before,
    last one first, which is the order they are undone in. -/
def applyTransactions : Ledger → List Transaction → List Transaction → Except Exn Bool × Ledger
  | ledger, _, [] => (.ok true,ledger)
  | ledger, applied, tx :: rest =>
    match checkSignature P tx with
    | .error e => (.error e,ledger)
    | .ok false => (.ok false,Tally.play Ledger.reverseTransaction ledger applied)
    | .ok true =>
      match ledger.applyTransaction tx with
      | (false,ledger) => (.ok false,Tally.play Ledger.reverseTransaction ledger applied)
      | (true,ledger) => applyTransactions ledger (tx :: applied) rest

def applyBlockToLedger (ledger : Ledger) (block : Block) : Except Exn Bool × Ledger :=
  applyTransactions P ledger [] block.transactions

/-! ### The parts of a reorganization -/

/-- The transactions of blocks, in order. -/
def transactionsOf (blocks : List Block) : List Transaction := blocks.flatMap Block.transactions

/-- The first loop of `try_reorg`: whether every transaction that is no
    coinbase has a valid signature. -/
def checkSignatures : List Transaction → Except Exn Bool
  | [] => .ok true
  | tx :: rest => do
    if ← checkSignature P tx then checkSignatures rest else .ok false

/-- `new_branch_hashes` and `discarded_hashes`: coinbases are left out. -/
def plainHashes (txs : List Transaction) : List HashBytes :=
  (txs.filter (¬ ·.isCoinbase)).map (·.computeHash P)

/-- The loop over the discarded transactions, last one first: those that the
    branch does not have are undone and go back to the mempool. -/
def undoDiscarded (branchHashes : List HashBytes) :
    Ledger → Mempool → List Transaction → Except Exn Unit × Ledger × Mempool
  | ledger, mempool, [] => (.ok (),ledger,mempool)
  | ledger, mempool, tx :: rest =>
    if tx.computeHash P ∈ branchHashes then undoDiscarded branchHashes ledger mempool rest
    else
      let ledger := (ledger.reverseTransaction tx).2
      if tx.isCoinbase then undoDiscarded branchHashes ledger mempool rest
      else
        match mempool.addTransaction P tx with
        | (.error e,mempool) => (.error e,ledger,mempool)
        | (.ok _,mempool) => undoDiscarded branchHashes ledger mempool rest

/-- The loop over the transactions of the branch: those that were not discarded
    are applied. -/
def applyBranch (discardedHashes : List HashBytes) (ledger : Ledger) (txs : List Transaction) : Ledger :=
  Tally.play Ledger.applyTransaction ledger (txs.filter (·.computeHash P ∉ discardedHashes))

end

namespace ChainManager
section
variable (P : Primitives)

/-- The constructor. -/
def new (mempoolMaxSize : Nat) (params : ConsensusParams) (storage : Option Storage) : ChainManager where
  blockchain := .new P
  mempool := .new mempoolMaxSize
  orphanPool := .new kDefaultMaxOrphans
  ledger := .empty
  storage := storage.map fun storage =>
    if storage.blockCount = 0 then storage.saveBlock (Block.genesis P) 0 else storage
  params := params
  tipVersion := 0

def tryReorg (m : ChainManager) (fork : ForkChain) : Except Exn (Option (List HashBytes)) × ChainManager :=
  if ¬ isForkHeavier m.blockchain fork then (.ok none,m)
  else
    let branchTxs := transactionsOf fork.blocks
    let newHashes := fork.blocks.map Block.hash
    match checkSignatures P branchTxs with
    | .error e => (.error e,m)
    | .ok false => (.ok none,m)
    | .ok true =>
      match m.blockchain.reorganizeTo fork with
      | (none,_) => (.ok none,m)
      | (some discarded,blockchain) =>
        let m := { m with blockchain, tipVersion := m.tipVersion + 1 }
        let discardedTxs := transactionsOf discarded
        match undoDiscarded P (plainHashes P branchTxs) m.ledger m.mempool discardedTxs.reverse with
        | (.error e,ledger,mempool) => (.error e,{ m with ledger, mempool })
        | (.ok (),ledger,mempool) =>
          let ledger := applyBranch P (plainHashes P discardedTxs) ledger branchTxs
          let forkPoint := blockchain.size - newHashes.length
          let storage := m.storage.map (·.replaceBlocksFrom forkPoint (blockchain.blocks.drop forkPoint))
          (.ok (some newHashes),{ m with ledger, mempool, storage })

/-! ### Validation of a branch -/

/-- Heights from `base` on are the branch's own, those below the chain's. -/
def forkBlockAt (chain : Blockchain) (base : Nat) (branch : List Block) (index : Nat) : Except Exn Block :=
  if base > index then chain.blockAt index
  else
    match branch[index - base]? with
    | some block => .ok block
    | none => .error .outOfRange

/-- The loop of `valid_prefix_length` from the `i`-th block on. -/
def validPrefix (params : ConsensusParams) (view : Nat → Except Exn Block) (now : UInt64) (base : Nat) :
    Nat → List Block → Except Exn Nat
  | i, [] => .ok i
  | i, block :: rest => do
    if ← timestampIsValid params view now block (base + i) then
      let difficulty ← nextDifficulty P params view (base + i)
      if block.difficulty ≠ difficulty then .ok i else validPrefix params view now base (i + 1) rest
    else .ok i

def validPrefixLength (m : ChainManager) (fork : ForkChain) (now : UInt64) : Except Exn Nat :=
  match m.blockchain.findHeight fork.commonAncestor.hash with
  | none => .ok 0
  | some height =>
    validPrefix P m.params (forkBlockAt m.blockchain (height + 1) fork.blocks) now (height + 1) 0 fork.blocks

/-- A branch cut behind its valid prefix; `none` where nothing of it is valid. -/
def truncate (m : ChainManager) (fork : ForkChain) (now : UInt64) : Except Exn (Option ForkChain) := do
  let len ← m.validPrefixLength P fork now
  if len = 0 then .ok none else .ok (some { fork with blocks := fork.blocks.take len })

/-! ### Fork candidates -/

/-- The first loop of `find_fork_tips` with `left` visits to go; the stack has
    its top first. What is still on it in the end are tips as well. -/
def walkTips (pool : OrphanPool) (walk : WalkOrder) : Nat → List Block → List Block → List Block
  | _, [], tips => tips
  | 0, stack, tips => tips ++ stack
  | left+1, block :: stack, tips =>
    match pool.childrenOf walk block.hash with
    | [] => walkTips pool walk left stack (tips ++ [block])
    | children => walkTips pool walk left (children.reverse ++ stack) tips

def findForkTips (pool : OrphanPool) (walk : WalkOrder) (start : Block) : List Block :=
  walkTips pool walk kMaxForkDepth [start] []

/-- The loop over the tips: the first of the heaviest valid branches. -/
def bestFork (m : ChainManager) (now : UInt64) : List Block → Option (ForkChain × UInt64) → Except Exn (Option ForkChain)
  | [], best => .ok (best.map Prod.fst)
  | tip :: rest, best =>
    match buildForkChain m.blockchain m.orphanPool tip with
    | none => bestFork m now rest best
    | some fork => do
      match ← m.truncate P fork now with
      | none => bestFork m now rest best
      | some fork =>
        let work := forkWork fork
        match best with
        | none => bestFork m now rest (some (fork,work))
        | some (_,bestWork) => bestFork m now rest (if work > bestWork then some (fork,work) else best)

/-- What `handle_fork_candidate` does once the branch is chosen. -/
def adoptFork (m : ChainManager) (fork : ForkChain) : Except Exn BlockOutcome × ChainManager :=
  match m.tryReorg P fork with
  | (.error e,m) => (.error e,m)
  | (.ok none,m) => (.ok .rejected,m)
  | (.ok (some hashes),m) => (.ok (.reorged hashes),{ m with orphanPool := hashes.foldl .removeOrphan m.orphanPool })

def handleForkCandidate (m : ChainManager) (reading : Reading) (block : Block) : Except Exn BlockOutcome × ChainManager :=
  let m := { m with orphanPool := m.orphanPool.addOrphan block }
  match buildForkChain m.blockchain m.orphanPool block with
  | none => (.ok (.needParent block),m)
  | some _ =>
    match m.bestFork P reading.now (findForkTips m.orphanPool reading.walk block) none with
    | .error e => (.error e,m)
    | .ok none => (.ok .rejected,m)
    | .ok (some fork) => m.adoptFork P fork

/-! ### The calls -/

/-- A block on the tip whose contextual rules hold. -/
def extendTip (m : ChainManager) (block : Block) : Except Exn BlockOutcome × ChainManager :=
  match applyBlockToLedger P m.ledger block with
  | (.error e,ledger) => (.error e,{ m with ledger })
  | (.ok false,ledger) => (.ok .rejected,{ m with ledger })
  | (.ok true,ledger) =>
    let blockchain := m.blockchain.addBlock block
    (.ok (.accepted block),
      { m with
        ledger, blockchain
        mempool := block.transactions.foldl (·.removeTransaction P) m.mempool
        tipVersion := m.tipVersion + 1
        storage := m.storage.map (·.saveBlock block (blockchain.size - 1)) })

/-- The contextual rules for a block on the tip: timestamp, then difficulty. -/
def checkTip (m : ChainManager) (now : UInt64) (block : Block) : Except Exn Bool := do
  if ← timestampIsValid m.params m.blockchain.blockAt now block m.blockchain.size then
    let expected ← nextDifficulty P m.params m.blockchain.blockAt m.blockchain.size
    .ok (block.difficulty = expected)
  else .ok false

def submitBlock (m : ChainManager) (reading : Reading) (block : Block) : Except Exn BlockOutcome × ChainManager :=
  if ¬ meetsTarget block.hash block.difficulty then (.ok .rejected,m)
  else if ¬ validateCoinbaseAmount block.transactions then (.ok .rejected,m)
  else
    match m.blockchain.classifyNewBlock P block with
    | .Valid =>
      match m.checkTip P reading.now block with
      | .error e => (.error e,m)
      | .ok false => (.ok .rejected,m)
      | .ok true => m.extendTip P block
    | .ForkCandidate => m.handleForkCandidate P reading block
    | .Invalid => (.ok .rejected,m)

def submitTransaction (m : ChainManager) (tx : Transaction) : Except Exn Bool × ChainManager :=
  let (added,mempool) := m.mempool.addTransaction P tx
  (added,{ m with mempool })

def setBalance (m : ChainManager) (address : Bytes) (amount : UInt64) : ChainManager :=
  { m with ledger := m.ledger.setBalance address amount }

def restoreBlock (m : ChainManager) (block : Block) : Except Exn Bool × ChainManager :=
  match applyBlockToLedger P m.ledger block with
  | (.error e,ledger) => (.error e,{ m with ledger })
  | (.ok false,ledger) => (.ok false,{ m with ledger })
  | (.ok true,ledger) =>
    (.ok true,{ m with ledger, blockchain := m.blockchain.addBlock block, tipVersion := m.tipVersion + 1 })

/-- The loop over the stored blocks at start-up, in the constructor of the
    `Orchestrator`; it gives up at a block that does not apply. -/
def restoreBlocks : ChainManager → List Block → Except Exn Bool × ChainManager
  | m, [] => (.ok true,m)
  | m, block :: rest =>
    match m.restoreBlock P block with
    | (.ok true,m) => restoreBlocks m rest
    | (result,m) => (result,m)

/-- The checks of `adopt_branch` before the branch is weighed: what is left of
    the answer behind the blocks the chain has, cut behind its valid prefix. -/
def requestedFork (m : ChainManager) (now : UInt64) (blocks : List Block) : Except Exn (Option ForkChain) :=
  match blocks.dropWhile (fun block => m.blockchain.hasBlock block.hash) with
  | [] => .ok none
  | first :: rest =>
    match m.blockchain.findHeight first.prevHash with
    | none => .ok none
    | some height =>
      if ¬ List.IsChain (fun parent block => block.prevHash = parent.hash) (first :: rest) then .ok none
      else do
        let commonAncestor ← m.blockchain.blockAt height
        m.truncate P { blocks := first :: rest, commonAncestor } now

def adoptBranch (m : ChainManager) (now : UInt64) (blocks : List Block) : Except Exn Bool × ChainManager :=
  match m.requestedFork P now blocks with
  | .error e => (.error e,m)
  | .ok none => (.ok false,m)
  | .ok (some fork) =>
    match m.tryReorg P fork with
    | (.error e,m) => (.error e,m)
    | (.ok hashes,m) => (.ok hashes.isSome,m)

end

def chainHeight (m : ChainManager) : Nat := m.blockchain.size

def hasBlock (m : ChainManager) (hash : HashBytes) : Bool := m.blockchain.hasBlock hash

def findBlock (m : ChainManager) (hash : HashBytes) : Option Block :=
  (m.blockchain.find hash).orElse fun _ => m.orphanPool.findOrphan hash

def hasTransaction (P : Primitives) (m : ChainManager) (hash : HashBytes) : Bool := m.mempool.hasTransaction P hash

def findTransaction (P : Primitives) (m : ChainManager) (hash : HashBytes) : Option Transaction := m.mempool.find P hash

def locator (m : ChainManager) : Except Exn (List HashBytes) := buildLocator m.blockchain

def blocksAfterLocator (m : ChainManager) (locator : List HashBytes) (limit : Nat) : List Block :=
  match findLocatorMatch m.blockchain locator with
  | none => []
  | some height => (m.blockchain.blocks.drop (height + 1)).take limit

/-- The first of the pending transactions that apply in turn to a copy of the
    ledger. -/
def selectTransactions (m : ChainManager) (limit : Nat) : List Transaction :=
  Tally.accepted Ledger.applyTransaction m.ledger (m.mempool.getTransactionsForBlock limit)

def blockTemplate (P : Primitives) (m : ChainManager) (now : UInt64) (maxTxs : Nat) : Except Exn BlockTemplate := do
  let height := m.blockchain.size
  let difficulty ← nextDifficulty P m.params m.blockchain.blockAt height
  let median ← medianTimePast m.params.mtpWindow m.blockchain.blockAt height
  .ok
    { prevHash := m.blockchain.latest.hash
      height, difficulty
      timestamp := max now (median + 1)
      tipVersion := m.tipVersion
      transactions := m.selectTransactions maxTxs }

end ChainManager
end ForgeChain
