import ForgeChain.Journal
import ForgeChain.Persistence

/-!
The blocks table under failures. `save_block` is one statement, and
`replace_blocks_from` a transaction; both raise after the chain in memory has
changed. A node that is killed at any statement, or stops after one that failed,
finds on disk the chain before or after its last call, over any number of
restarts (`restart_finds_chain`).
-/
namespace ForgeChain.Durability
open Journal Runs Placement Persistence

/-- The calls of the chain manager to its storage. -/
inductive StorageCall where
  | saveBlock (block : Block) (height : Nat)
  | replaceBlocksFrom (height : Nat) (blocks : List Block)
  deriving DecidableEq

/-- The changes of one save after another, at rising heights. -/
def saves : Nat → List Block → List (Storage → Storage)
  | _, [] => []
  | height, block :: rest => (·.saveBlock block height) :: saves (height + 1) rest

namespace StorageCall

/-- The lowest height that is written. -/
def height : StorageCall → Nat
  | .saveBlock _ height => height
  | .replaceBlocksFrom height _ => height

/-- The changes of a call, and whether they are made in a transaction. -/
def access : StorageCall → Session.Access Storage
  | .saveBlock block height => .single (·.saveBlock block height)
  | .replaceBlocksFrom height blocks => .transaction ((·.deleteBlocksFrom height) :: saves height blocks)

/-- What the call makes of the table where no statement fails. -/
def apply : StorageCall → Storage → Storage
  | .saveBlock block height, storage => storage.saveBlock block height
  | .replaceBlocksFrom height blocks, storage => storage.replaceBlocksFrom height blocks

theorem foldl_saves (height : Nat) (blocks : List Block) (storage : Storage) :
    (saves height blocks).foldl (fun storage change => change storage) storage = storage.saveBlocks height blocks := by
  induction blocks generalizing height storage with
  | nil => rfl
  | cons block rest ih => exact ih (height + 1) (storage.saveBlock block height)

theorem foldl_changes (call : StorageCall) (storage : Storage) :
    call.access.changes.foldl (fun storage change => change storage) storage = call.apply storage := by
  cases call with
  | saveBlock block height => rfl
  | replaceBlocksFrom height blocks => exact foldl_saves height blocks (storage.deleteBlocksFrom height)

end StorageCall

/-- The end of `try_reorg`. -/
def replaced (m : ChainManager) (newHashes : List HashBytes) : StorageCall :=
  let forkPoint := m.blockchain.size - newHashes.length
  .replaceBlocksFrom forkPoint (m.blockchain.blocks.drop forkPoint)

section
variable (P : Primitives)

/-- The call to the storage that a call of the chain manager ends with. -/
def storageCall (m : ChainManager) : Call → Option StorageCall
  | .submitBlock reading block =>
    match m.submitBlock P reading block with
    | (.ok outcome,m) =>
      match outcome.status with
      | .Accepted => some (.saveBlock block (m.blockchain.size - 1))
      | .Reorged => some (replaced m outcome.toBroadcast)
      | _ => none
    | (.error _,_) => none
  | .adoptBranch now blocks =>
    match m.adoptBranch P now blocks,m.requestedFork P now blocks with
    | (.ok true,m),.ok (some fork) => some (replaced m (fork.blocks.map Block.hash))
    | _,_ => none
  | _ => none

/-- The manager where the storage has raised: all is done but that the blocks of
    an adopted branch are still in the orphan pool. -/
def afterRaised (m : ChainManager) : Call → ChainManager
  | .submitBlock reading block =>
    match m.submitBlock P reading block with
    | (.ok outcome,m') =>
      if outcome.status = .Reorged then { m' with orphanPool := m.orphanPool.addOrphan block } else m'
    | (.error _,m') => m'
  | call => m.after P call

/-- The chain manager and the connection of its storage; the `storage` of the
    manager is the table as it would be without failures. -/
structure Process where
  manager : ChainManager
  session : Session Storage

/-- One call of a running process. -/
def Process.step (p : Process) (call : Call) : Process :=
  match storageCall P p.manager call with
  | none => { p with manager := p.manager.after P call }
  | some write =>
    match p.session.access write.access with
    | (.ok,session) => ⟨p.manager.after P call,session⟩
    | (_,session) => ⟨afterRaised P p.manager call,session⟩

/-! ### Starting from the disk -/

/-- Why the constructor of the `Orchestrator` gives up. -/
inductive Corrupted where
  | missingBlock (height : Nat)
  | doesNotApply (height : Nat)
  | raised (e : Exn)
  deriving DecidableEq

/-- The loop over the stored blocks with `left` of them to go. -/
def restoreFrom (storage : Storage) : ChainManager → Nat → Nat → Except Corrupted ChainManager
  | m, _, 0 => .ok m
  | m, i, left+1 =>
    match storage.loadBlock P i with
    | none => .error (.missingBlock i)
    | some block =>
      match m.restoreBlock P block with
      | (.ok true,m) => restoreFrom storage m (i + 1) left
      | (.ok false,_) => .error (.doesNotApply i)
      | (.error e,_) => .error (.raised e)

/-- The table once the chain manager is constructed over it. -/
def opened (storage : Storage) : Storage :=
  if storage.blockCount = 0 then storage.saveBlock (Block.genesis P) 0 else storage

/-- The constructor of the `Orchestrator` with a database. -/
def restart (mempoolMaxSize : Nat) (params : ConsensusParams) (disk : Storage) : Except Corrupted Process := do
  let storage := opened P disk
  let manager ← restoreFrom P storage (.new P mempoolMaxSize params (some disk)) 1 (storage.blockCount - 1)
  .ok ⟨manager,⟨⟨storage,none⟩,[]⟩⟩

/-- The life of a process: calls without a failure, and one more at which it
    ends. -/
structure Life where
  calls : List Call
  last : Call
  events : List Attempt

/-- What the process leaves on disk. -/
def Process.left (p : Process) (life : Life) : Storage :=
  let p := run (Process.step P) p life.calls
  (Process.step P { p with session := { p.session with events := life.events } } life.last).session.disk

/-- The disk after one more life. -/
def lived (mempoolMaxSize : Nat) (params : ConsensusParams) (disk : Storage) (life : Life) :
    Except Corrupted Storage := do
  let p ← restart P mempoolMaxSize params disk
  .ok (p.left P life)

end

/-! ### What a call writes -/

/-- What a call does to the chain, and what it writes for it. -/
inductive Written (P : Primitives) (m : ChainManager) (call : Call) (m' : ChainManager) : Option StorageCall → Prop
  | kept (blockchain : m'.blockchain = m.blockchain) (storage : m'.storage = m.storage) : Written P m call m' none
  | saved (block : Block) (applies : Applies P m call block) (blockchain : m'.blockchain = m.blockchain.addBlock block)
      (storage : m'.storage = m.storage.map (·.saveBlock block m.blockchain.size)) :
      Written P m call m' (some (.saveBlock block m.blockchain.size))
  | replaced (fork : ForkChain) (offers : Offers P m call fork) (height : Nat)
      (found : m.blockchain.findHeight fork.commonAncestor.hash = some height)
      (blockchain : m'.blockchain = fork.blocks.foldl .addBlock (m.blockchain.cut height))
      (storage : m'.storage =
        m.storage.map (·.replaceBlocksFrom (height + 1) (m'.blockchain.blocks.drop (height + 1)))) :
      Written P m call m' (some (.replaceBlocksFrom (height + 1) (m'.blockchain.blocks.drop (height + 1))))

section
variable {P : Primitives} {given path : List Block} {m : ChainManager} {call : Call}

theorem replaced_eq {m' : ChainManager} {fork : ForkChain} {height : Nat} (sound : m.blockchain.Sound)
    (found : m.blockchain.findHeight fork.commonAncestor.hash = some height)
    (blockchain : m'.blockchain = fork.blocks.foldl .addBlock (m.blockchain.cut height)) :
    replaced m' (fork.blocks.map Block.hash) =
      .replaceBlocksFrom (height + 1) (m'.blockchain.blocks.drop (height + 1)) := by
  have low := sound.below found
  have size : m'.blockchain.size - (fork.blocks.map Block.hash).length = height + 1 := by
    rw [Blockchain.size,blockchain,Blockchain.blocks_foldl_addBlock,Blockchain.cut,List.length_append,
      List.length_take_of_le low,List.length_map,Blockchain.stamp_length,Nat.add_sub_cancel]
  rw [replaced,size]

/-- What is written is what the manager keeps as its storage. -/
theorem storageCall_written (regular : Regular P m) (fed : Fed given call) :
    Written P m call (m.after P call) (storageCall P m call) := by
  cases call with
  | submitBlock reading block =>
    have same : ∀ result m', m.submitBlock P reading block = (result,m') →
        m'.blockchain = m.blockchain → m'.storage = m.storage → storageCall P m (.submitBlock reading block) = none →
        Written P m (.submitBlock reading block) (m.after P (.submitBlock reading block))
          (storageCall P m (.submitBlock reading block)) := by
      intro result m' run blockchain storage none
      rw [none]
      exact .kept (by rwa [ChainManager.after,run]) (by rwa [ChainManager.after,run])
    cases submitBlock_cases regular reading block with
    | refused notOn notOff run => exact same _ _ run rfl rfl (by rw [storageCall,run]; rfl)
    | accepted tip signed applied run =>
      have size : (m.blockchain.addBlock block).size - 1 = m.blockchain.size := by
        simp [Blockchain.size,Blockchain.addBlock]
      have write : storageCall P m (.submitBlock reading block) = some (.saveBlock block m.blockchain.size) := by
        rw [storageCall,run,← size]
        rfl
      rw [write]
      refine .saved block ⟨rfl,tip⟩ (by rw [ChainManager.after,run]; rfl) ?_
      rw [ChainManager.after,run,← size]
      rfl
    | rolledBack tip before tx after split signed applied stops run =>
      exact same _ _ run rfl rfl (by rw [storageCall,run]; rfl)
    | raised tip before tx after e split signed applied bad run =>
      exact same _ _ run rfl rfl (by rw [storageCall,run])
    | waiting off untraced run => exact same _ _ run rfl rfl (by rw [storageCall,run]; rfl)
    | outweighed off traced weak run => exact same _ _ run rfl rfl (by rw [storageCall,run]; rfl)
    | unverifiable off fork chosen e heavier bad run => exact same _ _ run rfl rfl (by rw [storageCall,run])
    | reorganized off fork chosen height m' reorg ledger run =>
      have blockchain : (m.after P (.submitBlock reading block)).blockchain =
          fork.blocks.foldl .addBlock (m.blockchain.cut height) := by
        rw [ChainManager.after,run]
        exact reorg.blockchain
      have write : storageCall P m (.submitBlock reading block) =
          some (replaced (m.after P (.submitBlock reading block)) (fork.blocks.map Block.hash)) := by
        rw [storageCall,ChainManager.after,run]
        rfl
      rw [write,replaced_eq regular.sound reorg.found blockchain]
      refine @Written.replaced P m (.submitBlock reading block) _ fork ⟨off,chosen⟩ height reorg.found blockchain ?_
      obtain ⟨m'',-,-,tried⟩ := Tried.adopts reorg.adoptable regular.authentic
      have sound : (m.pooled block).blockchain.Sound := regular.sound
      have storage := tryReorg_storage sound tried reorg.found
      rw [blockchain,ChainManager.after,submitBlock_offTip off,handleForkCandidate_chosen chosen,
        (adoptFork_leaves P _ fork).2,tried,storage]
      rfl
  | submitTransaction tx => exact .kept rfl rfl
  | adoptBranch now blocks =>
    cases adoptBranch_cases regular now blocks with
    | refused weak run =>
      have none : storageCall P m (.adoptBranch now blocks) = none := by
        rw [storageCall,run]
      rw [none]
      exact .kept (by rw [ChainManager.after,run]) (by rw [ChainManager.after,run])
    | unverifiable fork requested e heavier bad run =>
      have none : storageCall P m (.adoptBranch now blocks) = none := by
        rw [storageCall,run]
      rw [none]
      exact .kept (by rw [ChainManager.after,run]) (by rw [ChainManager.after,run])
    | reorganized fork requested height m' reorg ledger run =>
      have blockchain : (m.after P (.adoptBranch now blocks)).blockchain =
          fork.blocks.foldl .addBlock (m.blockchain.cut height) := by
        rw [ChainManager.after,run]
        exact reorg.blockchain
      have write : storageCall P m (.adoptBranch now blocks) =
          some (replaced (m.after P (.adoptBranch now blocks)) (fork.blocks.map Block.hash)) := by
        rw [storageCall,ChainManager.after,requested,run]
      rw [write,replaced_eq regular.sound reorg.found blockchain]
      refine @Written.replaced P m (.adoptBranch now blocks) _ fork requested height reorg.found blockchain ?_
      obtain ⟨m'',-,-,tried⟩ := Tried.adopts reorg.adoptable regular.authentic
      have storage := tryReorg_storage regular.sound tried reorg.found
      rw [blockchain,ChainManager.after,adoptBranch_state requested,tried,storage]
  | restoreBlock block => exact fed.elim
  | setBalance address amount => exact fed.elim

/-! ### Restarting -/

theorem restoreFrom_loaded {storage : Storage} {blocks : List Block} {i left : Nat}
    (loaded : (List.range' i left).mapM (storage.loadBlock P) = some blocks) :
    (∀ height, restoreFrom P storage m i left ≠ .error (.missingBlock height)) ∧
      ∀ m', restoreFrom P storage m i left = .ok m' → m'.blockchain = blocks.foldl .addBlock m.blockchain ∧
        m'.orphanPool = m.orphanPool ∧ m'.storage = m.storage := by
  induction left generalizing m i blocks with
  | zero =>
    cases loaded
    refine ⟨nofun,fun m' restored => ?_⟩
    cases restored
    exact ⟨rfl,rfl,rfl⟩
  | succ left ih =>
    rw [List.range'_succ,List.mapM_cons] at loaded
    obtain ⟨block,found,rest,later,rfl⟩ : ∃ block, storage.loadBlock P i = some block ∧
        ∃ rest, (List.range' (i + 1) left).mapM (storage.loadBlock P) = some rest ∧ block :: rest = blocks := by
      simpa [Option.bind_eq_some_iff] using loaded
    unfold restoreFrom
    rw [found]
    dsimp only
    split
    · case h_1 m₁ restored =>
      obtain ⟨present,restored'⟩ := ih (m := m₁) later
      refine ⟨present,fun m' done => ?_⟩
      obtain ⟨blockchain,pool,stored⟩ := restored' m' done
      have step : m₁.blockchain = m.blockchain.addBlock block ∧ m₁.orphanPool = m.orphanPool ∧
          m₁.storage = m.storage := by
        unfold ChainManager.restoreBlock at restored
        split at restored
        all_goals cases restored
        exact ⟨rfl,rfl,rfl⟩
      exact ⟨by rw [blockchain,step.1,List.foldl_cons],pool.trans step.2.1,stored.trans step.2.2⟩
    · exact ⟨nofun,nofun⟩
    · exact ⟨nofun,nofun⟩

/-- The process has no transaction open, and the table holds the chain. -/
structure InSync (P : Primitives) (given : List Block) (p : Process) : Prop where
  placed : ∃ path, Placed P given path p.manager
  closed : p.session.connection.working = none
  stored : p.manager.storage = some p.session.disk
  rows : p.session.disk.rows = Storage.rowsOf 0 p.manager.blockchain.blocks

/-- A restart over a table that holds a chain finds every block, and restores
    that chain. -/
theorem restart_rows (tame : Tame P given) (wire : ∀ block ∈ given, OnWire P block) (mempoolMaxSize : Nat)
    (params : ConsensusParams) {disk : Storage} (placed : Placed P given path m)
    (rows : (opened P disk).rows = Storage.rowsOf 0 m.blockchain.blocks) :
    (∀ height, restart P mempoolMaxSize params disk ≠ .error (.missingBlock height)) ∧
      ∀ p, restart P mempoolMaxSize params disk = .ok p →
        p.manager.blockchain = m.blockchain ∧ p.session.events = [] ∧ InSync P given p := by
  have count : (opened P disk).blockCount = m.blockchain.size := by
    rw [Storage.blockCount,rows,← List.length_map Row.height,Storage.rowsOf_heights,List.length_range']
    rfl
  obtain ⟨blocks,loaded,built⟩ := Option.map_eq_some_iff.mp (rebuilds tame wire placed rows)
  obtain ⟨present,restored⟩ := restoreFrom_loaded (m := .new P mempoolMaxSize params (some disk)) loaded
  unfold restart
  dsimp only
  rw [count]
  generalize restoreFrom P (opened P disk) (.new P mempoolMaxSize params (some disk)) 1 (m.blockchain.size - 1) = result
    at present restored ⊢
  cases result with
  | error e =>
    refine ⟨fun height same => present height ?_,nofun⟩
    cases same
    rfl
  | ok m' =>
    refine ⟨nofun,fun p started => ?_⟩
    cases started
    obtain ⟨blockchain,pool,stored⟩ := restored m' rfl
    have same : m'.blockchain = m.blockchain := blockchain.trans built
    have empty := placed_new P given mempoolMaxSize params (some disk)
    refine ⟨same,rfl,⟨path,⟨?_,?_,?_,?_⟩,?_,placed.rooted,?_,?_⟩,rfl,stored,?_⟩
    · rw [same]; exact placed.root
    · rw [same]; exact placed.sound
    · rw [pool]; exact empty.keyed
    · rw [same]; exact placed.authentic
    · rw [same]; exact placed.follows
    · rw [same]; exact placed.indexed
    · rw [pool]; exact empty.pool
    · rw [same]; exact rows

theorem opened_of_rows {disk : Storage} (regular : Regular P m)
    (rows : disk.rows = Storage.rowsOf 0 m.blockchain.blocks) : opened P disk = disk := by
  refine if_neg fun empty => ?_
  have root := regular.root
  rw [Storage.blockCount,List.length_eq_zero_iff] at empty
  rw [empty] at rows
  cases blocks : m.blockchain.blocks with
  | nil => rw [blocks] at root; cases root
  | cons block rest => rw [blocks] at rows; cases rows

/-! ### One call of a process -/

variable {p : Process}

theorem Process.step_none (none : storageCall P p.manager call = none) :
    p.step P call = { p with manager := p.manager.after P call } := by
  rw [Process.step,none]

theorem Process.step_some {write : StorageCall} (some : storageCall P p.manager call = some write) :
    (p.step P call).session = (p.session.access write.access).2 ∧
      ((p.session.access write.access).1 = .ok → (p.step P call).manager = p.manager.after P call) := by
  rw [Process.step,some]
  dsimp only
  generalize p.session.access write.access = result
  obtain ⟨_ | _ | _,session⟩ := result
  · exact ⟨rfl,fun _ => rfl⟩
  all_goals exact ⟨rfl,nofun⟩

/-- Without a write the chain and the table stay. -/
theorem InSync.unwritten (sync : InSync P given p) (fed : Fed given call)
    (none : storageCall P p.manager call = none) : (p.manager.after P call).blockchain = p.manager.blockchain ∧
      (p.manager.after P call).storage = some p.session.disk := by
  obtain ⟨path,placed⟩ := sync.placed
  have written := storageCall_written placed.toRegular fed
  rw [none] at written
  cases written with
  | kept blockchain storage => exact ⟨blockchain,storage.trans sync.stored⟩

/-- What the call writes makes the table hold the new chain. -/
theorem InSync.written (tame : Tame P given) (sync : InSync P given p) (fed : Fed given call) {write : StorageCall}
    (some : storageCall P p.manager call = some write) :
    (p.manager.after P call).storage = .some (write.apply p.session.disk) ∧
      (write.apply p.session.disk).rows = Storage.rowsOf 0 (p.manager.after P call).blockchain.blocks := by
  obtain ⟨path,placed⟩ := sync.placed
  obtain ⟨table,stored,rows⟩ := mirrors_after tame placed fed ⟨_,sync.stored,sync.rows⟩
  have applied : (p.manager.after P call).storage = .some (write.apply p.session.disk) := by
    have written := storageCall_written placed.toRegular fed
    rw [some] at written
    cases written with
    | saved block applies blockchain storage => rw [storage,sync.stored]; rfl
    | replaced fork offers height found blockchain storage => rw [storage,sync.stored]; rfl
  obtain rfl := Option.some.inj (stored.symm.trans applied)
  exact ⟨applied,rows⟩

/-- A call without a failure. -/
theorem InSync.step (tame : Tame P given) (sync : InSync P given p) (calm : p.session.events = [])
    (fed : Fed given call) : InSync P given (p.step P call) ∧ (p.step P call).session.events = [] ∧
      (p.step P call).manager = p.manager.after P call := by
  have placed : ∃ path, Placed P given path (p.manager.after P call) := by
    obtain ⟨path,placed⟩ := sync.placed
    exact placed_step tame placed (supplied_of_fed fed)
  cases made : storageCall P p.manager call with
  | none =>
    obtain ⟨blockchain,stored⟩ := sync.unwritten fed made
    rw [Process.step_none made]
    refine ⟨⟨placed,sync.closed,stored,?_⟩,calm,rfl⟩
    rw [blockchain]
    exact sync.rows
  | some write =>
    obtain ⟨stored,rows⟩ := sync.written tame fed made
    obtain ⟨session,manager⟩ := Process.step_some made
    have done : p.session.access write.access = (.ok,⟨⟨write.apply p.session.disk,none⟩,[]⟩) := by
      have shape : p.session = ⟨⟨p.session.disk,none⟩,[]⟩ := by
        rw [← sync.closed,← calm]
        rfl
      rw [shape,Session.access_done,StorageCall.foldl_changes]
      rfl
    rw [done] at session manager
    have manager := manager rfl
    refine ⟨⟨?_,?_,?_,?_⟩,?_,manager⟩
    · rwa [manager]
    · rw [session]
    · rw [manager,session,stored]
      rfl
    · rw [manager,session]
      exact rows
    · rw [session]

/-- A call however its statements fare: the disk holds the chain before it or the
    chain after it. -/
theorem InSync.disk (tame : Tame P given) (sync : InSync P given p) (fed : Fed given call) :
    (p.step P call).session.disk.rows = Storage.rowsOf 0 p.manager.blockchain.blocks ∨
      (p.step P call).session.disk.rows = Storage.rowsOf 0 (p.manager.after P call).blockchain.blocks := by
  cases made : storageCall P p.manager call with
  | none =>
    rw [Process.step_none made]
    exact .inl sync.rows
  | some write =>
    rw [(Process.step_some made).1]
    rcases Session.access_spec sync.closed write.access with ⟨-,done⟩ | ⟨-,refused⟩
    · refine .inr ?_
      rw [Session.disk,done,StorageCall.foldl_changes]
      exact (sync.written tame fed made).2
    · refine .inl ?_
      rw [refused]
      exact sync.rows

/-! ### Lives -/

/-- The calls of a life are on the given blocks. -/
def Life.Fed (given : List Block) (life : Life) : Prop :=
  (∀ call ∈ life.calls, Persistence.Fed given call) ∧ Persistence.Fed given life.last

theorem InSync.run (tame : Tame P given) (sync : InSync P given p) (calm : p.session.events = []) {calls : List Call}
    (fed : ∀ call ∈ calls, Fed given call) : InSync P given (run (Process.step P) p calls) ∧
      (run (Process.step P) p calls).session.events = [] :=
  (along_of_forall fed).keeps (motive := fun p => InSync P given p ∧ p.session.events = [])
    (fun _ _ state fed => ⟨(state.1.step tame state.2 fed).1,(state.1.step tame state.2 fed).2.1⟩) ⟨sync,calm⟩

theorem InSync.events (sync : InSync P given p) (events : List Attempt) :
    InSync P given { p with session := { p.session with events } } :=
  ⟨sync.placed,sync.closed,sync.stored,sync.rows⟩

/-- The disk at the end of a life holds the chain before the last call or the
    chain after it. -/
theorem InSync.left (tame : Tame P given) (sync : InSync P given p) (calm : p.session.events = []) {life : Life}
    (fed : life.Fed given) :
    ∃ path m, Placed P given path m ∧ (opened P (p.left P life)).rows = Storage.rowsOf 0 m.blockchain.blocks ∧
      (m = (Runs.run (Process.step P) p life.calls).manager ∨
        m = (Runs.run (Process.step P) p life.calls).manager.after P life.last) := by
  obtain ⟨before,-⟩ := sync.run tame calm fed.1
  obtain ⟨path,placed⟩ := before.placed
  rcases (before.events life.events).disk tame fed.2 with rows | rows
  · have same : opened P (p.left P life) = p.left P life := opened_of_rows placed.toRegular rows
    exact ⟨path,_,placed,(congrArg Storage.rows same).trans rows,.inl rfl⟩
  · obtain ⟨path',placed'⟩ := placed_step tame placed (supplied_of_fed fed.2)
    have same : opened P (p.left P life) = p.left P life := opened_of_rows placed'.toRegular rows
    exact ⟨path',_,placed',(congrArg Storage.rows same).trans rows,.inr rfl⟩

/-- The disk holds a chain of the given blocks, or nothing yet. -/
def Held (P : Primitives) (given : List Block) (disk : Storage) : Prop :=
  ∃ path m, Placed P given path m ∧ (opened P disk).rows = Storage.rowsOf 0 m.blockchain.blocks

theorem held_lives (tame : Tame P given) (wire : ∀ block ∈ given, OnWire P block) (mempoolMaxSize : Nat)
    (params : ConsensusParams) {lives : List Life} (fed : ∀ life ∈ lives, life.Fed given) {disk disk' : Storage}
    (held : Held P given disk) (passed : lives.foldlM (lived P mempoolMaxSize params) disk = .ok disk') :
    Held P given disk' := by
  induction lives generalizing disk with
  | nil =>
    cases passed
    exact held
  | cons life rest ih =>
    rw [List.foldlM_cons] at passed
    obtain ⟨path,m,placed,rows⟩ := held
    cases started : restart P mempoolMaxSize params disk with
    | error e =>
      rw [lived,started] at passed
      cases passed
    | ok p =>
      obtain ⟨-,calm,sync⟩ := (restart_rows tame wire mempoolMaxSize params placed rows).2 p started
      obtain ⟨path',m',placed',rows',-⟩ := sync.left tame calm (fed life List.mem_cons_self)
      rw [lived,started] at passed
      exact ih (fun life member => fed life (List.mem_cons_of_mem _ member)) ⟨path',m',placed',rows'⟩ passed

/-- However often the node is stopped, and at whichever statement: a restart finds
    no block missing, and restores the chain as it was before or after the call
    that was cut off. -/
theorem restart_finds_chain (mempoolMaxSize : Nat) (params : ConsensusParams) (lives : List Life) (life : Life)
    (disk : Storage) (p : Process) (fed : ∀ other ∈ life :: lives, other.Fed given)
    (wire : ∀ block ∈ given, OnWire P block) (hashed : Hashed P given)
    (passed : lives.foldlM (lived P mempoolMaxSize params) ⟨[]⟩ = .ok disk)
    (started : restart P mempoolMaxSize params disk = .ok p) :
    let before := (run (Process.step P) p life.calls).manager
    (∀ height, restart P mempoolMaxSize params (p.left P life) ≠ .error (.missingBlock height)) ∧
      ∀ p', restart P mempoolMaxSize params (p.left P life) = .ok p' →
        p'.manager.blockchain = before.blockchain ∨ p'.manager.blockchain = (before.after P life.last).blockchain := by
  intro before
  have tame := hashed.tame wire
  have fresh : Held P given ⟨[]⟩ := ⟨[],_,placed_new P given mempoolMaxSize params none,rfl⟩
  obtain ⟨path,m,placed,rows⟩ := held_lives tame wire mempoolMaxSize params
    (fun other member => fed other (List.mem_cons_of_mem _ member)) fresh passed
  obtain ⟨-,calm,sync⟩ := (restart_rows tame wire mempoolMaxSize params placed rows).2 p started
  obtain ⟨path',m',placed',rows',either⟩ := sync.left tame calm (fed life List.mem_cons_self)
  obtain ⟨present,restored⟩ := restart_rows tame wire mempoolMaxSize params placed' rows'
  refine ⟨present,fun p' again => ?_⟩
  rcases either with rfl | rfl
  · exact .inl (restored p' again).1
  · exact .inr (restored p' again).1

open Samples in
/-- The samples come from the wire, and their hashes differ. -/
theorem samples_onWire : (∀ block ∈ [plainA,plainA2,plainB,plainB2], OnWire sample block) ∧
    Hashed sample [plainA,plainA2,plainB,plainB2] := by
  refine ⟨?_,?_,?_⟩
  · unfold OnWire
    decide +kernel
  · decide +kernel
  · decide +kernel

open Samples in
/-- Two blocks that replace a third; the node is killed before the second of them
    is saved, in its second life. -/
def cutOff : Life := ⟨[.submitBlock reading plainB],.submitBlock reading plainB2,[.done,.done,.done,.killed]⟩

open Samples in
theorem restart_finds_chain_cutOff :
    ∃ disk p, [⟨[],.submitBlock reading plainA,[]⟩].foldlM (lived sample 1000 testParams) ⟨[]⟩ = .ok disk ∧
      restart sample 1000 testParams disk = .ok p ∧
      (∀ height, restart sample 1000 testParams (p.left sample cutOff) ≠ .error (.missingBlock height)) ∧
      ∀ p', restart sample 1000 testParams (p.left sample cutOff) = .ok p' →
        p'.manager.blockchain = (run (Process.step sample) p cutOff.calls).manager.blockchain ∨
        p'.manager.blockchain =
          ((run (Process.step sample) p cutOff.calls).manager.after sample cutOff.last).blockchain := by
  have passed : [⟨[],.submitBlock reading plainA,[]⟩].foldlM (lived sample 1000 testParams) ⟨[]⟩ =
      .ok ⟨Storage.rowsOf 0 [Block.genesis sample,plainA]⟩ := by decide +kernel
  have starts : (restart sample 1000 testParams ⟨Storage.rowsOf 0 [Block.genesis sample,plainA]⟩).toOption.isSome := by
    decide +kernel
  cases started : restart sample 1000 testParams ⟨Storage.rowsOf 0 [Block.genesis sample,plainA]⟩ with
  | error e =>
    rw [started] at starts
    cases starts
  | ok p =>
    refine ⟨_,p,passed,started,?_⟩
    refine @restart_finds_chain sample [plainA,plainA2,plainB,plainB2] 1000 testParams _ cutOff _ p ?_ samples_onWire.1
      samples_onWire.2 passed started
    simp [Life.Fed,Fed,cutOff]

end
end ForgeChain.Durability
