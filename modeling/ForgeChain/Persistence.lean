import ForgeChain.Placement
import ForgeChain.Wire

/-!
The blocks table. A block that extends the chain is saved at its height; a
reorganization replaces everything from the first height of the branch on. As
long as blocks are told apart by their hashes no row is deleted that a new one
does not replace, so the table holds the rows of the chain, in the order of the
heights (`Mirrors`). A row decodes to the block it was made from, but for the
cumulative work, which `add_block` computes again.
-/
namespace ForgeChain.Persistence
open Tally Runs BlockTree Placement

/-- The calls of a node that is up and running, on given blocks. -/
def Fed (given : List Block) : Call → Prop
  | .submitBlock _ block => block ∈ given
  | .adoptBranch _ blocks => ∀ block ∈ blocks, block ∈ given
  | .submitTransaction _ => True
  | .restoreBlock _ => False
  | .setBalance _ _ => False

/-- What a call does to the chain and the storage. -/
inductive Stored (P : Primitives) (m : ChainManager) (call : Call) (m' : ChainManager) : Prop
  | kept (blockchain : m'.blockchain = m.blockchain) (storage : m'.storage = m.storage)
  | saved (block : Block) (applies : Applies P m call block) (blockchain : m'.blockchain = m.blockchain.addBlock block)
      (storage : m'.storage = m.storage.map (·.saveBlock block m.blockchain.size))
  | replaced (fork : ForkChain) (offers : Offers P m call fork) (height : Nat)
      (found : m.blockchain.findHeight fork.commonAncestor.hash = some height)
      (blockchain : m'.blockchain = fork.blocks.foldl .addBlock (m.blockchain.cut height))
      (storage : m'.storage = m.storage.map (·.replaceBlocksFrom (height + 1) (m'.blockchain.blocks.drop (height + 1))))

section
variable {P : Primitives} {given path : List Block} {m : ChainManager} {call : Call}

theorem storage_after (regular : Regular P m) (fed : Fed given call) : Stored P m call (m.after P call) := by
  cases call with
  | submitBlock reading block =>
    cases submitBlock_cases regular reading block with
    | refused notOn notOff run => exact .kept (by rw [ChainManager.after,run]) (by rw [ChainManager.after,run])
    | accepted tip signed applied run =>
      refine .saved block ⟨rfl,tip⟩ (by rw [ChainManager.after,run]; rfl) ?_
      have size : (m.blockchain.addBlock block).size - 1 = m.blockchain.size := by
        simp [Blockchain.size,Blockchain.addBlock]
      rw [ChainManager.after,run,← size]
      rfl
    | rolledBack tip before tx after split signed applied stops run =>
      exact .kept (by rw [ChainManager.after,run]) (by rw [ChainManager.after,run])
    | raised tip before tx after e split signed applied bad run =>
      exact .kept (by rw [ChainManager.after,run]) (by rw [ChainManager.after,run])
    | waiting off untraced run =>
      exact .kept (by rw [ChainManager.after,run]; rfl) (by rw [ChainManager.after,run]; rfl)
    | outweighed off traced weak run =>
      exact .kept (by rw [ChainManager.after,run]; rfl) (by rw [ChainManager.after,run]; rfl)
    | unverifiable off fork chosen e heavier bad run =>
      exact .kept (by rw [ChainManager.after,run]; rfl) (by rw [ChainManager.after,run]; rfl)
    | reorganized off fork chosen height m' reorg ledger run =>
      have blockchain : (m.after P (.submitBlock reading block)).blockchain =
          fork.blocks.foldl .addBlock (m.blockchain.cut height) := by
        rw [ChainManager.after,run]
        exact reorg.blockchain
      refine .replaced fork ⟨off,chosen⟩ height reorg.found blockchain ?_
      obtain ⟨m'',-,-,tried⟩ := Tried.adopts reorg.adoptable regular.authentic
      have sound : (m.pooled block).blockchain.Sound := regular.sound
      have storage := tryReorg_storage sound tried reorg.found
      rw [blockchain,ChainManager.after,submitBlock_offTip off,handleForkCandidate_chosen chosen,
        (adoptFork_leaves P _ fork).2,tried,storage]
      rfl
  | submitTransaction tx => exact .kept rfl rfl
  | adoptBranch now blocks =>
    cases adoptBranch_cases regular now blocks with
    | refused weak run => exact .kept (by rw [ChainManager.after,run]) (by rw [ChainManager.after,run])
    | unverifiable fork requested e heavier bad run =>
      exact .kept (by rw [ChainManager.after,run]) (by rw [ChainManager.after,run])
    | reorganized fork requested height m' reorg ledger run =>
      have blockchain : (m.after P (.adoptBranch now blocks)).blockchain =
          fork.blocks.foldl .addBlock (m.blockchain.cut height) := by
        rw [ChainManager.after,run]
        exact reorg.blockchain
      refine .replaced fork requested height reorg.found blockchain ?_
      obtain ⟨m'',-,-,tried⟩ := Tried.adopts reorg.adoptable regular.authentic
      have storage := tryReorg_storage regular.sound tried reorg.found
      rw [blockchain,ChainManager.after,adoptBranch_state requested,tried,storage]
  | restoreBlock block => exact fed.elim
  | setBalance address amount => exact fed.elim

theorem supplied_of_fed (fed : Fed given call) : Supplied given m call := by
  cases call with
  | submitBlock reading block => exact fed
  | submitTransaction tx => trivial
  | adoptBranch now blocks => exact fed
  | restoreBlock block => exact fed.elim
  | setBalance address amount => exact fed.elim

/-- The table holds the rows of the chain. -/
def Mirrors (m : ChainManager) : Prop :=
  ∃ table, m.storage = some table ∧ table.rows = Storage.rowsOf 0 m.blockchain.blocks

theorem mirrors_new (P : Primitives) (mempoolMaxSize : Nat) (params : ConsensusParams) :
    Mirrors (.new P mempoolMaxSize params (some ⟨[]⟩)) := ⟨_,rfl,rfl⟩

theorem mirrors_after (tame : Tame P given) (placed : Placed P given path m) (fed : Fed given call)
    (mirrors : Mirrors m) : Mirrors (m.after P call) := by
  obtain ⟨path',placed'⟩ := placed_step tame placed (supplied_of_fed fed)
  obtain ⟨blocks,distinct,inside⟩ := tame path' placed'.rooted
  have nodup := placed'.follows.nodup distinct inside
  obtain ⟨table,stored,rows⟩ := mirrors
  cases storage_after placed.toRegular fed with
  | kept blockchain storage => exact ⟨table,storage.trans stored,by rw [rows,blockchain]⟩
  | saved block applies blockchain storage =>
    rw [stored] at storage
    refine ⟨_,storage,?_⟩
    have new : block.hash ∉ m.blockchain.blocks.map Block.hash := by
      rw [blockchain,Blockchain.addBlock,List.map_append] at nodup
      intro member
      exact List.disjoint_of_nodup_append nodup member (by simp)
    have saved := Storage.saveBlock_rows rows new
    rw [blockchain]
    refine saved.trans (Storage.rowsOf_congr ?_ 0)
    simp [Blockchain.addBlock,Storage.rowOf,Block.serialize,Block.serializeHeader]
  | replaced fork offers height found blockchain storage =>
    rw [stored] at storage
    refine ⟨_,storage,?_⟩
    have low := placed.sound.below found
    have split : m.blockchain.blocks.take (height + 1) ++ (m.after P call).blockchain.blocks.drop (height + 1) =
        (m.after P call).blockchain.blocks := by
      rw [blockchain,Blockchain.blocks_foldl_addBlock,Blockchain.cut,List.drop_left' (List.length_take_of_le low)]
    have new : ((m.blockchain.blocks.take (height + 1) ++
        (m.after P call).blockchain.blocks.drop (height + 1)).map Block.hash).Nodup := by rwa [split]
    have replaced := Storage.replaceBlocksFrom_rows rows low new
    rwa [split] at replaced

/-- After any calls of a running node the table holds the rows of the chain. -/
theorem mirrors_run (tame : Tame P given) (mempoolMaxSize : Nat) (params : ConsensusParams) {calls : List Call}
    (fed : ∀ call ∈ calls, Fed given call) :
    ∃ path, Placed P given path (run (ChainManager.after P) (.new P mempoolMaxSize params (some ⟨[]⟩)) calls) ∧
      Mirrors (run (ChainManager.after P) (.new P mempoolMaxSize params (some ⟨[]⟩)) calls) :=
  (along_of_forall fed).keeps (motive := fun m => ∃ path, Placed P given path m ∧ Mirrors m)
    (fun _ _ ⟨_,placed,mirrors⟩ fed =>
      (placed_step tame placed (supplied_of_fed fed)).imp fun _ placed' =>
        ⟨placed',mirrors_after tame placed fed mirrors⟩)
    ⟨[],placed_new P given mempoolMaxSize params _,mirrors_new P mempoolMaxSize params⟩

end

/-! ### Blocks from the wire -/

/-- The block is what its own serialization decodes to. -/
def OnWire (P : Primitives) (block : Block) : Prop := Block.deserialize P block.serialize = some block

/-- SHA-256 has no collision among the serializations of the blocks and of the
    genesis block, and takes none of them to 0. -/
structure Hashed (P : Primitives) (given : List Block) : Prop where
  collisionFree : ∀ one ∈ Block.genesis P :: given, ∀ other ∈ Block.genesis P :: given,
    P.doubleSha256 one.serialize = P.doubleSha256 other.serialize → one.serialize = other.serialize
  nonzero : ∀ block ∈ Block.genesis P :: given, P.doubleSha256 block.serialize ≠ .zero

section
variable {P : Primitives} {given path : List Block} {block : Block}

theorem OnWire.fresh (wire : OnWire P block) : block.Fresh P := ((Block.decodes P _ _).mp wire).1.2

theorem onWire_genesis (P : Primitives) : OnWire P (Block.genesis P) :=
  (Block.decodes P _ _).mpr ⟨⟨⟨Nat.two_pow_pos 32,fun _ none => by cases none⟩,⟨rfl,rfl⟩⟩,rfl⟩

/-- Blocks from the wire are told apart by their hashes. -/
theorem Hashed.inj (hashed : Hashed P given) (wire : ∀ block ∈ given, OnWire P block) {one other : Block}
    (first : one ∈ Block.genesis P :: given) (second : other ∈ Block.genesis P :: given)
    (same : one.hash = other.hash) : one = other := by
  have decoded : ∀ block ∈ Block.genesis P :: given, OnWire P block :=
    List.forall_mem_cons.mpr ⟨onWire_genesis P,wire⟩
  have serialized := hashed.collisionFree one first other second (by
    rw [(decoded one first).fresh.hash,(decoded other second).fresh.hash] at same
    exact same)
  have both := decoded one first
  rw [OnWire,serialized,decoded other second] at both
  exact (Option.some.inj both).symm

/-- No path comes back to the genesis block, whose parent nothing hashes to. -/
theorem Hashed.tame (hashed : Hashed P given) (wire : ∀ block ∈ given, OnWire P block) : Tame P given := by
  intro path rooted
  refine ⟨given.filter (·.hash ≠ (Block.genesis P).hash),⟨?_,?_⟩,rooted.1,?_⟩
  · intro one first other second same
    exact hashed.inj wire (List.mem_cons_of_mem _ (List.mem_of_mem_filter first))
      (List.mem_cons_of_mem _ (List.mem_of_mem_filter second)) same
  · intro block member
    simpa using (List.mem_filter.mp member).2
  · intro block member
    refine List.mem_filter.mpr ⟨rooted.2 block member,?_⟩
    rw [decide_eq_true_eq]
    intro root
    have is := hashed.inj wire (List.mem_cons_of_mem _ (rooted.2 block member)) List.mem_cons_self root
    have parent : block.prevHash = .zero := by rw [is]; rfl
    have nonzero : ∀ other ∈ Block.genesis P :: given, other.hash ≠ .zero := by
      intro other inside
      have fresh : other.Fresh P := by
        rcases List.mem_cons.mp inside with rfl | supplied
        · exact (onWire_genesis P).fresh
        · exact (wire other supplied).fresh
      rw [fresh.hash]
      exact hashed.nonzero other inside
    rcases rooted.1.parent member with first | ⟨earlier,inside,same⟩
    · exact nonzero _ List.mem_cons_self (first.symm.trans parent)
    · exact nonzero earlier (List.mem_cons_of_mem _ (rooted.2 earlier inside)) (same.symm.trans parent)

/-- A chain block is one from the wire with its work set. -/
theorem deserialize_chain {m : ChainManager} {height : Nat} (wire : ∀ block ∈ given, OnWire P block)
    (placed : Placed P given path m) (there : m.blockchain.blocks[height]? = some block) :
    Block.deserialize P block.serialize = some { block with cumulativeWork := 0 } := by
  have bare : ∀ plain work, OnWire P plain → block = { plain with cumulativeWork := work } →
      Block.deserialize P block.serialize = some { block with cumulativeWork := 0 } := by
    rintro plain work decoded rfl
    have zero := decoded.fresh.work
    cases plain
    cases zero
    exact decoded
  rw [placed.follows] at there
  cases height with
  | zero => exact bare (Block.genesis P) _ (onWire_genesis P) (Option.some.inj there).symm
  | succ height =>
    obtain ⟨plain,inside,same⟩ := Blockchain.stamp_getElem? there
    exact bare plain _ (wire plain (placed.rooted.2 plain (List.mem_of_getElem? inside))) same

theorem mapM_range' {f : Nat → Option Block} {blocks : List Block} {start : Nat}
    (each : ∀ i block, blocks[i]? = some block → f (start + i) = some block) :
    (List.range' start blocks.length).mapM f = some blocks := by
  induction blocks generalizing start with
  | nil => rfl
  | cons block rest ih =>
    have later : (List.range' (start + 1) rest.length).mapM f = some rest := ih fun i other there => by
      rw [Nat.add_assoc,Nat.add_comm 1]
      exact each (i + 1) other there
    rw [List.length_cons,List.range'_succ,List.mapM_cons,show f start = some block from each 0 block rfl,later]
    rfl

/-- Loading the stored blocks above the genesis block and adding them to a new
    chain gives the chain that the table holds. -/
theorem rebuilds {m : ChainManager} {table : Storage} (tame : Tame P given) (wire : ∀ block ∈ given, OnWire P block)
    (placed : Placed P given path m) (rows : table.rows = Storage.rowsOf 0 m.blockchain.blocks) :
    ((List.range' 1 (m.blockchain.size - 1)).mapM (table.loadBlock P)).map
      (·.foldl Blockchain.addBlock (.new P)) = some m.blockchain := by
  have loaded : (List.range' 1 path.length).mapM (table.loadBlock P) = some path := by
    refine mapM_range' fun i block there => ?_
    obtain ⟨work,stamped⟩ := Blockchain.getElem?_stamp there 0
    have above : m.blockchain.blocks[1 + i]? = some { block with cumulativeWork := work } := by
      rw [placed.follows,Nat.add_comm,List.getElem?_cons_succ,stamped]
    rw [Storage.loadBlock_rows P rows above]
    exact wire block (placed.rooted.2 block (List.mem_of_getElem? there))
  obtain ⟨blocks,distinct,inside⟩ := tame path placed.rooted
  have same : (path.foldl Blockchain.addBlock (.new P)).blocks = m.blockchain.blocks := by
    rw [Blockchain.blocks_foldl_addBlock,placed.follows]
    rfl
  have nodup : ((([Block.genesis P] : List Block) ++ path).map Block.hash).Nodup := by
    have hashes := placed.follows.nodup distinct inside
    rwa [placed.follows.map_eq fun _ _ => rfl] at hashes
  rw [placed.follows.size_eq,Nat.add_sub_cancel,loaded,Option.map_some]
  exact congrArg some (((Blockchain.indexed_new P).foldl_addBlock nodup).ext placed.indexed same)

end

open Samples

end ForgeChain.Persistence
