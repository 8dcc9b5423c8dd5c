import ForgeChain.BlockTree

/-!
Where the chain of a node lies among the blocks it was given. As long as blocks
are told apart by their hashes, the chain follows a path through them after any
calls, and its index finds exactly the blocks of that path.
-/
namespace ForgeChain.Placement
open Tally Runs BlockTree

/-- The blocks of a call are among the given ones; a block that is restored
    belongs on the tip. -/
def Supplied (given : List Block) (m : ChainManager) : Call → Prop
  | .submitBlock _ block => block ∈ given
  | .adoptBranch _ blocks => ∀ block ∈ blocks, block ∈ given
  | .restoreBlock block => block ∈ given ∧ block.prevHash = m.blockchain.latest.hash
  | .submitTransaction _ => True
  | .setBalance _ _ => True

/-- The chain follows a path through the given blocks, and the orphan pool has
    no others. -/
structure Placed (P : Primitives) (given path : List Block) (m : ChainManager) : Prop extends Regular P m where
  follows : Follows P m.blockchain path
  rooted : Rooted P given path
  indexed : m.blockchain.Indexed
  pool : ∀ block ∈ m.orphanPool.blocks, block ∈ given

section
variable {P : Primitives} {given path : List Block} {m : ChainManager} {call : Call}

theorem placed_new (P : Primitives) (given : List Block) (mempoolMaxSize : Nat) (params : ConsensusParams)
    (storage : Option Storage) : Placed P given [] (.new P mempoolMaxSize params storage) where
  toRegular := regular_new P mempoolMaxSize params storage
  follows := follows_new P
  rooted := rooted_nil
  indexed := Blockchain.indexed_new P
  pool := by simp [ChainManager.new,OrphanPool.new,OrphanPool.blocks]

theorem pool_after (placed : Placed P given path m) (supplied : Supplied given m call) :
    ∀ block ∈ (m.after P call).orphanPool.blocks, block ∈ given := by
  intro block member
  obtain ⟨hash,found⟩ := OrphanPool.mem_blocks.mp member
  rcases findOrphan_after placed.toRegular found with before | ⟨reading,rfl,-,-⟩
  · exact placed.pool block (OrphanPool.mem_blocks.mpr ⟨hash,before⟩)
  · exact supplied

/-- A block that is applied is on the tip. -/
theorem applied_on_tip (supplied : Supplied given m call) {block : Block} (applies : Applies P m call block) :
    block ∈ given ∧ block.prevHash = m.blockchain.latest.hash := by
  cases call with
  | submitBlock reading submitted =>
    obtain ⟨rfl,tip⟩ := applies
    exact ⟨supplied,tip.parent⟩
  | restoreBlock restored =>
    obtain rfl := applies
    exact supplied
  | submitTransaction tx => exact applies.elim
  | adoptBranch now blocks => exact applies.elim
  | setBalance address amount => exact applies.elim

/-- A branch that is offered grows from the chain through given blocks. -/
theorem offered_grown (placed : Placed P given path m) (supplied : Supplied given m call) {fork : ForkChain}
    (offers : Offers P m call fork) :
    ∃ now height, Grown P m now fork height ∧ ∀ block ∈ fork.blocks, block ∈ given := by
  cases call with
  | submitBlock reading submitted =>
    obtain ⟨-,chosen⟩ := offers
    obtain ⟨height,grown,origin⟩ := chosen.grown placed.toRegular
    refine ⟨reading.now,height,grown,fun block member => ?_⟩
    rcases origin block member with rfl | waiting
    · exact supplied
    · exact placed.pool block (OrphanPool.mem_blocks.mpr ⟨_,waiting⟩)
  | adoptBranch now blocks =>
    obtain ⟨height,request⟩ := Request.of_requested placed.sound offers
    obtain ⟨first,rest,len,unknown,-,-,-,taken⟩ := request.unknown
    refine ⟨now,height,request.grown,fun block member => ?_⟩
    rw [taken,← unknown] at member
    exact supplied block ((List.dropWhile_sublist _).subset (List.mem_of_mem_take member))
  | submitTransaction tx => exact offers.elim
  | restoreBlock block => exact offers.elim
  | setBalance address amount => exact offers.elim

/-- A path leads only through blocks that are told apart by their hashes. -/
def Tame (P : Primitives) (given : List Block) : Prop :=
  ∀ path, Rooted P given path → ∃ blocks, Distinct P blocks ∧ Rooted P blocks path

theorem placed_step (tame : Tame P given) (placed : Placed P given path m) (supplied : Supplied given m call) :
    ∃ path', Placed P given path' (m.after P call) := by
  have regular := regular_after placed.toRegular call
  have pool := pool_after placed supplied
  have unchanged : (m.after P call).blockchain = m.blockchain → ∃ path', Placed P given path' (m.after P call) := by
    intro blockchain
    exact ⟨path,regular,blockchain ▸ placed.follows,placed.rooted,blockchain ▸ placed.indexed,pool⟩
  cases after_change placed.toRegular call with
  | kept blockchain ledger => exact unchanged blockchain
  | rolledBack block applies before tx after split applied stops blockchain ledger => exact unchanged blockchain
  | raised block applies before tx after split applied bad blockchain ledger => exact unchanged blockchain
  | balanceSet address amount call_eq blockchain ledger => exact unchanged blockchain
  | extended block applies signed applied blockchain ledger =>
    obtain ⟨member,parent⟩ := applied_on_tip supplied applies
    have rooted : Rooted P given (path ++ [block]) :=
      rooted_concat.mpr ⟨placed.rooted,parent.trans placed.follows.latest.1,member⟩
    refine ⟨path ++ [block],regular,?_,rooted,?_,pool⟩
    · rw [blockchain]
      exact placed.follows.addBlock block
    · obtain ⟨blocks,distinct,inside⟩ := tame _ rooted
      rw [blockchain]
      exact placed.follows.indexed_addBlock placed.indexed distinct inside
  | reorganized fork offers height able blockchain ledger =>
    obtain ⟨now,base,grown,members⟩ := offered_grown placed supplied offers
    obtain rfl : base = height := Option.some.inj (grown.valid.found.symm.trans able.2.2)
    obtain ⟨low,rooted⟩ := placed.follows.grown placed.sound placed.rooted grown members
    refine ⟨path.take base ++ fork.blocks,regular,?_,rooted,?_,pool⟩
    · rw [blockchain]
      exact placed.follows.reorganized low fork.blocks
    · obtain ⟨blocks,distinct,inside⟩ := tame _ rooted
      rw [blockchain]
      exact placed.follows.indexed_reorganized placed.indexed distinct low inside

theorem placed_after (distinct : Distinct P given) (placed : Placed P given path m) (supplied : Supplied given m call) :
    ∃ path', Placed P given path' (m.after P call) :=
  placed_step (fun _ rooted => ⟨given,distinct,rooted⟩) placed supplied

/-- After any calls with given blocks the chain follows a path through them. -/
theorem placed_run (distinct : Distinct P given) {mempoolMaxSize : Nat} {params : ConsensusParams}
    {storage : Option Storage} {calls : List Call}
    (supplied : Along (ChainManager.after P) (Supplied given) (.new P mempoolMaxSize params storage) calls) :
    ∃ path, Placed P given path (run (ChainManager.after P) (.new P mempoolMaxSize params storage) calls) :=
  supplied.keeps (motive := fun m => ∃ path, Placed P given path m)
    (fun _ _ ⟨_,placed⟩ meets => placed_after distinct placed meets) ⟨[],placed_new P given mempoolMaxSize params storage⟩

/-! ### Blocks submitted one by one -/

/-- Submitting the blocks of a path in order. -/
def submissions (reading : Reading) (path : List Block) : List Call := path.map (.submitBlock reading)

theorem supplied_submissions (reading : Reading) (members : ∀ block ∈ path, block ∈ given) :
    Along (ChainManager.after P) (Supplied given) m (submissions reading path) := by
  induction path generalizing m with
  | nil => trivial
  | cons block rest ih =>
    obtain ⟨first,later⟩ := List.forall_mem_cons.mp members
    exact ⟨first,ih later⟩

/-- The chain follows a path, and the ledger is what its transactions give. -/
structure Loaded (P : Primitives) (params : ConsensusParams) (path : List Block) (m : ChainManager) : Prop where
  follows : Follows P m.blockchain path
  ledger : m.ledger = play Ledger.applyTransaction .empty (transactionsOf path)
  params_eq : m.params = params

theorem loaded_after {params : ConsensusParams} {reading : Reading} {block : Block} (loaded : Loaded P params path m)
    (valid : ValidPath P params reading.now (path ++ [block])) (parent : block.prevHash = endHash P path) :
    Loaded P params (path ++ [block]) (m.after P (.submitBlock reading block)) := by
  obtain rfl := loaded.params_eq
  obtain ⟨signed,applies⟩ := valid.rest
  rw [← loaded.ledger] at applies
  rw [transactionsOf_singleton] at signed applies
  rw [ChainManager.after,submitBlock_extends (valid.onTip loaded.follows parent) signed applies]
  refine ⟨loaded.follows.addBlock block,?_,rfl⟩
  rw [transactionsOf_append,transactionsOf_singleton,play_append,← loaded.ledger]
  rfl

/-- A new node to which the blocks of a valid path are submitted in order
    follows it. -/
theorem loaded_submissions {reading : Reading} {mempoolMaxSize : Nat} {params : ConsensusParams}
    {storage : Option Storage} (linked : Blockchain.Linked (Block.genesis P).hash path)
    (valid : ValidPath P params reading.now path) :
    Loaded P params path
      (run (ChainManager.after P) (.new P mempoolMaxSize params storage) (submissions reading path)) := by
  induction path using List.reverseRecOn with
  | nil => exact ⟨follows_new P,rfl,rfl⟩
  | append_singleton path block ih =>
    obtain ⟨before,parent,-⟩ := Blockchain.linked_append.mp linked
    rw [submissions,List.map_append,run_append]
    exact loaded_after (ih before (valid.start [block])) valid parent

end
end ForgeChain.Placement
