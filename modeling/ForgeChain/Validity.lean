import ForgeChain.Calls
import ForgeChain.Samples

/-!
Every block that unsolicited submissions bring into the chain obeys the
consensus rules there, for good. A reorganization judges a branch over the
chain below the common ancestor and the branch above it; that is the chain it
leaves, so the rules hold at the new heights, and they read nothing above a
block, so they go on holding at the old ones.
-/
namespace ForgeChain.Validity
open Runs Samples

/-- A block obeys the consensus rules at a height of a chain. -/
structure Obeys (P : Primitives) (params : ConsensusParams) (chain : Blockchain) (height : Nat)
    (block : Block) : Prop where
  proper : Proper P block
  parent : ∃ earlier, chain.blocks[height - 1]? = some earlier ∧ block.prevHash = earlier.hash
  difficulty : nextDifficulty P params chain.blockAt height = .ok block.difficulty
  timestamp : ∃ median, medianTimePast params.mtpWindow chain.blockAt height = .ok median ∧ median < block.timestamp

/-- The calls that bring in blocks and transactions nobody asked for. -/
def Unsolicited : Call → Prop
  | .submitBlock _ _ => True
  | .submitTransaction _ => True
  | _ => False

/-- Every block above the genesis block obeys the rules, and every block of the
    orphan pool those for a block on its own. -/
structure Valid (P : Primitives) (params : ConsensusParams) (m : ChainManager) : Prop extends Regular P m where
  same_params : m.params = params
  chain : ∀ height block, 1 ≤ height → m.blockchain.blocks[height]? = some block →
    Obeys P params m.blockchain height block
  pool : ∀ hash block, m.orphanPool.findOrphan hash = some block → Proper P block

section
variable {P : Primitives} {params : ConsensusParams} {m : ChainManager} {chain chain' : Blockchain} {height : Nat}
  {block : Block}

/-- The rules read nothing at or above the block's height. -/
theorem Obeys.congr (same : ∀ i < height, chain.blocks[i]? = chain'.blocks[i]?) (positive : 1 ≤ height)
    (obeys : Obeys P params chain height block) : Obeys P params chain' height block := by
  have view : SameBelow height chain.blockAt chain'.blockAt := by
    apply SameBelow.of_eq
    intro i below
    rw [Blockchain.blockAt,Blockchain.blockAt,same i below]
  obtain ⟨earlier,there,parent⟩ := obeys.parent
  obtain ⟨median,past,later⟩ := obeys.timestamp
  refine ⟨obeys.proper,⟨earlier,?_,parent⟩,?_,median,?_,later⟩
  · rw [← same (height - 1) (by omega),there]
  · rw [← nextDifficulty_congr view,obeys.difficulty]
  · rw [← medianTimePast_congr view,past]

theorem Obeys.of_fits {now : UInt64} (proper : Proper P block) (fits : Fits P params chain.blockAt now height block)
    (parent : ∃ earlier, chain.blocks[height - 1]? = some earlier ∧ block.prevHash = earlier.hash) :
    Obeys P params chain height block :=
  ⟨proper,parent,fits.2,median_lt_of_timestampIsValid fits.1⟩

/-! ### The tip -/

theorem addBlock_below {i : Nat} (below : i < chain.size) (block : Block) :
    (chain.addBlock block).blocks[i]? = chain.blocks[i]? :=
  List.getElem?_append_left below

/-- A block that is accepted on the tip obeys the rules there. -/
theorem obeys_addBlock {now : UInt64} (tip : OnTip P m now block) {added : Block}
    (there : (m.blockchain.addBlock block).blocks[m.blockchain.size]? = some added) :
    Obeys P m.params (m.blockchain.addBlock block) m.blockchain.size added := by
  have last : (m.blockchain.addBlock block).blocks[m.blockchain.size]? =
      some { block with cumulativeWork := block.blockWork + m.blockchain.latest.cumulativeWork } :=
    List.getElem?_concat_length
  rw [last] at there
  obtain rfl := Option.some.inj there
  have positive := m.blockchain.size_pos
  have view : SameBelow m.blockchain.size m.blockchain.blockAt (m.blockchain.addBlock block).blockAt := by
    apply SameBelow.of_eq
    intro i below
    rw [Blockchain.blockAt,Blockchain.blockAt,addBlock_below below]
  refine Obeys.of_fits (tip.proper.stamp _) (tip.fits.congr view) ⟨m.blockchain.latest,?_,tip.parent⟩
  rw [addBlock_below (by omega),Blockchain.blocks_getElem?_latest]

theorem valid_addBlock {now : UInt64} (valid : Valid P params m) (tip : OnTip P m now block) {added : Block}
    (positive : 1 ≤ height) (there : (m.blockchain.addBlock block).blocks[height]? = some added) :
    Obeys P params (m.blockchain.addBlock block) height added := by
  rcases Nat.lt_trichotomy height m.blockchain.size with below | rfl | above
  · rw [addBlock_below below] at there
    refine (valid.chain height added positive there).congr (fun i less => ?_) positive
    rw [addBlock_below (by omega)]
  · rw [← valid.same_params]
    exact obeys_addBlock tip there
  · have inside := (List.getElem?_eq_some_iff.mp there).1
    simp only [Blockchain.addBlock,List.length_append,List.length_singleton] at inside
    unfold Blockchain.size at above
    omega

/-! ### A branch -/

/-- The parent of a block above the cut is the block before it. -/
theorem parent_reorganized {now : UInt64} {fork : ForkChain} {i : Nat} (sound : m.blockchain.Sound)
    (grown : Grown P m now fork height) (above : height < i)
    (there : (fork.blocks.foldl Blockchain.addBlock (m.blockchain.cut height)).blocks[i]? = some block) :
    ∃ earlier, (fork.blocks.foldl Blockchain.addBlock (m.blockchain.cut height)).blocks[i - 1]? = some earlier ∧
      block.prevHash = earlier.hash := by
  have inside := sound.below grown.valid.found
  obtain ⟨j,plain,rfl,own,same⟩ := Blockchain.branch_of_reorganized inside above there
  have unchanged : block.prevHash = plain.prevHash := by rw [same]
  rw [unchanged]
  cases j with
  | zero =>
    refine ⟨fork.commonAncestor,?_,grown.linked.first own⟩
    rw [Nat.add_zero,Nat.add_sub_cancel,Blockchain.reorganized_below inside le_rfl,grown.ancestor]
  | succ j =>
    have before : j < fork.blocks.length := by
      have := (List.getElem?_eq_some_iff.mp own).1
      omega
    have earlier := List.getElem?_eq_getElem before
    have parent := grown.linked.next earlier own
    obtain ⟨work,there⟩ := Blockchain.reorganized_of_branch inside earlier
    exact ⟨{ fork.blocks[j] with cumulativeWork := work },there,parent⟩

theorem valid_reorganized {now : UInt64} {fork : ForkChain} {i : Nat} (valid : Valid P params m)
    (grown : Grown P m now fork height) (proper : ∀ other ∈ fork.blocks, Proper P other) (positive : 1 ≤ i)
    (there : (fork.blocks.foldl Blockchain.addBlock (m.blockchain.cut height)).blocks[i]? = some block) :
    Obeys P params (fork.blocks.foldl Blockchain.addBlock (m.blockchain.cut height)) i block := by
  have inside := valid.sound.below grown.valid.found
  rcases Nat.lt_or_ge height i with above | below
  · have fits := grown.fits_reorganized valid.sound above there
    rw [valid.same_params] at fits
    refine Obeys.of_fits ?_ fits (parent_reorganized valid.sound grown above there)
    obtain ⟨j,plain,-,own,same⟩ := Blockchain.branch_of_reorganized inside above there
    rw [same]
    exact Proper.stamp (proper plain (List.mem_of_getElem? own)) _
  · rw [Blockchain.reorganized_below inside below] at there
    refine (valid.chain i block positive there).congr (fun j less => ?_) positive
    rw [Blockchain.reorganized_below inside (by omega)]

/-! ### Runs -/

theorem valid_new (P : Primitives) (mempoolMaxSize : Nat) (params : ConsensusParams) (storage : Option Storage) :
    Valid P params (.new P mempoolMaxSize params storage) where
  toRegular := regular_new P mempoolMaxSize params storage
  same_params := rfl
  chain height block positive there := by
    have inside := (List.getElem?_eq_some_iff.mp there).1
    simp only [ChainManager.new,Blockchain.new,List.length_singleton] at inside
    omega
  pool hash block found := by
    simp [ChainManager.new,OrphanPool.new,OrphanPool.findOrphan] at found

theorem valid_after {call : Call} (valid : Valid P params m) (unsolicited : Unsolicited call) :
    Valid P params (m.after P call) where
  toRegular := regular_after valid.toRegular call
  same_params := (params_after valid.toRegular call).trans valid.same_params
  chain := by
    intro height block positive there
    have unchanged : (m.after P call).blockchain = m.blockchain →
        Obeys P params (m.after P call).blockchain height block := by
      intro blockchain
      rw [blockchain] at there ⊢
      exact valid.chain height block positive there
    cases after_change valid.toRegular call with
    | kept blockchain ledger => exact unchanged blockchain
    | extended added applies signed applied blockchain ledger =>
      rw [blockchain] at there ⊢
      cases call with
      | submitBlock reading submitted =>
        obtain ⟨rfl,tip⟩ := applies
        exact valid_addBlock valid tip positive there
      | restoreBlock restored => exact unsolicited.elim
      | submitTransaction tx => exact applies.elim
      | adoptBranch now blocks => exact applies.elim
      | setBalance address amount => exact applies.elim
    | rolledBack added applies before tx after split applied stops blockchain ledger => exact unchanged blockchain
    | raised added applies before tx after split applied bad blockchain ledger => exact unchanged blockchain
    | reorganized fork offers base able blockchain ledger =>
      rw [blockchain] at there ⊢
      cases call with
      | submitBlock reading submitted =>
        obtain ⟨off,chosen⟩ := offers
        obtain ⟨base',grown,origin⟩ := chosen.grown valid.toRegular
        obtain rfl : base' = base := Option.some.inj (grown.valid.found.symm.trans able.2.2)
        refine valid_reorganized valid grown (fun other member => ?_) positive there
        rcases origin other member with rfl | waiting
        · exact off.proper
        · exact valid.pool _ _ waiting
      | adoptBranch now blocks => exact unsolicited.elim
      | submitTransaction tx => exact offers.elim
      | restoreBlock block => exact offers.elim
      | setBalance address amount => exact offers.elim
    | balanceSet address amount call_eq blockchain ledger => exact unchanged blockchain
  pool := by
    intro hash block found
    rcases findOrphan_after valid.toRegular found with before | ⟨reading,-,-,proper⟩
    · exact valid.pool hash block before
    · exact proper

/-- Whatever blocks and transactions are submitted to a new chain manager, its
    chain obeys the consensus rules at every height above the genesis block, and
    the orphan pool has only blocks that obey those for a block on its own. -/
theorem obeys_run (P : Primitives) (mempoolMaxSize : Nat) (params : ConsensusParams) (storage : Option Storage)
    {calls : List Call} (unsolicited : ∀ call ∈ calls, Unsolicited call) :
    let m := run (ChainManager.after P) (.new P mempoolMaxSize params storage) calls
    (∀ height block, 1 ≤ height → m.blockchain.blocks[height]? = some block →
      Obeys P params m.blockchain height block) ∧
    ∀ block ∈ m.orphanPool.blocks, Proper P block := by
  intro m
  have valid : Valid P params m :=
    (along_of_forall unsolicited).keeps (motive := Valid P params) (fun _ _ valid meets => valid_after valid meets)
      (valid_new P mempoolMaxSize params storage)
  refine ⟨valid.chain,?_⟩
  intro block member
  obtain ⟨hash,found⟩ := OrphanPool.mem_blocks.mp member
  exact valid.pool hash block found

end

theorem obeys_paidRun :
    let m := run (ChainManager.after sample) start [.submitBlock reading paidA,.submitTransaction pay]
    (∀ height block, 1 ≤ height → m.blockchain.blocks[height]? = some block →
      Obeys sample testParams m.blockchain height block) ∧
    ∀ block ∈ m.orphanPool.blocks, Proper sample block := by
  unfold start
  exact obeys_run sample 1000 testParams none (by simp [Unsolicited])

end ForgeChain.Validity
