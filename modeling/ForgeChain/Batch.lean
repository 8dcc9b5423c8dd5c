import ForgeChain.Persistence

/-!
A batch of blocks on the tip, submitted one by one or adopted at once. The two
paths check and apply the blocks in different ways: a submission looks at the
chain as it grows and saves one row, an adoption looks at the branch behind the
chain, weighs it, and replaces the rows from the tip on. They leave the same
chain and the same ledger, unless the chain has the first block already, which
an adoption skips; and the same rows, unless the storage has rows above the
chain, which only an adoption deletes (`adoptBranch_eq_submissions_iff`). A node
that started with an empty storage and gets its blocks from the wire never comes
to either (`agrees_while_running`).
-/
namespace ForgeChain.Batch
open Tally Runs BlockTree Placement

/-! ### The height of the tip -/

/-- The index finds the last block at its own height. -/
def TipIndexed (chain : Blockchain) : Prop := chain.findHeight chain.latest.hash = some (chain.size - 1)

section
variable {P : Primitives} {m : ChainManager} {call : Call}

theorem tipIndexed_new (P : Primitives) : TipIndexed (.new P) := by
  simp [TipIndexed,Blockchain.new,Blockchain.findHeight,Blockchain.latest,Blockchain.size]

theorem tipIndexed_addBlock (chain : Blockchain) (block : Block) : TipIndexed (chain.addBlock block) := by
  rw [TipIndexed,Blockchain.latest_addBlock]
  simp [Blockchain.addBlock,Blockchain.findHeight,Blockchain.size]

theorem tipIndexed_foldl {blocks : List Block} (some_left : blocks ≠ []) (chain : Blockchain) :
    TipIndexed (blocks.foldl .addBlock chain) := by
  cases blocks using List.reverseRecOn with
  | nil => exact absurd rfl some_left
  | append_singleton blocks block =>
    rw [List.foldl_append]
    exact tipIndexed_addBlock _ block

theorem offered_nonempty (regular : Regular P m) {fork : ForkChain} (offers : Offers P m call fork) : fork.blocks ≠ [] := by
  cases call with
  | submitBlock reading block => exact offers.2.nonempty regular
  | adoptBranch now blocks =>
    obtain ⟨height,request⟩ := Request.of_requested regular.sound offers
    exact request.nonempty
  | submitTransaction tx => exact offers.elim
  | restoreBlock block => exact offers.elim
  | setBalance address amount => exact offers.elim

theorem tipIndexed_after (regular : Regular P m) (tip : TipIndexed m.blockchain) :
    TipIndexed (m.after P call).blockchain := by
  cases after_change regular call with
  | kept blockchain ledger => rwa [blockchain]
  | extended block applies signed applied blockchain ledger => exact blockchain ▸ tipIndexed_addBlock _ block
  | rolledBack block applies before tx after split applied stops blockchain ledger => rwa [blockchain]
  | raised block applies before tx after split applied bad blockchain ledger => rwa [blockchain]
  | reorganized fork offers height able blockchain ledger =>
    exact blockchain ▸ tipIndexed_foldl (offered_nonempty regular offers) _
  | balanceSet address amount call_eq blockchain ledger => rwa [blockchain]

theorem tipIndexed_run (P : Primitives) (mempoolMaxSize : Nat) (params : ConsensusParams) (storage : Option Storage)
    (calls : List Call) :
    Regular P (run (ChainManager.after P) (.new P mempoolMaxSize params storage) calls) ∧
      TipIndexed (run (ChainManager.after P) (.new P mempoolMaxSize params storage) calls).blockchain :=
  run_keeps (motive := fun m => Regular P m ∧ TipIndexed m.blockchain)
    (fun _ call ⟨regular,tip⟩ => ⟨regular_after regular call,tipIndexed_after regular tip⟩) calls
    ⟨regular_new P mempoolMaxSize params storage,tipIndexed_new P⟩

/-- Nothing is above the tip. -/
theorem cut_tip (chain : Blockchain) : chain.cut (chain.size - 1) = chain := by
  have all : chain.size - 1 + 1 = chain.blocks.length := Nat.sub_add_cancel chain.size_pos
  cases chain
  simp only [Blockchain.cut,all,List.take_length,List.drop_length,List.foldl_nil]

end

/-! ### One by one -/

/-- A submitted block is accepted. -/
def Accepts (P : Primitives) (m : ChainManager) : Call → Prop
  | .submitBlock reading block => ∃ outcome ∈ (m.submitBlock P reading block).1.toOption, outcome.status = .Accepted
  | _ => False

instance (P : Primitives) (m : ChainManager) : (call : Call) → Decidable (Accepts P m call)
  | .submitBlock reading block => inferInstanceAs (Decidable (∃ outcome ∈ (m.submitBlock P reading block).1.toOption, _))
  | .submitTransaction _ => inferInstanceAs (Decidable False)
  | .adoptBranch _ _ => inferInstanceAs (Decidable False)
  | .restoreBlock _ => inferInstanceAs (Decidable False)
  | .setBalance _ _ => inferInstanceAs (Decidable False)

/-- The blocks extend the chain, and the state after them is as if each had
    been accepted in turn. -/
structure Grew (P : Primitives) (m : ChainManager) (now : UInt64) (blocks : List Block) (m' : ChainManager) : Prop where
  linked : Blockchain.Linked m.blockchain.latest.hash blocks
  signed : ∀ tx ∈ transactionsOf blocks, tx.Authentic P
  fits : ∀ i block, blocks[i]? = some block →
    Fits P m.params (blocks.foldl .addBlock m.blockchain).blockAt now (m.blockchain.size + i) block
  blockchain : m'.blockchain = blocks.foldl .addBlock m.blockchain
  ledger : m'.ledger = play Ledger.applyTransaction m.ledger (transactionsOf blocks)
  storage : m'.storage = m.storage.map (·.saveBlocks m.blockchain.size blocks)

section
variable {P : Primitives} {m : ChainManager} {reading : Reading} {block : Block} {blocks : List Block}

theorem extended_of_accepts (regular : Regular P m) (accepts : Accepts P m (.submitBlock reading block)) :
    OnTip P m reading.now block ∧ (∀ tx ∈ block.transactions, tx.Authentic P) ∧
      m.after P (.submitBlock reading block) = m.extended P block := by
  obtain ⟨outcome,member,status⟩ := accepts
  have returned : (m.submitBlock P reading block).1 = .ok outcome := by
    rcases result : (m.submitBlock P reading block).1 with e | own
    · rw [result] at member
      cases member
    · rw [result] at member
      cases member
      rfl
  have told := submitBlock_status regular returned
  rw [status] at told
  obtain ⟨tip,signed,-,run⟩ := told
  exact ⟨tip,signed,by rw [ChainManager.after,run]⟩

/-- Below the tip a chain that grows stays as it is. -/
theorem sameBelow_grown (chain : Blockchain) (blocks : List Block) :
    SameBelow chain.size chain.blockAt (blocks.foldl Blockchain.addBlock chain).blockAt := by
  apply SameBelow.of_eq
  intro i below
  rw [Blockchain.blockAt,Blockchain.blockAt,Blockchain.blocks_foldl_addBlock,List.getElem?_append_left below]

theorem grew_of_accepted (regular : Regular P m)
    (accepted : Along (ChainManager.after P) (Accepts P) m (submissions reading blocks)) :
    Grew P m reading.now blocks (run (ChainManager.after P) m (submissions reading blocks)) := by
  induction blocks generalizing m with
  | nil =>
    exact ⟨trivial,by simp [transactionsOf],by simp,rfl,rfl,Option.map_id'.symm⟩
  | cons block rest ih =>
    obtain ⟨first,later⟩ := accepted
    obtain ⟨tip,signed,state⟩ := extended_of_accepts regular first
    have grew := ih (regular_after regular _) later
    rw [state] at grew
    have size : (m.blockchain.addBlock block).size = m.blockchain.size + 1 := by
      simp [Blockchain.size,Blockchain.addBlock]
    have run_eq : run (ChainManager.after P) m (submissions reading (block :: rest)) =
        run (ChainManager.after P) (m.extended P block) (submissions reading rest) := by rw [← state]; rfl
    rw [run_eq]
    refine ⟨⟨tip.parent,?_⟩,?_,?_,grew.blockchain,?_,?_⟩
    · have linked := grew.linked
      rwa [ChainManager.extended,Blockchain.latest_addBlock] at linked
    · exact List.forall_mem_append.mpr ⟨signed,grew.signed⟩
    · intro i other there
      cases i with
      | zero =>
        obtain rfl := Option.some.inj there
        exact tip.fits.congr (sameBelow_grown m.blockchain (block :: rest))
      | succ i =>
        have fits := grew.fits i other there
        simp only [ChainManager.extended,size] at fits
        rwa [Nat.add_assoc,Nat.add_comm 1] at fits
    · rw [grew.ledger]
      exact (play_append m.ledger block.transactions (transactionsOf rest)).symm
    · rw [grew.storage]
      simp only [ChainManager.extended,size,Option.map_map,Nat.add_sub_cancel]
      rfl

/-! ### All at once -/

variable {now : UInt64} {m' : ChainManager} {first : Block} {rest : List Block}

/-- A batch on the tip is weighed as a branch that grows from the tip. -/
theorem Grew.requested (grew : Grew P m now (first :: rest) m') (sound : m.blockchain.Sound)
    (tip : TipIndexed m.blockchain) (new : m.blockchain.hasBlock first.hash = false) :
    m.requestedFork P now (first :: rest) = .ok (some ⟨first :: rest,m.blockchain.latest⟩) := by
  have found : m.blockchain.findHeight first.prevHash = some (m.blockchain.size - 1) := by
    rw [grew.linked.1]
    exact tip
  have inside := sound.below tip
  have above : m.blockchain.size - 1 + 1 = m.blockchain.size := Nat.sub_add_cancel m.blockchain.size_pos
  obtain ⟨len,long,cut⟩ := truncate_keeps (P := P) (n := (first :: rest).length) sound
    ⟨first :: rest,m.blockchain.latest⟩ now tip (by simp) le_rfl (fun i block _ there => by
      -- What the branch shows of itself is what the chain shows once it has grown.
      have same := sameBelow_reorganized inside (first :: rest) (m.blockchain.size + i)
      rw [cut_tip] at same
      rw [above]
      exact (grew.fits i block there).congr (above ▸ same.symm))
  rw [List.take_of_length_le long] at cut
  unfold ChainManager.requestedFork
  rw [List.dropWhile_cons_of_neg (by simp [new])]
  simp only [found,grew.linked.isChain,not_true_eq_false,if_false,
    Blockchain.blockAt_eq_ok.mpr m.blockchain.blocks_getElem?_latest]
  exact cut

/-- Any block makes a branch on the tip heavier than the chain. -/
theorem isForkHeavier_tip {chain : Blockchain}
    (room : chain.latest.cumulativeWork.toNat + pathWork (first :: rest) < 2 ^ 64) :
    isForkHeavier chain ⟨first :: rest,chain.latest⟩ = true := by
  have work := foldl_work room
  have positive := first.blockWork_pos
  have split : pathWork (first :: rest) = first.blockWork.toNat + pathWork rest := by simp [pathWork]
  refine decide_eq_true (UInt64.lt_iff_toNat_lt.mpr ?_)
  show chain.latest.cumulativeWork.toNat < (forkWork ⟨first :: rest,chain.latest⟩).toNat
  rw [forkWork,work]
  omega

/-- The whole batch is adopted, with the chain and the ledger of the
    submissions. -/
theorem Grew.adopted (grew : Grew P m now (first :: rest) m') (regular : Regular P m) (tip : TipIndexed m.blockchain)
    (new : m.blockchain.hasBlock first.hash = false)
    (room : m.blockchain.latest.cumulativeWork.toNat + pathWork (first :: rest) < 2 ^ 64) :
    (m.adoptBranch P now (first :: rest)).1 = .ok true ∧
      (m.adoptBranch P now (first :: rest)).2.blockchain = m'.blockchain ∧
      (m.adoptBranch P now (first :: rest)).2.ledger = m'.ledger ∧
      (m.adoptBranch P now (first :: rest)).2.storage =
        m.storage.map (·.replaceBlocksFrom m.blockchain.size (first :: rest)) := by
  have requested := grew.requested regular.sound tip new
  have able : Adoptable P m ⟨first :: rest,m.blockchain.latest⟩ (m.blockchain.size - 1) :=
    ⟨isForkHeavier_tip room,grew.signed,tip⟩
  have above : m.blockchain.size - 1 + 1 = m.blockchain.blocks.length := Nat.sub_add_cancel m.blockchain.size_pos
  obtain ⟨m'',reorg,ledger,tried⟩ := Tried.adopts able regular.authentic
  have storage := tryReorg_storage regular.sound tried tip
  have run : m.adoptBranch P now (first :: rest) = (.ok true,m'') := by
    rw [ChainManager.adoptBranch,requested]
    simp [tried]
  rw [run]
  refine ⟨rfl,?_,?_,?_⟩
  · rw [reorg.blockchain,cut_tip,grew.blockchain]
  · rw [ledger,above,List.drop_length,grew.ledger]
    simp [settledLedger,applyBranch,plainHashes,transactionsOf,play]
  · rw [storage,cut_tip,above,Blockchain.blocks_foldl_addBlock,List.drop_left]
    refine congrArg (fun save => m.storage.map save) (funext fun table => ?_)
    exact Storage.saveBlocks_stamp _ _ _ _

/-- An adoption that skips the first block does not reach the height of the
    submissions. -/
theorem not_adopted_known (regular : Regular P m) (known : m.blockchain.hasBlock first.hash = true)
    (result : (m.adoptBranch P now (first :: rest)).1 = .ok true) :
    (m.adoptBranch P now (first :: rest)).2.blockchain.size < m.blockchain.size + (first :: rest).length := by
  cases adoptBranch_cases regular now (first :: rest) with
  | refused weak run => rw [run] at result; cases result
  | unverifiable fork requested e heavier bad run => rw [run] at result; cases result
  | reorganized fork requested height m'' reorg ledger run =>
    obtain ⟨other,request⟩ := Request.of_requested regular.sound requested
    obtain ⟨head,tail,len,unknown,-,-,-,taken⟩ := request.unknown
    have inside := regular.sound.below reorg.found
    have short : fork.blocks.length ≤ rest.length := by
      rw [List.dropWhile_cons_of_pos (by simpa using known)] at unknown
      rw [taken,← unknown]
      exact (List.length_take_le' _ _).trans (List.dropWhile_sublist _).length_le
    have size : m''.blockchain.size ≤ height + 1 + fork.blocks.length := by
      rw [reorg.blockchain,Blockchain.size,Blockchain.blocks_foldl_addBlock,List.length_append,Blockchain.stamp_length]
      exact Nat.add_le_add_right (List.length_take_le _ _) _
    rw [run,List.length_cons]
    show m''.blockchain.size < _
    omega

/-- In every reachable state, adopting blocks that are accepted in turn on the
    tip, with work that fits 64 bits, returns true and leaves the chain, the
    ledger and the rows of the submissions, exactly if the chain does not have
    the first of them, and the storage has no row above them but for one of
    them. -/
theorem adoptBranch_eq_submissions_iff (P : Primitives) (mempoolMaxSize : Nat) (params : ConsensusParams)
    (storage : Option Storage) (calls : List Call) (reading : Reading) (first : Block) (rest : List Block) :
    let m := run (ChainManager.after P) (.new P mempoolMaxSize params storage) calls
    let batch := m.adoptBranch P reading.now (first :: rest)
    let single := run (ChainManager.after P) m (submissions reading (first :: rest))
    Along (ChainManager.after P) (Accepts P) m (submissions reading (first :: rest)) →
    m.blockchain.latest.cumulativeWork.toNat + pathWork (first :: rest) < 2 ^ 64 →
    ((batch.1 = .ok true ∧ batch.2.blockchain = single.blockchain ∧ batch.2.ledger = single.ledger ∧
        batch.2.storage = single.storage) ↔
      m.blockchain.hasBlock first.hash = false ∧
        ∀ table ∈ m.storage, ∀ row ∈ table.rows, m.blockchain.size ≤ row.height →
          row.height < m.blockchain.size + (first :: rest).length ∨ row.hash ∈ (first :: rest).map Block.hash) := by
  intro m batch single accepted room
  obtain ⟨regular,tip⟩ := tipIndexed_run P mempoolMaxSize params storage calls
  have grew : Grew P m reading.now (first :: rest) single := grew_of_accepted regular accepted
  cases known : m.blockchain.hasBlock first.hash with
  | true =>
    refine iff_of_false ?_ (by simp)
    rintro ⟨result,blockchain,-,-⟩
    have short := not_adopted_known regular known result
    rw [show (m.adoptBranch P reading.now (first :: rest)).2.blockchain = _ from blockchain,grew.blockchain,
      Blockchain.size,Blockchain.blocks_foldl_addBlock,List.length_append,Blockchain.stamp_length] at short
    exact absurd short (lt_irrefl _)
  | false =>
    obtain ⟨result,blockchain,ledger,saved⟩ := grew.adopted regular tip known room
    have rows : batch.2.storage = single.storage ↔
        ∀ table ∈ m.storage, table.replaceBlocksFrom m.blockchain.size (first :: rest) =
          table.saveBlocks m.blockchain.size (first :: rest) := by
      rw [show batch.2.storage = _ from saved,grew.storage]
      cases m.storage with
      | none => simp
      | some table => simp
    simp only [Storage.replaceBlocksFrom_eq_iff] at rows
    constructor
    · rintro ⟨-,-,-,same⟩
      exact ⟨rfl,rows.mp same⟩
    · rintro ⟨-,covered⟩
      exact ⟨result,blockchain,ledger,rows.mpr covered⟩

/-! ### A running node -/

/-- A block on the tip is new as long as blocks are told apart by their hashes. -/
theorem hasBlock_above {given path : List Block} (tame : Tame P given) (placed : Placed P given path m)
    (inside : block ∈ given) (parent : block.prevHash = m.blockchain.latest.hash) :
    m.blockchain.hasBlock block.hash = false := by
  have rooted : Rooted P given (path ++ [block]) :=
    rooted_concat.mpr ⟨placed.rooted,parent.trans placed.follows.latest.1,inside⟩
  obtain ⟨blocks,distinct,within⟩ := tame _ rooted
  obtain ⟨before,-,among⟩ := rooted_concat.mp within
  rw [Bool.eq_false_iff]
  intro known
  have earlier := (placed.follows.hasBlock_iff placed.indexed distinct before among).mp known
  exact List.disjoint_of_nodup_append (distinct.nodup within) earlier (List.mem_singleton_self block)

/-- After any calls of a running node whose blocks are told apart by their hashes,
    adopting and submitting blocks on the tip come to the same. -/
theorem agrees_while_running {given : List Block} {calls : List Call} (tame : Tame P given) (mempoolMaxSize : Nat)
    (params : ConsensusParams) (fed : ∀ call ∈ calls, Persistence.Fed given call) (inside : first ∈ given) :
    let m := run (ChainManager.after P) (.new P mempoolMaxSize params (some ⟨[]⟩)) calls
    let batch := m.adoptBranch P reading.now (first :: rest)
    let single := run (ChainManager.after P) m (submissions reading (first :: rest))
    Along (ChainManager.after P) (Accepts P) m (submissions reading (first :: rest)) →
    m.blockchain.latest.cumulativeWork.toNat + pathWork (first :: rest) < 2 ^ 64 →
    batch.1 = .ok true ∧ batch.2.blockchain = single.blockchain ∧ batch.2.ledger = single.ledger ∧
      batch.2.storage = single.storage := by
  intro m batch single accepted room
  obtain ⟨path,placed,table,stored,rows⟩ := Persistence.mirrors_run tame mempoolMaxSize params fed
  have grew : Grew P m reading.now (first :: rest) single := grew_of_accepted placed.toRegular accepted
  have tip : TipIndexed m.blockchain :=
    (placed.indexed _ _).mpr (by rw [m.blockchain.blocks_getElem?_latest]; rfl)
  have new := hasBlock_above tame placed inside grew.linked.1
  obtain ⟨result,blockchain,ledger,saved⟩ := grew.adopted placed.toRegular tip new room
  refine ⟨result,blockchain,ledger,?_⟩
  have same : table.replaceBlocksFrom m.blockchain.size (first :: rest) =
      table.saveBlocks m.blockchain.size (first :: rest) := by
    refine (Storage.replaceBlocksFrom_eq_iff _ _ _).mpr fun row member low => ?_
    rw [rows] at member
    have high := (Storage.mem_rowsOf member).1.2
    rw [Nat.zero_add] at high
    exact absurd low (Nat.not_le.mpr high)
  rw [show batch.2.storage = _ from saved,grew.storage,stored,Option.map_some,Option.map_some,same]

end

open Samples

/-- Two blocks over a storage that was empty. -/
theorem adoptBranch_eq_submissions_two :
    let m := run (ChainManager.after sample) (.new sample 1000 testParams (some ⟨[]⟩)) []
    let batch := m.adoptBranch sample reading.now [plainA,plainA2]
    let single := run (ChainManager.after sample) m (submissions reading [plainA,plainA2])
    batch.1 = .ok true ∧ batch.2.blockchain = single.blockchain ∧ batch.2.ledger = single.ledger ∧
      batch.2.storage = single.storage := by
  refine (adoptBranch_eq_submissions_iff sample 1000 testParams (some ⟨[]⟩) [] reading plainA [plainA2] ?_ ?_).mpr ?_
  · decide +kernel
  · decide +kernel
  · decide +kernel

/-- A chain manager over the rows of an earlier run that were not restored: the
    submission of a block at height 1 leaves the row at height 2, the adoption
    deletes it. -/
theorem stale_row_survives_submission :
    let m := ChainManager.new sample 1000 testParams (some ⟨Storage.rowsOf 0 [Block.genesis sample,plainB,plainB2]⟩)
    let batch := m.adoptBranch sample reading.now [plainA]
    let single := run (ChainManager.after sample) m (submissions reading [plainA])
    Along (ChainManager.after sample) (Accepts sample) m (submissions reading [plainA]) ∧
      m.blockchain.latest.cumulativeWork.toNat + pathWork [plainA] < 2 ^ 64 ∧ batch.1 = .ok true ∧
      single.storage.map (·.rows.map Row.height) = some [0,2,1] ∧
      batch.2.storage.map (·.rows.map Row.height) = some [0,1] := by
  decide +kernel

end ForgeChain.Batch
